/-!
# YAML tokens

The scanner turns the characters of a stream into tokens: the markers of the stream and of
documents, directives, the starts and ends of block and flow collections, entry, key and value
indicators, anchors, aliases, tags and scalars. Each token carries the positions it starts and
ends at.

A fault names its problem, the position where it was found, the position of the construct it
was found in, and the stage that found it. Its text gives the line, counted from one for the
scanner and from zero for the parser, of the problem when that is not on the first line, else
of the construct.
-/

namespace BitTorrent.Yaml

/-- A position in the stream: characters read, and the line and column, both from zero. -/
structure Mark where
  index : Nat := 0
  line : Nat := 0
  column : Nat := 0
  deriving Repr, Inhabited, DecidableEq

/-- How a scalar was written. -/
inductive Style where
  | plain
  | singleQuoted
  | doubleQuoted
  | literal
  | folded
  deriving Repr, DecidableEq, Inhabited

/-- The kinds of tokens, with what they carry. -/
inductive TokenKind where
  | streamStart
  | streamEnd
  /-- `%YAML major.minor`. -/
  | versionDirective (major minor : Nat)
  /-- `%TAG handle prefix`. -/
  | tagDirective (handle pfx : String)
  | documentStart
  | documentEnd
  | blockSequenceStart
  | blockMappingStart
  | blockEnd
  | flowSequenceStart
  | flowSequenceEnd
  | flowMappingStart
  | flowMappingEnd
  | blockEntry
  | flowEntry
  | key
  | value
  | alias (name : String)
  | anchor (name : String)
  /-- A tag: its handle, none for a verbatim tag `!<…>`, and its suffix. -/
  | tag (handle : Option String) (suffix : String)
  | scalar (text : String) (style : Style)
  deriving Repr, DecidableEq, Inhabited

/-- A token and where it starts and ends. -/
structure Token where
  kind : TokenKind
  start : Mark
  stop : Mark
  deriving Repr, Inhabited

/-- The stage of reading that found a fault. -/
inductive Stage where
  | reader
  | scanner
  | parser
  deriving Repr, DecidableEq, Inhabited

/-- A fault in a stream: what is wrong and where, and where the construct it was found in
starts. -/
structure Fault where
  stage : Stage
  problem : String
  mark : Mark := {}
  context : Mark := {}
  deriving Repr, Inhabited

/-- The text of a fault. -/
def Fault.message (e : Fault) : String :=
  let line :=
    if e.mark.line != 0 then (if e.stage == .scanner then e.mark.line + 1 else e.mark.line)
    else e.context.line
  "yaml: " ++ (if line != 0 then "line " ++ toString line ++ ": " else "") ++ e.problem

end BitTorrent.Yaml
