import BitTorrent.Yaml.Token

/-!
# YAML events

The parser turns tokens into events: the start and end of the stream, of each document, of each
sequence and mapping, and each scalar and alias. A node event carries its anchor, if any, and
its tag resolved against the document's tag directives, or the empty tag when none was written.
A scalar is implicit when it may be resolved by its text: plain and untagged, or tagged `!`;
it is quoted-implicit when it is untagged but quoted. Each event has the position it starts at.
-/

namespace BitTorrent.Yaml

/-- The kinds of events, with what they carry. -/
inductive EventKind where
  | streamStart
  | streamEnd
  | documentStart
  | documentEnd
  | alias (name : String)
  | scalar (anchor : Option String) (tag text : String) (implicit quotedImplicit : Bool)
      (style : Style)
  | sequenceStart (anchor : Option String) (tag : String)
  | sequenceEnd
  | mappingStart (anchor : Option String) (tag : String)
  | mappingEnd
  deriving Repr, DecidableEq, Inhabited

/-- An event and where it starts. -/
structure Event where
  kind : EventKind
  start : Mark
  deriving Repr, Inhabited

end BitTorrent.Yaml
