import BitTorrent.Yaml.Event
import BitTorrent.Yaml.Token.Fetch

/-!
# Parsing YAML tokens into events

The parser is a machine stepped once per event. Its state names what it expects next; a stack
of states says where to return after a node, and a stack of positions remembers where each
block or flow collection started, for faults inside it.

A stream is documents. A document is implicit when it starts with content, or explicit after
directives and `---`; a document end `...` is optional. A block mapping is keys and values each
after its indicator, either of which may be left out and reads as an empty scalar; a block
sequence is entries after `-`, and a sequence may sit at the indentation of the mapping key it
is the value of. Flow collections are separated by commas; a `?` or a `key: value` pair inside a
flow sequence is a mapping of one pair. A node may have an anchor and a tag in either order; a
node with nothing but those is an empty scalar.

A tag `!handle!suffix` is resolved through the `%TAG` directives of its document and the
defaults `!` and `!!` (for `tag:yaml.org,2002:`); a verbatim tag `!<…>` is its text.
-/

namespace BitTorrent.Yaml

/-- What the parser expects next. -/
inductive ParseState where
  | streamStart
  | implicitDocumentStart
  | documentStart
  | documentContent
  | documentEnd
  | blockNode
  | blockNodeOrIndentlessSequence
  | flowNode
  | blockSequenceFirstEntry
  | blockSequenceEntry
  | indentlessSequenceEntry
  | blockMappingFirstKey
  | blockMappingKey
  | blockMappingValue
  | flowSequenceFirstEntry
  | flowSequenceEntry
  | flowSequenceEntryMappingKey
  | flowSequenceEntryMappingValue
  | flowSequenceEntryMappingEnd
  | flowMappingFirstKey
  | flowMappingKey
  | flowMappingValue
  | flowMappingEmptyValue
  | finished
  deriving Repr, DecidableEq, Inhabited

/-- The state of the parser. -/
structure Parser where
  scanner : Scanner
  state : ParseState := .streamStart
  states : List ParseState := []
  marks : List Mark := []
  /-- The tag handles of the current document with their prefixes, in the order given. -/
  tagDirectives : List (String × String) := []
  deriving Inhabited

/-- The handles every document has: `!` for local tags and `!!` for the standard ones. -/
def defaultTagDirectives : List (String × String) :=
  [("!", "!"), ("!!", "tag:yaml.org,2002:")]

namespace Parser

/-- The token at the front of the queue. -/
def peekToken (p : Parser) : Except Fault (Token × Parser) := do
  let (t, s) ← p.scanner.peek
  return (t, { p with scanner := s })

/-- Takes the token at the front of the queue. -/
def takeToken (p : Parser) : Parser :=
  { p with scanner := p.scanner.take }

/-- Returns to the state on top of the stack. -/
def popState (p : Parser) : Parser :=
  { p with state := p.states.headD .finished, states := p.states.tail }

/-- Remembers a state to return to. -/
def pushState (p : Parser) (st : ParseState) : Parser :=
  { p with states := st :: p.states }

/-- Forgets the start of the innermost collection. -/
def popMark (p : Parser) : Parser :=
  { p with marks := p.marks.tail }

/-- A parsing fault at `mark`. -/
def fault {α : Type} (problem : String) (mark : Mark) (context : Mark := {}) : Except Fault α :=
  .error { stage := .parser, problem, mark, context }

/-- An empty plain scalar at `m`. -/
def emptyScalar (m : Mark) : Event :=
  ⟨.scalar none "" "" true false .plain, m⟩

/-- Adds a tag directive; a handle given twice is a fault unless `allowDuplicate`, and then the
first stays. -/
def addTagDirective (p : Parser) (d : String × String) (allowDuplicate : Bool) (m : Mark) :
    Except Fault Parser :=
  if p.tagDirectives.any (·.1 == d.1) then
    if allowDuplicate then .ok p else fault "found duplicate %TAG directive" m
  else .ok { p with tagDirectives := p.tagDirectives ++ [d] }

/-- Reads the directives before a document, then adds the default tag handles. At most one
`%YAML` directive may be given, and only for version 1.1. -/
def directives (p : Parser) : Except Fault Parser :=
  go p.scanner.fuel false p
where
  /-- Reads one directive at a time. -/
  go : Nat → Bool → Parser → Except Fault Parser
    | 0, _, p => .ok p
    | fuel + 1, seenVersion, p => do
      let (t, p) ← p.peekToken
      match t.kind with
      | .versionDirective major minor =>
        if seenVersion then fault "found duplicate %YAML directive" t.start
        else if major != 1 || minor != 1 then fault "found incompatible YAML document" t.start
        else go fuel true p.takeToken
      | .tagDirective handle pfx =>
        let p ← p.addTagDirective (handle, pfx) false t.start
        go fuel seenVersion p.takeToken
      | _ =>
        defaultTagDirectives.foldlM (fun p d => p.addTagDirective d true t.start) p

/-- The start of the stream. -/
def streamStart (p : Parser) : Except Fault (Event × Parser) := do
  let (t, p) ← p.peekToken
  if t.kind != .streamStart then fault "did not find expected <stream-start>" t.start
  else return (⟨.streamStart, t.start⟩, { p.takeToken with state := .implicitDocumentStart })

/-- Skips extra document end markers. -/
def skipDocumentEnds : Nat → Parser → Except Fault (Token × Parser)
  | 0, p => p.peekToken
  | fuel + 1, p => do
    let (t, p) ← p.peekToken
    if t.kind == .documentEnd then skipDocumentEnds fuel p.takeToken else return (t, p)

/-- A token that starts a document explicitly, or ends the stream. -/
def startsDocument (k : TokenKind) : Bool :=
  match k with
  | .versionDirective _ _ | .tagDirective _ _ | .documentStart | .streamEnd => true
  | _ => false

/-- The start of a document, or the end of the stream. At the start of the stream a document
may be implicit. -/
def documentStart (p : Parser) (implicit : Bool) : Except Fault (Event × Parser) := do
  let (t, p) ← if implicit then p.peekToken else skipDocumentEnds p.scanner.fuel p
  if implicit && !startsDocument t.kind then
    let p ← p.directives
    let p := { p.pushState .documentEnd with state := .blockNode }
    return (⟨.documentStart, t.start⟩, p)
  else if t.kind != .streamEnd then
    let start := t.start
    let p ← p.directives
    let (t, p) ← p.peekToken
    if t.kind != .documentStart then fault "did not find expected <document start>" t.start
    else
      let p := { p.pushState .documentEnd with state := .documentContent }
      return (⟨.documentStart, start⟩, p.takeToken)
  else return (⟨.streamEnd, t.start⟩, { p.takeToken with state := .finished })

/-- The content of an explicit document: a node, or an empty scalar when the document ends at
once. -/
def documentContent (p : Parser) (node : Parser → Except Fault (Event × Parser)) :
    Except Fault (Event × Parser) := do
  let (t, p) ← p.peekToken
  match t.kind with
  | .versionDirective _ _ | .tagDirective _ _ | .documentStart | .documentEnd | .streamEnd =>
    return (emptyScalar t.start, p.popState)
  | _ => node p

/-- The end of a document, with or without `...`. -/
def documentEnd (p : Parser) : Except Fault (Event × Parser) := do
  let (t, p) ← p.peekToken
  let p := if t.kind == .documentEnd then p.takeToken else p
  return (⟨.documentEnd, t.start⟩, { p with tagDirectives := [], state := .documentStart })

/-- The tag a tag token stands for in the current document: a handle's prefix followed by the
suffix, and the suffix alone for a verbatim tag or the empty handle. -/
def resolveTag (p : Parser) (handle : Option String) (suffix : String) (start tagMark : Mark) :
    Except Fault String :=
  match handle with
  | none => .ok suffix
  | some h =>
    if h.isEmpty then .ok suffix
    else
      match p.tagDirectives.find? (·.1 == h) with
      | some (_, pfx) =>
        if (pfx ++ suffix).isEmpty then fault "found undefined tag handle" tagMark start
        else .ok (pfx ++ suffix)
      | none => fault "found undefined tag handle" tagMark start

/-- The anchor and tag before a node, in either order: the anchor, the tag token's handle and
suffix, where the tag starts, and the token after them. -/
def properties (p : Parser) (t : Token) :
    Except Fault (Option String × Option (Option String × String) × Mark × Token × Parser) := do
  match t.kind with
  | .anchor name =>
    let (t2, p) ← p.takeToken.peekToken
    match t2.kind with
    | .tag h sfx =>
      let (t3, p) ← p.takeToken.peekToken
      return (some name, some (h, sfx), t2.start, t3, p)
    | _ => return (some name, none, {}, t2, p)
  | .tag h sfx =>
    let (t2, p) ← p.takeToken.peekToken
    match t2.kind with
    | .anchor name =>
      let (t3, p) ← p.takeToken.peekToken
      return (some name, some (h, sfx), t.start, t3, p)
    | _ => return (none, some (h, sfx), t.start, t2, p)
  | _ => return (none, none, {}, t, p)

/-- A node: an alias, a scalar, the start of a collection, or an empty scalar with only an
anchor or a tag. `block` allows block collections, and `indentless` a sequence at the
indentation of its key. -/
def node (p : Parser) (block indentless : Bool) : Except Fault (Event × Parser) := do
  let (t, p) ← p.peekToken
  if let .alias name := t.kind then
    return (⟨.alias name, t.start⟩, p.takeToken.popState)
  let start := t.start
  let (anchor, tagToken, tagMark, t, p) ← p.properties t
  let tag ← match tagToken with
    | some (h, sfx) => p.resolveTag h sfx start tagMark
    | none => pure ""
  match t.kind with
  | .blockEntry =>
    if indentless then
      return (⟨.sequenceStart anchor tag, start⟩, { p with state := .indentlessSequenceEntry })
    else if anchor.isSome || !tag.isEmpty then
      return (⟨.scalar anchor tag "" tag.isEmpty false .plain, start⟩, p.popState)
    else fault "did not find expected node content" t.start start
  | .scalar text style =>
    let implicit := (tag.isEmpty && style == .plain) || tag == "!"
    let quoted := !implicit && tag.isEmpty
    return (⟨.scalar anchor tag text implicit quoted style, start⟩, p.takeToken.popState)
  | .flowSequenceStart =>
    return (⟨.sequenceStart anchor tag, start⟩, { p with state := .flowSequenceFirstEntry })
  | .flowMappingStart =>
    return (⟨.mappingStart anchor tag, start⟩, { p with state := .flowMappingFirstKey })
  | .blockSequenceStart =>
    if block then
      return (⟨.sequenceStart anchor tag, start⟩, { p with state := .blockSequenceFirstEntry })
    else if anchor.isSome || !tag.isEmpty then
      return (⟨.scalar anchor tag "" tag.isEmpty false .plain, start⟩, p.popState)
    else fault "did not find expected node content" t.start start
  | .blockMappingStart =>
    if block then
      return (⟨.mappingStart anchor tag, start⟩, { p with state := .blockMappingFirstKey })
    else if anchor.isSome || !tag.isEmpty then
      return (⟨.scalar anchor tag "" tag.isEmpty false .plain, start⟩, p.popState)
    else fault "did not find expected node content" t.start start
  | _ =>
    if anchor.isSome || !tag.isEmpty then
      return (⟨.scalar anchor tag "" tag.isEmpty false .plain, start⟩, p.popState)
    else fault "did not find expected node content" t.start start

/-- Takes the token that opens a collection, remembering where it starts. -/
def openCollection (p : Parser) : Except Fault Parser := do
  let (t, p) ← p.peekToken
  return { p.takeToken with marks := t.start :: p.marks }

/-- An entry of a block sequence, or its end. -/
def blockSequenceEntry (p : Parser) (first : Bool) : Except Fault (Event × Parser) := do
  let p ← if first then p.openCollection else pure p
  let (t, p) ← p.peekToken
  match t.kind with
  | .blockEntry =>
    let m := t.stop
    let (t, p) ← p.takeToken.peekToken
    if t.kind != .blockEntry && t.kind != .blockEnd then
      (p.pushState .blockSequenceEntry).node true false
    else return (emptyScalar m, { p with state := .blockSequenceEntry })
  | .blockEnd => return (⟨.sequenceEnd, t.start⟩, p.popState.popMark.takeToken)
  | _ => fault "did not find expected '-' indicator" t.start (p.marks.headD {})

/-- An entry of a sequence at the indentation of its key, or its end. -/
def indentlessSequenceEntry (p : Parser) : Except Fault (Event × Parser) := do
  let (t, p) ← p.peekToken
  if t.kind == .blockEntry then
    let m := t.stop
    let (t, p) ← p.takeToken.peekToken
    if t.kind != .blockEntry && t.kind != .key && t.kind != .value && t.kind != .blockEnd then
      (p.pushState .indentlessSequenceEntry).node true false
    else return (emptyScalar m, { p with state := .indentlessSequenceEntry })
  else return (⟨.sequenceEnd, t.start⟩, p.popState)

/-- A key of a block mapping, or its end. -/
def blockMappingKey (p : Parser) (first : Bool) : Except Fault (Event × Parser) := do
  let p ← if first then p.openCollection else pure p
  let (t, p) ← p.peekToken
  match t.kind with
  | .key =>
    let m := t.stop
    let (t, p) ← p.takeToken.peekToken
    if t.kind != .key && t.kind != .value && t.kind != .blockEnd then
      (p.pushState .blockMappingValue).node true true
    else return (emptyScalar m, { p with state := .blockMappingValue })
  | .blockEnd => return (⟨.mappingEnd, t.start⟩, p.popState.popMark.takeToken)
  | _ => fault "did not find expected key" t.start (p.marks.headD {})

/-- A value of a block mapping, empty when left out. -/
def blockMappingValue (p : Parser) : Except Fault (Event × Parser) := do
  let (t, p) ← p.peekToken
  if t.kind == .value then
    let m := t.stop
    let (t, p) ← p.takeToken.peekToken
    if t.kind != .key && t.kind != .value && t.kind != .blockEnd then
      (p.pushState .blockMappingKey).node true true
    else return (emptyScalar m, { p with state := .blockMappingKey })
  else return (emptyScalar t.start, { p with state := .blockMappingKey })

/-- An entry of a flow sequence, or its end. -/
def flowSequenceEntry (p : Parser) (first : Bool) : Except Fault (Event × Parser) := do
  let p ← if first then p.openCollection else pure p
  let (t, p) ← p.peekToken
  if t.kind != .flowSequenceEnd then
    let (t, p) ← if first then pure (t, p)
      else if t.kind == .flowEntry then p.takeToken.peekToken
      else fault "did not find expected ',' or ']'" t.start (p.marks.headD {})
    if t.kind == .key then
      return (⟨.mappingStart none "", t.start⟩,
        { p.takeToken with state := .flowSequenceEntryMappingKey })
    else if t.kind != .flowSequenceEnd then
      return ← (p.pushState .flowSequenceEntry).node false false
    else return (⟨.sequenceEnd, t.start⟩, p.popState.popMark.takeToken)
  else return (⟨.sequenceEnd, t.start⟩, p.popState.popMark.takeToken)

/-- The key of a one-pair mapping inside a flow sequence. -/
def flowSequenceEntryMappingKey (p : Parser) : Except Fault (Event × Parser) := do
  let (t, p) ← p.peekToken
  if t.kind != .value && t.kind != .flowEntry && t.kind != .flowSequenceEnd then
    (p.pushState .flowSequenceEntryMappingValue).node false false
  else return (emptyScalar t.stop, { p.takeToken with state := .flowSequenceEntryMappingValue })

/-- The value of a one-pair mapping inside a flow sequence. -/
def flowSequenceEntryMappingValue (p : Parser) : Except Fault (Event × Parser) := do
  let (t, p) ← p.peekToken
  if t.kind == .value then
    let (t2, p) ← p.takeToken.peekToken
    if t2.kind != .flowEntry && t2.kind != .flowSequenceEnd then
      (p.pushState .flowSequenceEntryMappingEnd).node false false
    else return (emptyScalar t.start, { p with state := .flowSequenceEntryMappingEnd })
  else return (emptyScalar t.start, { p with state := .flowSequenceEntryMappingEnd })

/-- The end of a one-pair mapping inside a flow sequence. -/
def flowSequenceEntryMappingEnd (p : Parser) : Except Fault (Event × Parser) := do
  let (t, p) ← p.peekToken
  return (⟨.mappingEnd, t.start⟩, { p with state := .flowSequenceEntry })

/-- A key of a flow mapping, or its end. -/
def flowMappingKey (p : Parser) (first : Bool) : Except Fault (Event × Parser) := do
  let p ← if first then p.openCollection else pure p
  let (t, p) ← p.peekToken
  if t.kind != .flowMappingEnd then
    let (t, p) ← if first then pure (t, p)
      else if t.kind == .flowEntry then p.takeToken.peekToken
      else fault "did not find expected ',' or '\x7d'" t.start (p.marks.headD {})
    if t.kind == .key then
      let (t, p) ← p.takeToken.peekToken
      if t.kind != .value && t.kind != .flowEntry && t.kind != .flowMappingEnd then
        return ← (p.pushState .flowMappingValue).node false false
      else return (emptyScalar t.start, { p with state := .flowMappingValue })
    else if t.kind != .flowMappingEnd then
      return ← (p.pushState .flowMappingEmptyValue).node false false
    else return (⟨.mappingEnd, t.start⟩, p.popState.popMark.takeToken)
  else return (⟨.mappingEnd, t.start⟩, p.popState.popMark.takeToken)

/-- A value of a flow mapping, empty when left out or when the key stood alone. -/
def flowMappingValue (p : Parser) (empty : Bool) : Except Fault (Event × Parser) := do
  let (t, p) ← p.peekToken
  if empty then return (emptyScalar t.start, { p with state := .flowMappingKey })
  if t.kind == .value then
    let (t, p) ← p.takeToken.peekToken
    if t.kind != .flowEntry && t.kind != .flowMappingEnd then
      (p.pushState .flowMappingKey).node false false
    else return (emptyScalar t.start, { p with state := .flowMappingKey })
  else return (emptyScalar t.start, { p with state := .flowMappingKey })

/-- The next event, or none once the stream has ended. -/
def next (p : Parser) : Except Fault (Option Event × Parser) := do
  if p.scanner.ended || p.state == .finished then return (none, p)
  let (e, p) ← match p.state with
    | .streamStart => p.streamStart
    | .implicitDocumentStart => p.documentStart true
    | .documentStart => p.documentStart false
    | .documentContent => p.documentContent fun p => p.node true false
    | .documentEnd => p.documentEnd
    | .blockNode => p.node true false
    | .blockNodeOrIndentlessSequence => p.node true true
    | .flowNode => p.node false false
    | .blockSequenceFirstEntry => p.blockSequenceEntry true
    | .blockSequenceEntry => p.blockSequenceEntry false
    | .indentlessSequenceEntry => p.indentlessSequenceEntry
    | .blockMappingFirstKey => p.blockMappingKey true
    | .blockMappingKey => p.blockMappingKey false
    | .blockMappingValue => p.blockMappingValue
    | .flowSequenceFirstEntry => p.flowSequenceEntry true
    | .flowSequenceEntry => p.flowSequenceEntry false
    | .flowSequenceEntryMappingKey => p.flowSequenceEntryMappingKey
    | .flowSequenceEntryMappingValue => p.flowSequenceEntryMappingValue
    | .flowSequenceEntryMappingEnd => p.flowSequenceEntryMappingEnd
    | .flowMappingFirstKey => p.flowMappingKey true
    | .flowMappingKey => p.flowMappingKey false
    | .flowMappingValue => p.flowMappingValue false
    | .flowMappingEmptyValue => p.flowMappingValue true
    | .finished => pure (⟨.streamEnd, {}⟩, p)
  return (some e, p)

end Parser

end BitTorrent.Yaml
