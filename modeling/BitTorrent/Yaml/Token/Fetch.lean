import BitTorrent.Yaml.Token.Scalar

/-!
# Fetching tokens

The scanner produces tokens on demand: the parser asks for the token at the front of the queue,
and the scanner fetches tokens until that one can no longer change, that is until no possible
simple key starts with it (a key token may still be inserted before a possible key).

Each fetch skips blanks, comments and line breaks (tabs only where no simple key may start, or
in a flow collection), closes the block collections the new line leaves, and reads one token:
the end of the stream, a directive or document marker at the start of a line, a flow indicator,
a block entry `-`, a key `?`, a value `:`, an alias, an anchor, a tag, a block scalar, a quoted
scalar or a plain scalar. Any other character cannot start a token.
-/

namespace BitTorrent.Yaml

namespace Scanner

/-- Skips blanks, comments and line breaks up to the next token. A byte order mark is skipped at
the start of a line; tabs are skipped in a flow collection or where no simple key may start. A
line break in the block context lets a simple key start. -/
def toNextToken : Nat → Scanner → Except Fault Scanner
  | 0, s => .ok s
  | fuel + 1, s => do
    s.need 1
    let s := if s.mark.column == 0 && s.cur.toNat == 0xFEFF then s.skip else s
    s.need 1
    let s ← skipWhile (fun c => c == ' ' || ((s.flowLevel > 0 || !s.allowed) && c == '\t'))
      s.fuel s
    let s ← s.skipComment
    if isBreak s.cur then do
      s.need 2
      let s := s.skipLine
      toNextToken fuel (if s.flowLevel == 0 then { s with allowed := true } else s)
    else .ok s

/-- The start of the stream. -/
def fetchStreamStart (s : Scanner) : Scanner :=
  let s := { s with indent := -1, keys := s.keys.push {}, keyLevels := [], allowed := true,
                    started := true }
  s.push .streamStart s.mark s.mark

/-- The end of the stream: the position moves to a new line, every block collection closes,
and the innermost possible key is dropped. -/
def fetchStreamEnd (s : Scanner) : Except Fault Scanner := do
  let s := if s.mark.column != 0 then { s with mark := { s.mark with column := 0, line := s.mark.line + 1 } } else s
  let s := s.unrollIndent (-1)
  let s ← s.removeKey
  let s := { s with allowed := false }
  return s.push .streamEnd s.mark s.mark

/-- A directive. -/
def fetchDirective (s : Scanner) : Except Fault Scanner := do
  let s := s.unrollIndent (-1)
  let s ← s.removeKey
  let (t, s) ← { s with allowed := false }.scanDirective
  return { s with tokens := s.tokens.push t }

/-- A document start or end marker. -/
def fetchDocumentIndicator (s : Scanner) (kind : TokenKind) : Except Fault Scanner := do
  let s := s.unrollIndent (-1)
  let s ← s.removeKey
  let start := s.mark
  let s := ({ s with allowed := false } : Scanner).skipN 3
  return s.push kind start s.mark

/-- The opening bracket or brace of a flow collection, which may start a simple key. -/
def fetchFlowStart (s : Scanner) (kind : TokenKind) : Except Fault Scanner := do
  let s ← s.saveKey
  let s ← s.enterFlow
  let start := s.mark
  let s := ({ s with allowed := true } : Scanner).skip
  return s.push kind start s.mark

/-- The closing bracket or brace of a flow collection. -/
def fetchFlowEnd (s : Scanner) (kind : TokenKind) : Except Fault Scanner := do
  let s ← s.removeKey
  let s := s.leaveFlow
  let start := s.mark
  let s := ({ s with allowed := false } : Scanner).skip
  return s.push kind start s.mark

/-- A comma between flow entries. -/
def fetchFlowEntry (s : Scanner) : Except Fault Scanner := do
  let s ← s.removeKey
  let start := s.mark
  let s := ({ s with allowed := true } : Scanner).skip
  return s.push .flowEntry start s.mark

/-- A `-` entry of a block sequence, which opens the sequence when it is further right than the
indentation. -/
def fetchBlockEntry (s : Scanner) : Except Fault Scanner := do
  let s ← if s.flowLevel == 0 then
      if !s.allowed then s.fail s.mark "block sequence entries are not allowed in this context"
      else s.rollIndent s.mark.column none .blockSequenceStart s.mark
    else pure s
  let s ← s.removeKey
  let start := s.mark
  let s := ({ s with allowed := true } : Scanner).skip
  return s.push .blockEntry start s.mark

/-- A `?` that starts a key. -/
def fetchKey (s : Scanner) : Except Fault Scanner := do
  let s ← if s.flowLevel == 0 then
      if !s.allowed then s.fail s.mark "mapping keys are not allowed in this context"
      else s.rollIndent s.mark.column none .blockMappingStart s.mark
    else pure s
  let s ← s.removeKey
  let start := s.mark
  let s := ({ s with allowed := s.flowLevel == 0 } : Scanner).skip
  return s.push .key start s.mark

/-- A `:` that starts a value. When the innermost possible key can still be a key, the key token
is inserted before it, opening a block mapping when needed; otherwise the value follows a key
written with `?`, or none. -/
def fetchValue (s : Scanner) : Except Fault Scanner := do
  let i := s.top
  let (valid, s) ← s.keyValid i
  let s ← if valid then do
      let k := s.keyAt i
      let s := s.insertAt k.number ⟨.key, k.mark, k.mark⟩
      let s ← s.rollIndent k.mark.column (some k.number) .blockMappingStart k.mark
      let s := (s.setKey i { k with possible := false }).forgetToken k.number
      pure { s with allowed := false }
    else if s.flowLevel == 0 then
      if !s.allowed then s.fail s.mark "mapping values are not allowed in this context"
      else do
        let s ← s.rollIndent s.mark.column none .blockMappingStart s.mark
        pure { s with allowed := true }
    else pure { s with allowed := false }
  let start := s.mark
  let s := s.skip
  return s.push .value start s.mark

/-- An alias or an anchor, which may start a simple key. -/
def fetchAnchor (s : Scanner) (isAlias : Bool) : Except Fault Scanner := do
  let s ← s.saveKey
  let (t, s) ← { s with allowed := false }.scanAnchor isAlias
  return { s with tokens := s.tokens.push t }

/-- A tag, which may start a simple key. -/
def fetchTag (s : Scanner) : Except Fault Scanner := do
  let s ← s.saveKey
  let (t, s) ← { s with allowed := false }.scanTag
  return { s with tokens := s.tokens.push t }

/-- A literal or folded block scalar, after which a simple key may start. -/
def fetchBlockScalar (s : Scanner) (literal : Bool) : Except Fault Scanner := do
  let s ← s.removeKey
  let (t, s) ← { s with allowed := true }.scanBlock literal
  return { s with tokens := s.tokens.push t }

/-- A quoted scalar, which may start a simple key. -/
def fetchQuoted (s : Scanner) (single : Bool) : Except Fault Scanner := do
  let s ← s.saveKey
  let (t, s) ← { s with allowed := false }.scanQuoted single
  return { s with tokens := s.tokens.push t }

/-- A plain scalar, which may start a simple key. -/
def fetchPlain (s : Scanner) : Except Fault Scanner := do
  let s ← s.saveKey
  let (t, s) ← { s with allowed := false }.scanPlain
  return { s with tokens := s.tokens.push t }

/-- A character that starts a token of its own, so that no plain scalar starts with it. -/
def isIndicator (c : Char) : Bool :=
  "-?:,[]{}#&*!|>'\"%@".contains c || c.toNat == 96

/-- Fetches the next token. -/
def fetchNext (s : Scanner) : Except Fault Scanner := do
  s.need 1
  if !s.started then return s.fetchStreamStart
  let s ← toNextToken s.fuel s
  let s := s.unrollIndent s.mark.column
  s.need 4
  let c := s.cur
  let c1 := s.peekAt 1
  if isEnd c then s.fetchStreamEnd
  else if s.mark.column == 0 && c == '%' then s.fetchDirective
  else if s.mark.column == 0 && c == '-' && c1 == '-' && s.peekAt 2 == '-' && isBlankEnd (s.peekAt 3) then
    s.fetchDocumentIndicator .documentStart
  else if s.mark.column == 0 && c == '.' && c1 == '.' && s.peekAt 2 == '.' && isBlankEnd (s.peekAt 3) then
    s.fetchDocumentIndicator .documentEnd
  else if c == '[' then s.fetchFlowStart .flowSequenceStart
  else if c == '{' then s.fetchFlowStart .flowMappingStart
  else if c == ']' then s.fetchFlowEnd .flowSequenceEnd
  else if c == '}' then s.fetchFlowEnd .flowMappingEnd
  else if c == ',' then s.fetchFlowEntry
  else if c == '-' && isBlankEnd c1 then s.fetchBlockEntry
  else if c == '?' && (s.flowLevel > 0 || isBlankEnd c1) then s.fetchKey
  else if c == ':' && (s.flowLevel > 0 || isBlankEnd c1) then s.fetchValue
  else if c == '*' then s.fetchAnchor true
  else if c == '&' then s.fetchAnchor false
  else if c == '!' then s.fetchTag
  else if c == '|' && s.flowLevel == 0 then s.fetchBlockScalar true
  else if c == '>' && s.flowLevel == 0 then s.fetchBlockScalar false
  else if c == '\'' then s.fetchQuoted true
  else if c == '"' then s.fetchQuoted false
  else if !(isBlankEnd c || isIndicator c) || (c == '-' && !isBlank c1) ||
      (s.flowLevel == 0 && (c == '?' || c == ':') && !isBlankEnd c1) then s.fetchPlain
  else s.fail s.mark "found character that cannot start any token"

/-- Fetches tokens until the one at the front of the queue is settled: the queue is not empty,
and no possible key that can still be a key starts with the front token. -/
def fetchMore : Nat → Scanner → Except Fault Scanner
  | 0, s => .ok { s with ready := true }
  | fuel + 1, s => do
    if s.taken < s.tokens.size then
      match s.keyLevels.lookup s.taken with
      | none => return { s with ready := true }
      | some i =>
        let (valid, s) ← s.keyValid i
        if !valid then return { s with ready := true }
        fetchMore fuel (← s.fetchNext)
    else fetchMore fuel (← s.fetchNext)

/-- The token at the front of the queue, fetching it when needed. -/
def peek (s : Scanner) : Except Fault (Token × Scanner) := do
  let s ← if s.ready then pure s else fetchMore (2 * s.fuel + 8) s
  return (s.tokens.getD s.taken default, s)

/-- Takes the token at the front of the queue. -/
def take (s : Scanner) : Scanner :=
  { s with ready := false, taken := s.taken + 1,
           ended := (s.tokens.getD s.taken default).kind == .streamEnd }

end Scanner

end BitTorrent.Yaml
