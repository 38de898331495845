import BitTorrent.Yaml.Chars
import BitTorrent.Yaml.Token

/-!
# The state of the YAML scanner

The scanner reads characters and appends tokens to one queue, which the parser takes from the
front. Its state holds the position, the queue and how much of it the parser took, the flow
level, the stack of block indentations, and one possible simple key per flow level.

A key written without `?` is a simple key. A scalar, flow collection, anchor, alias or tag is
remembered as a possible key when it starts where a key may start, with the number its first
token gets in the queue. A `:` after it on the same line, and within 1024 characters, makes it
a key: the key token is inserted before it, with the start of a block mapping when it opens
one. A possible key that is required, because it starts a line at the indentation of a block
mapping, is a fault when it cannot become a key.

Every character is asked for before it is looked at (`need`), as the input is decoded piece by
piece and a piece may hold a fault.
-/

namespace BitTorrent.Yaml

/-- A line break: carriage return, line feed, U+0085, U+2028 or U+2029. -/
def isBreak (c : Char) : Bool :=
  c == '\r' || c == '\n' || c.toNat == 0x85 || c.toNat == 0x2028 || c.toNat == 0x2029

/-- A space or a tab. -/
def isBlank (c : Char) : Bool := c == ' ' || c == '\t'

/-- The end of the stream, which reads as the character zero. -/
def isEnd (c : Char) : Bool := c.toNat == 0

/-- A line break or the end of the stream. -/
def isBreakEnd (c : Char) : Bool := isBreak c || isEnd c

/-- A blank, a line break or the end of the stream. -/
def isBlankEnd (c : Char) : Bool := isBlank c || isBreakEnd c

/-- A character of an anchor name, a tag handle or a directive name: an ASCII letter or digit,
an underscore or a dash. -/
def isWordChar (c : Char) : Bool :=
  ('0' ≤ c && c ≤ '9') || ('A' ≤ c && c ≤ 'Z') || ('a' ≤ c && c ≤ 'z') || c == '_' || c == '-'

/-- An ASCII decimal digit. -/
def isDigitChar (c : Char) : Bool := '0' ≤ c && c ≤ '9'

/-- The value of a hexadecimal digit. -/
def hexValue? (c : Char) : Option Nat :=
  if '0' ≤ c ∧ c ≤ '9' then some (c.toNat - 48)
  else if 'a' ≤ c ∧ c ≤ 'f' then some (c.toNat - 87)
  else if 'A' ≤ c ∧ c ≤ 'F' then some (c.toNat - 55)
  else none

/-- A possible simple key: whether it is still possible, whether it is required, the number of
its first token, and where it starts. -/
structure SimpleKey where
  possible : Bool := false
  required : Bool := false
  number : Nat := 0
  mark : Mark := {}
  deriving Repr, Inhabited

/-- The deepest nesting of flow collections, and of block indentations. -/
def depthLimit : Nat := 10000

/-- The state of the scanner. -/
structure Scanner where
  input : Chars
  mark : Mark := {}
  /-- Every token produced; the parser has taken the first `taken`. -/
  tokens : Array Token := #[]
  taken : Nat := 0
  /-- The token at the front of the queue is ready for the parser. -/
  ready : Bool := false
  started : Bool := false
  /-- The parser took the end of the stream. -/
  ended : Bool := false
  flowLevel : Nat := 0
  indent : Int := -1
  indents : List Int := []
  /-- A simple key may start here. -/
  allowed : Bool := false
  /-- The possible simple keys, one per flow level, the innermost last. -/
  keys : Array SimpleKey := #[]
  /-- For the number of a token, the flow level of the possible key that starts with it. -/
  keyLevels : List (Nat × Nat) := []
  deriving Inhabited

namespace Scanner

/-- A bound on the steps of any loop over the characters. -/
def fuel (s : Scanner) : Nat := s.input.chars.size + 4

/-- The character `k` places after the current one. -/
def peekAt (s : Scanner) (k : Nat) : Char :=
  s.input.chars.getD (s.mark.index + k) (Char.ofNat 0)

/-- The current character. -/
def cur (s : Scanner) : Char := s.peekAt 0

/-- Asks for the `n` characters from the current one: past the characters that could be
decoded, this meets the fault of the input. -/
def need (s : Scanner) (n : Nat) : Except Fault Unit :=
  if s.mark.index + n ≤ s.input.chars.size then .ok ()
  else
    match s.input.fault with
    | some p => .error { stage := .reader, problem := p }
    | none => .ok ()

/-- A scanning fault at the current position, in the construct that starts at `context`. -/
def fail {α : Type} (s : Scanner) (context : Mark) (problem : String) : Except Fault α :=
  .error { stage := .scanner, problem, mark := s.mark, context }

/-- Moves past a character within a line. -/
def skip (s : Scanner) : Scanner :=
  { s with mark := { s.mark with index := s.mark.index + 1, column := s.mark.column + 1 } }

/-- Moves past `n` characters within a line. -/
def skipN (s : Scanner) : Nat → Scanner
  | 0 => s
  | n + 1 => (s.skipN n).skip

/-- The position at the start of the next line, `width` characters on. -/
def nextLine (m : Mark) (width : Nat) : Mark :=
  ⟨m.index + width, m.line + 1, 0⟩

/-- Moves past a line break; a carriage return and a line feed count as one. -/
def skipLine (s : Scanner) : Scanner :=
  if s.cur == '\r' && s.peekAt 1 == '\n' then { s with mark := nextLine s.mark 2 }
  else if isBreak s.cur then { s with mark := nextLine s.mark 1 }
  else s

/-- Appends the current character to `acc` and moves past it. -/
def read (s : Scanner) (acc : String) : String × Scanner :=
  (acc.push s.cur, s.skip)

/-- Reads a line break into `acc`: a carriage return, a line feed, both, or U+0085 as a line
feed, U+2028 and U+2029 as themselves. -/
def readLine (s : Scanner) (acc : String) : String × Scanner :=
  let c := s.cur
  if c == '\r' && s.peekAt 1 == '\n' then (acc.push '\n', { s with mark := nextLine s.mark 2 })
  else if c == '\r' || c == '\n' || c.toNat == 0x85 then
    (acc.push '\n', { s with mark := nextLine s.mark 1 })
  else if c.toNat == 0x2028 || c.toNat == 0x2029 then
    (acc.push c, { s with mark := nextLine s.mark 1 })
  else (acc, s)

/-- Appends a token. -/
def push (s : Scanner) (kind : TokenKind) (start stop : Mark) : Scanner :=
  { s with tokens := s.tokens.push ⟨kind, start, stop⟩ }

/-- Inserts a token so that it gets number `k`. -/
def insertAt (s : Scanner) (k : Nat) (t : Token) : Scanner :=
  { s with tokens := (s.tokens.extract 0 k).push t ++ s.tokens.extract k s.tokens.size }

/-- The flow level of the innermost possible key. -/
def top (s : Scanner) : Nat := s.keys.size - 1

/-- The possible key of a flow level. -/
def keyAt (s : Scanner) (i : Nat) : SimpleKey := s.keys.getD i {}

/-- Replaces the possible key of a flow level. -/
def setKey (s : Scanner) (i : Nat) (k : SimpleKey) : Scanner :=
  { s with keys := s.keys.set! i k }

/-- Forgets which key starts with token `n`. -/
def forgetToken (s : Scanner) (n : Nat) : Scanner :=
  { s with keyLevels := s.keyLevels.filter (·.1 != n) }

/-- Drops the innermost possible key; a required one cannot be dropped. -/
def removeKey (s : Scanner) : Except Fault Scanner :=
  let i := s.top
  let k := s.keyAt i
  if k.possible then
    if k.required then s.fail k.mark "could not find expected ':'"
    else .ok ((s.setKey i { k with possible := false }).forgetToken k.number)
  else .ok s

/-- Remembers a possible key here, when one may start here. It is required in the block
context at the column of the indentation. -/
def saveKey (s : Scanner) : Except Fault Scanner := do
  let required := s.flowLevel == 0 && s.indent == (s.mark.column : Int)
  if !s.allowed then return s
  let k : SimpleKey := { possible := true, required, number := s.tokens.size, mark := s.mark }
  let s ← s.removeKey
  let i := s.top
  let s := (s.setKey i k).forgetToken k.number
  return { s with keyLevels := (k.number, i) :: s.keyLevels }

/-- Whether the possible key of flow level `i` can still be a key: a key must end on the line
it starts and within 1024 characters. One that can no longer be is dropped, or is a fault when
required. -/
def keyValid (s : Scanner) (i : Nat) : Except Fault (Bool × Scanner) :=
  let k := s.keyAt i
  if !k.possible then .ok (false, s)
  else if k.mark.line < s.mark.line || k.mark.index + 1024 < s.mark.index then
    if k.required then s.fail k.mark "could not find expected ':'"
    else .ok (false, s.setKey i { k with possible := false })
  else .ok (true, s)

/-- Enters a flow collection, with no possible key yet. -/
def enterFlow (s : Scanner) : Except Fault Scanner :=
  let s := { s with keys := s.keys.push { mark := s.mark }, flowLevel := s.flowLevel + 1 }
  if s.flowLevel > depthLimit then
    .error { stage := .scanner, problem := "exceeded max depth of 10000", mark := s.mark,
             context := (s.keyAt s.top).mark }
  else .ok s

/-- Leaves a flow collection and its possible key. -/
def leaveFlow (s : Scanner) : Scanner :=
  if s.flowLevel > 0 then
    let s := s.forgetToken (s.keyAt s.top).number
    { s with flowLevel := s.flowLevel - 1, keys := s.keys.pop }
  else s

/-- In the block context, opens a block collection when `column` is right of the indentation:
the token goes to number `slot`, or last. -/
def rollIndent (s : Scanner) (column : Int) (slot : Option Nat) (kind : TokenKind) (m : Mark) :
    Except Fault Scanner :=
  if s.flowLevel > 0 || s.indent ≥ column then .ok s
  else
    let s := { s with indents := s.indent :: s.indents, indent := column }
    if s.indents.length > depthLimit then
      .error { stage := .scanner, problem := "exceeded max depth of 10000", mark := s.mark,
               context := (s.keyAt s.top).mark }
    else
      match slot with
      | some k => .ok (s.insertAt k ⟨kind, m, m⟩)
      | none => .ok (s.push kind m m)

/-- In the block context, closes the block collections right of `column`. -/
def unrollIndent (s : Scanner) (column : Int) : Scanner :=
  if s.flowLevel > 0 then s else go s.indents.length s
where
  /-- Closes one collection at a time. -/
  go : Nat → Scanner → Scanner
    | 0, s => s
    | fuel + 1, s =>
      if s.indent > column then
        let s := s.push .blockEnd s.mark s.mark
        go fuel { s with indent := s.indents.headD (-1), indents := s.indents.tail }
      else s

end Scanner

end BitTorrent.Yaml
