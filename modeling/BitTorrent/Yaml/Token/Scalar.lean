import BitTorrent.Yaml.Token.Tag

/-!
# Scanning scalars

A scalar is written plain, in single or double quotes, or as a literal `|` or folded `>` block.

In quoted and plain scalars, line breaks fold: a single break between two lines becomes a
space, and each further break (an empty line) is kept; blanks around breaks are dropped, while
blanks within a line are kept. In double quotes, backslash escapes stand for characters, and a
backslash before a break joins the lines without a space. In single quotes a doubled quote
stands for one. A quoted scalar may not contain a document marker at the start of a line, nor
run to the end of the stream.

A plain scalar ends before `: ` or ` #`, at a document marker, in a flow collection before one
of `,?[]{}`, and in the block context at a line less indented than its collection's content.
Tabs may not indent its continuation lines.

A block scalar takes the lines indented at least as far as its first non-empty line, or as far
as an explicit indentation digit says; `-` strips the final line break, `+` keeps the trailing
empty lines, and a folded scalar joins lines that are not indented further with a space.
-/

namespace BitTorrent.Yaml

namespace Scanner

/-- A document marker `---` or `...` at the start of a line, followed by a blank, a break or
the end. -/
def atDocumentMarker (s : Scanner) : Bool :=
  s.mark.column == 0 &&
    ((s.cur == '-' && s.peekAt 1 == '-' && s.peekAt 2 == '-') ||
      (s.cur == '.' && s.peekAt 1 == '.' && s.peekAt 2 == '.')) &&
    isBlankEnd (s.peekAt 3)

/-- The character a one-letter escape of a double-quoted scalar stands for. -/
def simpleEscape (c : Char) : Option Char :=
  match c with
  | '0' => some (Char.ofNat 0)
  | 'a' => some (Char.ofNat 7)
  | 'b' => some (Char.ofNat 8)
  | 't' => some '\t'
  | '\t' => some '\t'
  | 'n' => some '\n'
  | 'v' => some (Char.ofNat 11)
  | 'f' => some (Char.ofNat 12)
  | 'r' => some '\r'
  | 'e' => some (Char.ofNat 0x1B)
  | ' ' => some ' '
  | '"' => some '"'
  | '\'' => some '\''
  | '\\' => some '\\'
  | 'N' => some (Char.ofNat 0x85)
  | '_' => some (Char.ofNat 0xA0)
  | 'L' => some (Char.ofNat 0x2028)
  | 'P' => some (Char.ofNat 0x2029)
  | _ => none

/-- The number of hexadecimal digits after `\x`, `\u` and `\U`. -/
def escapeLength (c : Char) : Nat :=
  if c == 'x' then 2 else if c == 'u' then 4 else if c == 'U' then 8 else 0

/-- The value of `n` hexadecimal digits from the current character. -/
def hexDigits (s : Scanner) (n : Nat) : Option Nat :=
  (List.range n).foldl (fun acc k => acc.bind fun v => (hexValue? (s.peekAt k)).map (v * 16 + ·))
    (some 0)

/-- An escape sequence of a double-quoted scalar after its backslash. -/
def escape (s : Scanner) (start : Mark) : Except Fault (Char × Scanner) := do
  let e := s.peekAt 1
  let len := escapeLength e
  if len == 0 then
    match simpleEscape e with
    | some c => .ok (c, s.skipN 2)
    | none => s.fail start "found unknown escape character"
  else
    let s := s.skipN 2
    s.need len
    match s.hexDigits len with
    | none => s.fail start "did not find expected hexdecimal number"
    | some v =>
      if (0xD800 ≤ v && v ≤ 0xDFFF) || v > 0x10FFFF then
        s.fail start "found invalid Unicode character escape code"
      else .ok (Char.ofNat v, s.skipN len)

/-- Reads the non-blank characters of a quoted scalar onto `acc`, up to a blank, a break, the
closing quote or an escaped break: the text, whether an escaped break ended the run, and the
scanner. -/
def quotedRun (single : Bool) (start : Mark) : Nat → Scanner → String →
    Except Fault (String × Bool × Scanner)
  | 0, s, acc => .ok (acc, false, s)
  | fuel + 1, s, acc => do
    let c := s.cur
    if isBlankEnd c then .ok (acc, false, s)
    else if single && c == '\'' && s.peekAt 1 == '\'' then
      let s := s.skipN 2
      s.need 2
      quotedRun single start fuel s (acc.push '\'')
    else if single && c == '\'' then .ok (acc, false, s)
    else if !single && c == '"' then .ok (acc, false, s)
    else if !single && c == '\\' && isBreak (s.peekAt 1) then do
      s.need 3
      .ok (acc, true, s.skip.skipLine)
    else if !single && c == '\\' then do
      let (r, s) ← s.escape start
      s.need 2
      quotedRun single start fuel s (acc.push r)
    else
      let (acc, s) := s.read acc
      s.need 2
      quotedRun single start fuel s acc

/-- The blanks and breaks between runs of a scalar: the blanks before the first break, the
first break, the breaks after it, and whether a break (or an escaped break) was met. -/
structure Gap where
  spaces : String := ""
  first : String := ""
  more : String := ""
  broken : Bool := false

/-- The text a gap adds between two runs of a quoted or plain scalar: a first line feed folds
into a space when no empty line follows, and into the empty lines otherwise; other breaks are
kept; blanks within a line are kept. -/
def Gap.fold (g : Gap) : String :=
  if g.broken then
    if g.first.startsWith "\n" then (if g.more.isEmpty then " " else g.more) else g.first ++ g.more
  else g.spaces

/-- Reads blanks and breaks onto a gap. For a plain scalar (`plain` holds its indentation and
start), a tab that indents a continuation line left of the indentation is a fault. -/
def gap (plain : Option (Int × Mark)) : Nat → Scanner → Gap → Except Fault (Gap × Scanner)
  | 0, s, g => .ok (g, s)
  | fuel + 1, s, g => do
    let c := s.cur
    if isBlank c then
      if let some (ind, start) := plain then
        if g.broken && (s.mark.column : Int) < ind && c == '\t' then
          s.fail start "found a tab character that violates indentation"
      let (g, s) := if g.broken then (g, s.skip) else
        let (sp, s) := s.read g.spaces
        ({ g with spaces := sp }, s)
      s.need 1
      gap plain fuel s g
    else if isBreak c then do
      s.need 2
      let (g, s) := if g.broken then
          let (m, s) := s.readLine g.more
          ({ g with more := m }, s)
        else
          let (f, s) := s.readLine ""
          ({ g with spaces := "", first := f, broken := true }, s)
      s.need 1
      gap plain fuel s g
    else .ok (g, s)

/-- Reads a quoted scalar after its opening quote, run after run. -/
def quotedBody (single : Bool) (start : Mark) : Nat → Scanner → String →
    Except Fault (String × Scanner)
  | 0, s, acc => .ok (acc, s)
  | fuel + 1, s, acc => do
    s.need 4
    if s.atDocumentMarker then s.fail start "found unexpected document indicator"
    else if isEnd s.cur then s.fail start "found unexpected end of stream"
    else
      let (acc, escapedBreak, s) ← quotedRun single start s.fuel s acc
      s.need 1
      if s.cur == (if single then '\'' else '"') then return (acc, s)
      let (g, s) ← gap none s.fuel s { broken := escapedBreak }
      quotedBody single start fuel s (acc ++ g.fold)

/-- A single- or double-quoted scalar: its token. -/
def scanQuoted (s : Scanner) (single : Bool) : Except Fault (Token × Scanner) := do
  let start := s.mark
  let (text, s) ← quotedBody single start s.fuel s.skip ""
  let s := s.skip
  return (⟨.scalar text (if single then .singleQuoted else .doubleQuoted), start, s.mark⟩, s)

/-- A character that ends a run of a plain scalar: `:` before a blank or the end, or in a flow
collection one of `,?[]{}`. -/
def plainStop (s : Scanner) : Bool :=
  (s.cur == ':' && isBlankEnd (s.peekAt 1)) ||
    (s.flowLevel > 0 && ",?[]{}".contains s.cur)

/-- The state of a plain scalar being read: its text, the gap after the last run, and where
its last character ends. -/
structure Plain where
  text : String := ""
  gap : Gap := {}
  stop : Mark := {}

/-- Reads a run of a plain scalar, joining the gap before it when it is not empty. -/
def plainRun : Nat → Scanner → Plain → Except Fault (Plain × Scanner)
  | 0, s, p => .ok (p, s)
  | fuel + 1, s, p => do
    if isBlankEnd s.cur || s.plainStop then .ok (p, s)
    else
      let p := if p.gap.broken || !p.gap.spaces.isEmpty then
          { p with text := p.text ++ p.gap.fold, gap := {} } else p
      let (text, s) := s.read p.text
      s.need 2
      plainRun fuel s { p with text, stop := s.mark }

/-- Reads a plain scalar, line after line while the lines stay right of `indent`. -/
def plainBody (indent : Int) (start : Mark) : Nat → Scanner → Plain → Except Fault (Plain × Scanner)
  | 0, s, p => .ok (p, s)
  | fuel + 1, s, p => do
    s.need 4
    if s.atDocumentMarker || s.cur == '#' then return (p, s)
    let (p, s) ← plainRun s.fuel s p
    if !(isBlank s.cur || isBreak s.cur) then return (p, s)
    s.need 1
    let (g, s) ← gap (some (indent, start)) s.fuel s p.gap
    let p := { p with gap := g }
    if s.flowLevel == 0 && (s.mark.column : Int) < indent then return (p, s)
    plainBody indent start fuel s p

/-- A plain scalar: its token. A scalar that ran over a line break lets a simple key start
after it. -/
def scanPlain (s : Scanner) : Except Fault (Token × Scanner) := do
  let start := s.mark
  let (p, s) ← plainBody (s.indent + 1) start s.fuel s { stop := start }
  let s := if p.gap.broken then { s with allowed := true } else s
  return (⟨.scalar p.text .plain, start, p.stop⟩, s)

/-- Skips the spaces that indent a line of a block scalar: all of them while the indentation
is not yet known (zero), else those left of it. -/
def skipIndent (indent : Nat) : Nat → Scanner → Except Fault Scanner
  | 0, s => .ok s
  | fuel + 1, s =>
    if (indent == 0 || s.mark.column < indent) && s.cur == ' ' then do
      let s := s.skip
      s.need 1
      skipIndent indent fuel s
    else .ok s

/-- The indentation and breaks before a line of a block scalar: spaces up to the indentation
are skipped, and empty lines read as breaks onto `breaks`. An indentation of zero is not yet
known: it becomes the deepest indentation of those empty lines, at least one more than the
enclosing indentation and at least one. The answer also holds where the breaks end. -/
def blockBreaks (s : Scanner) (indent : Nat) (breaks : String) (start : Mark) :
    Except Fault (Nat × String × Mark × Scanner) :=
  go s.fuel 0 breaks s.mark s
where
  /-- The indentation once the lines are read. -/
  finish (deepest : Nat) (breaks : String) (stop : Mark) (s : Scanner) :
      Nat × String × Mark × Scanner :=
    if indent != 0 then (indent, breaks, stop, s)
    else (max (max deepest (s.indent + 1).toNat) 1, breaks, stop, s)
  /-- Reads the lines one by one, keeping the deepest indentation met. -/
  go : Nat → Nat → String → Mark → Scanner → Except Fault (Nat × String × Mark × Scanner)
    | 0, deepest, breaks, stop, s => .ok (finish deepest breaks stop s)
    | fuel + 1, deepest, breaks, stop, s => do
      s.need 1
      let s ← skipIndent indent s.fuel s
      let deepest := max deepest s.mark.column
      if (indent == 0 || s.mark.column < indent) && s.cur == '\t' then
        s.fail start "found a tab character where an indentation space is expected"
      else if !isBreak s.cur then .ok (finish deepest breaks stop s)
      else do
        s.need 2
        let (breaks, s) := s.readLine breaks
        go fuel deepest breaks s.mark s

/-- Reads the rest of a line of a block scalar onto `acc`. -/
def lineRest : Nat → Scanner → String → Except Fault (String × Scanner)
  | 0, s, acc => .ok (acc, s)
  | fuel + 1, s, acc =>
    if isBreakEnd s.cur then .ok (acc, s)
    else do
      let (acc, s) := s.read acc
      s.need 1
      lineRest fuel s acc

/-- The content of a block scalar being read: its text, the break that ended the last line,
the empty lines after it, whether the last line started with a blank, and where the breaks
end. -/
structure Block where
  text : String := ""
  leading : String := ""
  trailing : String := ""
  leadingBlank : Bool := false
  stop : Mark := {}

/-- Reads the lines of a block scalar at indentation `indent`. A folded scalar joins a line to
the one before with a space when neither starts with a blank and no empty line is between. -/
def blockLines (literal : Bool) (indent : Nat) (start : Mark) : Nat → Scanner → Block →
    Except Fault (Block × Scanner)
  | 0, s, b => .ok (b, s)
  | fuel + 1, s, b => do
    if !(s.mark.column == indent && !isEnd s.cur) then return (b, s)
    let trailingBlank := isBlank s.cur
    let text :=
      if !literal && !b.leadingBlank && !trailingBlank && b.leading.startsWith "\n" then
        if b.trailing.isEmpty then b.text.push ' ' else b.text
      else b.text ++ b.leading
    let text := text ++ b.trailing
    let leadingBlank := isBlank s.cur
    let (text, s) ← lineRest s.fuel s text
    s.need 2
    let (leading, s) := s.readLine ""
    let (_, trailing, stop, s) ← s.blockBreaks indent "" start
    blockLines literal indent start fuel s { text, leading, trailing, leadingBlank, stop }

/-- The indicators after `|` or `>`: the chomping, `-1` for `-`, `1` for `+` and `0` when
absent, and the indentation digit, `0` when absent; they come in either order. -/
def blockIndicators (s : Scanner) (start : Mark) : Except Fault (Int × Nat × Scanner) := do
  s.need 1
  let chomp (c : Char) : Int := if c == '+' then 1 else -1
  if s.cur == '+' || s.cur == '-' then
    let ch := chomp s.cur
    let s := s.skip
    s.need 1
    if isDigitChar s.cur then
      if s.cur == '0' then s.fail start "found an indentation indicator equal to 0"
      else return (ch, s.cur.toNat - 48, s.skip)
    else return (ch, 0, s)
  else if isDigitChar s.cur then
    if s.cur == '0' then s.fail start "found an indentation indicator equal to 0"
    else
      let inc := s.cur.toNat - 48
      let s := s.skip
      s.need 1
      if s.cur == '+' || s.cur == '-' then return (chomp s.cur, inc, s.skip)
      else return (0, inc, s)
  else return (0, 0, s)

/-- A literal or folded block scalar: its token. -/
def scanBlock (s : Scanner) (literal : Bool) : Except Fault (Token × Scanner) := do
  let start := s.mark
  let (chomping, increment, s) ← s.skip.blockIndicators start
  let s ← s.skipBlanks
  let s ← s.skipComment
  if !isBreakEnd s.cur then s.fail start "did not find expected comment or line break"
  else
    let s ← if isBreak s.cur then do s.need 2; pure s.skipLine else pure s
    let indent : Nat :=
      if increment > 0 then (if s.indent ≥ 0 then s.indent.toNat + increment else increment)
      else 0
    let (indent, trailing, stop, s) ← s.blockBreaks indent "" start
    s.need 1
    let (b, s) ← blockLines literal indent start s.fuel s { trailing, stop }
    let text := if chomping != -1 then b.text ++ b.leading else b.text
    let text := if chomping == 1 then text ++ b.trailing else text
    return (⟨.scalar text (if literal then .literal else .folded), start, b.stop⟩, s)

end Scanner

end BitTorrent.Yaml
