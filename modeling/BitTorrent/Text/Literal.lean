import BitTorrent.Text.Decimal

/-!
# Integer and truth literals

Values given on a command line are read as literals. An integer is an optional sign, then
either `0b`, `0o` or `0x` (in either case) and digits of that base, or a leading `0` and octal
digits, or decimal digits; underscores may stand between digits, and between a base prefix and
the first digit. Its value must fit in 64 bits, two's complement. Digits are read left to right
and the first digit that makes the value too large is reported as a range fault even when a
bad character follows it.

A truth value is one of `1 t T TRUE true True` or `0 f F FALSE false False`.
-/

namespace BitTorrent.Literal

/-- An ASCII letter in lower case. -/
def lower (c : Char) : Char :=
  if 'A' ≤ c && c ≤ 'Z' then Char.ofNat (c.toNat + 32) else c

/-- The value of a digit or letter, letters counting from ten. -/
def digitValue (c : Char) : Option Nat :=
  if '0' ≤ c && c ≤ '9' then some (c.toNat - 48)
  else if 'a' ≤ lower c && lower c ≤ 'z' then some ((lower c).toNat - 87)
  else none

/-- What was seen last while checking underscores: the start, a digit, an underscore, or
anything else. -/
inductive Seen where
  | start
  | digit
  | underscore
  | other
  deriving DecidableEq

/-- Checks that every underscore from `cs` on follows a digit and is followed by one. -/
def underscoresFrom (hex : Bool) : Seen → List Char → Bool
  | seen, [] => seen != .underscore
  | seen, c :: cs =>
    if ('0' ≤ c && c ≤ '9') || (hex && 'a' ≤ lower c && lower c ≤ 'f') then
      underscoresFrom hex .digit cs
    else if c == '_' then
      seen == .digit && underscoresFrom hex .underscore cs
    else seen != .underscore && underscoresFrom hex .other cs

/-- Underscores in a literal stand between digits; a base prefix counts as a digit. -/
def underscoresFit (cs : List Char) : Bool :=
  let cs := match cs with
    | '+' :: rest | '-' :: rest => rest
    | _ => cs
  match cs with
  | '0' :: b :: rest =>
    if lower b == 'b' || lower b == 'o' || lower b == 'x' then
      underscoresFrom (lower b == 'x') .digit rest
    else underscoresFrom false .start cs
  | _ => underscoresFrom false .start cs

/-- Reads the digits of base `base` after the value `n`, skipping underscores, with the
largest allowed value `max`; whether an underscore was seen is kept in `under`. -/
def digitsIn (base max : Nat) : Nat → Bool → List Char → Except NumeralFault (Nat × Bool)
  | n, under, [] => .ok (n, under)
  | n, under, c :: cs =>
    if c == '_' then digitsIn base max n true cs
    else match digitValue c with
      | none => .error .invalid
      | some d =>
        if d ≥ base then .error .invalid
        else if n * base + d > max then .error .range
        else digitsIn base max (n * base + d) under cs

/-- Reads an unsigned literal without a sign: the base is taken from its prefix. -/
def readUnsigned (cs : List Char) : Except NumeralFault Nat := do
  if cs.isEmpty then throw .invalid
  let (base, digits) := match cs with
    | '0' :: b :: d :: rest =>
      if lower b == 'b' then (2, d :: rest)
      else if lower b == 'o' then (8, d :: rest)
      else if lower b == 'x' then (16, d :: rest)
      else (8, b :: d :: rest)
    | '0' :: rest => (8, rest)
    | _ => (10, cs)
  let (n, under) ← digitsIn base (Nat.pow 2 64 - 1) 0 false digits
  if under && !underscoresFit cs then throw .invalid
  return n

/-- Reads a signed 64-bit integer literal. -/
def readInt (s : String) : Except NumeralFault Int := do
  let cs := s.toList
  if cs.isEmpty then throw .invalid
  let (neg, body) := match cs with
    | '+' :: rest => (false, rest)
    | '-' :: rest => (true, rest)
    | _ => (false, cs)
  let n ← match readUnsigned body with
    | .ok n => pure n
    | .error .range => pure (Nat.pow 2 64)
    | .error e => throw e
  if !neg && n ≥ Nat.pow 2 63 then throw .range
  if neg && n > Nat.pow 2 63 then throw .range
  return if neg then -(n : Int) else n

/-- Reads a truth value. -/
def readBool (s : String) : Option Bool :=
  match s with
  | "1" | "t" | "T" | "TRUE" | "true" | "True" => some true
  | "0" | "f" | "F" | "FALSE" | "false" | "False" => some false
  | _ => none

end BitTorrent.Literal
