import BitTorrent.Text.Binary64

/-!
# Numerals with base prefixes and digit separators

An integer numeral is read in a given base from 2 to 36, or with its base taken from a prefix:
`0b` or `0B` for binary, `0o` or `0O` for octal, `0x` or `0X` for hexadecimal, a leading `0`
for octal, and decimal otherwise. A prefix counts only when a digit follows it, so `0x` alone
is an octal numeral with a bad digit. Digits past 9 are letters of either case. With a prefix
read, underscores may separate digits: each must stand between two digits, or between the
prefix and a digit. Unsigned numerals are below `2 ^ 64`; signed ones, with an optional sign,
lie from `-2 ^ 63` to `2 ^ 63 - 1`.

A decimal float numeral is an optional sign, digits with at most one point, and an optional
exponent `e` or `E` with an optional sign and digits. Underscores may stand among the digits
of both parts under the same rule. Its value is rounded to the nearest double; a numeral too
large for a double is rejected.
-/

namespace BitTorrent.Numeral

/-- The value of a digit character: `0` to `9`, then letters of either case from 10 on. -/
def digitValue (c : Char) : Option Nat :=
  if '0' ≤ c ∧ c ≤ '9' then some (c.toNat - 48)
  else if 'a' ≤ c ∧ c ≤ 'z' then some (c.toNat - 87)
  else if 'A' ≤ c ∧ c ≤ 'Z' then some (c.toNat - 55)
  else none

/-- A letter folded to lower case. -/
def lower (c : Char) : Char := if 'A' ≤ c ∧ c ≤ 'Z' then Char.ofNat (c.toNat + 32) else c

/-- What came last when checking separators: the start, a digit (or base prefix), an
underscore, or anything else. -/
inductive Seen where
  | start
  | digit
  | underscore
  | other
  deriving DecidableEq

/-- Checks the separators after a prefix: each underscore follows a digit and is followed by
one. `hex` lets the letters `a` to `f` count as digits. -/
def separatorsFrom (hex : Bool) : Seen → List Char → Bool
  | seen, [] => seen != .underscore
  | seen, c :: rest =>
    if ('0' ≤ c ∧ c ≤ '9') || (hex && 'a' ≤ lower c && lower c ≤ 'f') then
      separatorsFrom hex .digit rest
    else if c == '_' then seen == .digit && separatorsFrom hex .underscore rest
    else seen != .underscore && separatorsFrom hex .other rest

/-- Whether the underscores of a numeral stand only between digits, or between a base prefix
and a digit. -/
def separatorsOk (cs : List Char) : Bool :=
  let cs := match cs with
    | '-' :: rest | '+' :: rest => rest
    | _ => cs
  match cs with
  | '0' :: b :: rest =>
    if lower b == 'b' || lower b == 'o' || lower b == 'x' then
      separatorsFrom (lower b == 'x') .digit rest
    else separatorsFrom false .start cs
  | _ => separatorsFrom false .start cs

/-- The base given by a prefix and the digits after it. -/
def basePrefix (cs : List Char) : Nat × List Char :=
  match cs with
  | '0' :: b :: c :: rest =>
    if lower b == 'b' then (2, c :: rest)
    else if lower b == 'o' then (8, c :: rest)
    else if lower b == 'x' then (16, c :: rest)
    else (8, b :: c :: rest)
  | '0' :: rest => (8, rest)
  | _ => (10, cs)

/-- The digits of a numeral in a base, skipping underscores when `separators` is set. -/
def digitsIn (base : Nat) (separators : Bool) : Nat → List Char → Option Nat
  | n, [] => some n
  | n, c :: rest =>
    if separators && c == '_' then digitsIn base separators n rest
    else
      match digitValue c with
      | some d => if d < base then digitsIn base separators (n * base + d) rest else none
      | none => none

/-- An unsigned numeral in `base`, or with its base from its prefix when `base` is zero; below
`2 ^ 64`. -/
def readUnsigned (base : Nat) (cs : List Char) : Option Nat :=
  if cs.isEmpty then none
  else
    let (b, ds) := if base == 0 then basePrefix cs else (base, cs)
    match digitsIn b (base == 0) 0 ds with
    | some n =>
      if n ≥ Nat.pow 2 64 then none
      else if base == 0 && cs.contains '_' && !separatorsOk cs then none
      else some n
    | none => none

/-- A signed numeral in `base`, or with its base from its prefix when `base` is zero; within
the signed 64-bit range. -/
def readSigned (base : Nat) (cs : List Char) : Option Int :=
  if cs.isEmpty then none
  else
    let (neg, body) := match cs with
      | '+' :: rest => (false, rest)
      | '-' :: rest => (true, rest)
      | _ => (false, cs)
    (readUnsigned base body).bind fun n =>
      if !neg && n ≥ Nat.pow 2 63 then none
      else if neg && n > Nat.pow 2 63 then none
      else some (if neg then -(n : Int) else n)

/-- The mantissa of a float numeral: its digits as a number, how many came after the point, and
the rest. Underscores are passed over and a second point ends the mantissa. -/
def mantissa : List Char → Nat → Nat → Bool → Bool → Option (Nat × Nat × List Char)
  | [], n, k, _, digits => if digits then some (n, k, []) else none
  | c :: rest, n, k, dot, digits =>
    if c == '_' then mantissa rest n k dot digits
    else if c == '.' && !dot then mantissa rest n k true digits
    else if '0' ≤ c ∧ c ≤ '9' then
      mantissa rest (n * 10 + (c.toNat - 48)) (if dot then k + 1 else k) dot true
    else if digits then some (n, k, c :: rest) else none

/-- The exponent of a float numeral after its `e`: an optional sign, then digits, the first
not an underscore. The whole text must be used. -/
def exponent (cs : List Char) : Option Int :=
  let (neg, ds) := match cs with
    | '+' :: rest => (false, rest)
    | '-' :: rest => (true, rest)
    | _ => (false, cs)
  match ds with
  | d :: _ =>
    if '0' ≤ d ∧ d ≤ '9' then
      (digitsIn 10 true 0 ds).map fun v => if neg then -(v : Int) else v
    else none
  | [] => none

/-- A decimal float numeral, rounded to the nearest double. -/
def readFloat (cs : List Char) : Option Binary64 :=
  let (neg, body) := match cs with
    | '+' :: rest => (false, rest)
    | '-' :: rest => (true, rest)
    | _ => (false, cs)
  if cs.contains '_' && !separatorsOk cs then none
  else
    match mantissa body 0 0 false false with
    | none => none
    | some (n, k, rest) =>
      let e : Option Int := match rest with
        | [] => some 0
        | c :: more => if c == 'e' || c == 'E' then exponent more else none
      e.bind fun e => Binary64.ofDecimal neg n (e - k)

end BitTorrent.Numeral
