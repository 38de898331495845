import BitTorrent.Text.Quote

/-!
# Decimal numerals

Reading a decimal numeral into a bounded integer. An unsigned numeral is digits only; a signed
one may start with one `+` or `-`. The digits are read left to right and the first fault wins:
a byte that is no digit makes the text invalid, and a value that leaves the 64-bit range, or
ends above the bound of the target width, makes it out of range. The error names the whole
text and whether it was read as signed.
-/

namespace BitTorrent

/-- Why a numeral was rejected. -/
inductive NumeralFault where
  /-- The text is empty or holds a byte that is no digit. -/
  | invalid
  /-- The value does not fit the target width. -/
  | range
  deriving DecidableEq, Repr

/-- A rejected numeral: whether it was read as signed, the whole text, and why. -/
structure NumeralError where
  signed : Bool
  text : List UInt8
  fault : NumeralFault
  deriving DecidableEq, Repr

namespace NumeralError

/-- The text a rejected numeral is reported with. -/
def message (e : NumeralError) : String :=
  "strconv." ++ (if e.signed then "ParseInt" else "ParseUint") ++ ": parsing " ++
    Quote.bytes e.text ++ ": " ++
    (match e.fault with
     | .invalid => "invalid syntax"
     | .range => "value out of range")

end NumeralError

namespace Decimal

/-- Values at or above this bound overflow 64 bits when multiplied by ten. -/
def cutoff : Nat := (Nat.pow 2 64 - 1) / 10 + 1

/-- The value of a digit byte. -/
def digit? (b : UInt8) : Option Nat :=
  if 48 ≤ b ∧ b ≤ 57 then some (b.toNat - 48) else none

/-- Reads the digits after the value `n` read so far, with the largest allowed value `max`:
the value, or the first fault met from the left. -/
def digits (max : Nat) : Nat → List UInt8 → Except NumeralFault Nat
  | n, [] => .ok n
  | n, b :: bs =>
    match digit? b with
    | none => .error .invalid
    | some d =>
      if n ≥ cutoff then .error .range
      else if n * 10 + d > max then .error .range
      else digits max (n * 10 + d) bs

/-- Reads an unsigned numeral of at most `bits` bits. -/
def readUnsigned (bits : Nat) (s : List UInt8) : Except NumeralError Nat :=
  if s.isEmpty then .error ⟨false, s, .invalid⟩
  else match digits (Nat.pow 2 bits - 1) 0 s with
    | .ok n => .ok n
    | .error f => .error ⟨false, s, f⟩

/-- Reads a signed numeral of at most `bits` bits, two's complement. -/
def readSigned (bits : Nat) (s : List UInt8) : Except NumeralError Int :=
  let (neg, body) := match s with
    | 43 :: rest => (false, rest)
    | 45 :: rest => (true, rest)
    | _ => (false, s)
  if s.isEmpty then .error ⟨true, s, .invalid⟩
  else
    let bound := Nat.pow 2 (bits - 1)
    match (readUnsigned bits body : Except NumeralError Nat) with
    | .error ⟨_, _, .invalid⟩ => .error ⟨true, s, .invalid⟩
    | .error ⟨_, _, .range⟩ => .error ⟨true, s, .range⟩
    | .ok n =>
      if !neg && n ≥ bound then .error ⟨true, s, .range⟩
      else if neg && n > bound then .error ⟨true, s, .range⟩
      else .ok (if neg then -(n : Int) else n)

/-- The decimal digits of a natural number, most significant first. -/
def numeral (n : Nat) : List UInt8 :=
  (toString n).toList.map fun c => c.toNat.toUInt8

/-- The decimal text of an integer, with a minus sign when negative. -/
def intNumeral (n : Int) : List UInt8 :=
  if n < 0 then 45 :: numeral n.natAbs else numeral n.toNat

end Decimal

end BitTorrent
