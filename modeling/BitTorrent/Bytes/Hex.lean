/-!
# Hexadecimal text of byte strings

Bytes are written as two lowercase digits each, high half first, and read back from digits of
either case. Main statement: reading the text of a byte string gives the byte string back.
-/

namespace BitTorrent.Hex

/-- The lowercase digit of a value below sixteen. -/
def digit (n : Nat) : Char :=
  if n < 10 then Char.ofNat (48 + n) else Char.ofNat (87 + n)

/-- The two digits of one byte, high half first. -/
def pair (b : UInt8) : List Char :=
  [digit (b.toNat / 16), digit (b.toNat % 16)]

/-- The text of a byte list. -/
def ofList (bs : List UInt8) : String :=
  String.ofList (bs.flatMap pair)

/-- The text of a byte array. -/
def encode (bs : ByteArray) : String :=
  ofList bs.toList

/-- The value of a digit of either case. -/
def value? (c : Char) : Option Nat :=
  if '0' ≤ c ∧ c ≤ '9' then some (c.toNat - 48)
  else if 'a' ≤ c ∧ c ≤ 'f' then some (c.toNat - 87)
  else if 'A' ≤ c ∧ c ≤ 'F' then some (c.toNat - 55)
  else none

/-- Reads pairs of digits; an odd digit count or a stray character is refused. -/
def decodeChars : List Char → Option (List UInt8)
  | [] => some []
  | [_] => none
  | h :: l :: rest => do
    let a ← value? h
    let b ← value? l
    let tail ← decodeChars rest
    pure ((16 * a + b).toUInt8 :: tail)

/-- The bytes a hex text stands for. -/
def toList? (s : String) : Option (List UInt8) :=
  decodeChars s.toList

/-- The bytes a hex text stands for, as an array. -/
def decode? (s : String) : Option ByteArray :=
  (toList? s).map List.toByteArray

theorem value?_digit {n : Nat} (h : n < 16) : value? (digit n) = some n := by
  rcases n with _ | _ | _ | _ | _ | _ | _ | _ | _ | _ | _ | _ | _ | _ | _ | _ | n
  all_goals first | rfl | omega

theorem decodeChars_flatMap_pair (bs : List UInt8) :
    decodeChars (bs.flatMap pair) = some bs := by
  induction bs with
  | nil => rfl
  | cons b rest ih =>
    have hb := b.toNat_lt
    have h1 : b.toNat / 16 < 16 := by omega
    have h2 : b.toNat % 16 < 16 := Nat.mod_lt _ (by decide)
    simp only [pair, List.flatMap_cons, List.cons_append, List.nil_append, decodeChars,
      value?_digit h1, value?_digit h2, ih, Option.bind_eq_bind, Option.bind_some]
    rw [show 16 * (b.toNat / 16) + b.toNat % 16 = b.toNat by omega]
    simp

/-- Reading the text of a byte list gives the list back. -/
theorem toList?_ofList (bs : List UInt8) : toList? (ofList bs) = some bs := by
  simp [toList?, ofList, decodeChars_flatMap_pair]

end BitTorrent.Hex
