/-!
# Base64 with padding

Text in the standard base64 alphabet (`A`–`Z`, `a`–`z`, `0`–`9`, `+`, `/`) is read four
characters at a time, each group giving three bytes. Line breaks (carriage returns and line
feeds) may stand anywhere and are passed over. The last group may end in `==` after two
characters, giving one byte, or in `=` after three, giving two; nothing but line breaks may
follow the padding. Any other character, a group cut short without padding, or padding in the
wrong place makes the text invalid. Bits left over in a padded group are not checked.
-/

namespace BitTorrent.Base64

/-- The value of a character of the alphabet. -/
def sextet (b : UInt8) : Option Nat :=
  let n := b.toNat
  if 65 ≤ n ∧ n ≤ 90 then some (n - 65)
  else if 97 ≤ n ∧ n ≤ 122 then some (n - 71)
  else if 48 ≤ n ∧ n ≤ 57 then some (n + 4)
  else if n == 43 then some 62
  else if n == 47 then some 63
  else none

/-- The three bytes of four sextets. -/
def bytesOf (a b c d : Nat) : List UInt8 :=
  let v := ((a * 64 + b) * 64 + c) * 64 + d
  [(v / 65536 % 256).toUInt8, (v / 256 % 256).toUInt8, (v % 256).toUInt8]

/-- Decodes characters with the line breaks already removed, appending to `acc` (last byte
first). -/
def groups : List UInt8 → List UInt8 → Option (List UInt8)
  | [], acc => some acc.reverse
  | a :: b :: c :: d :: rest, acc =>
    match sextet a, sextet b with
    | some x, some y =>
      if c == 61 then
        if d == 61 && rest.isEmpty then some (acc.reverse ++ (bytesOf x y 0 0).take 1)
        else none
      else
        match sextet c with
        | some z =>
          if d == 61 then
            if rest.isEmpty then some (acc.reverse ++ (bytesOf x y z 0).take 2)
            else none
          else
            match sextet d with
            | some w => groups rest ((bytesOf x y z w).reverse ++ acc)
            | none => none
        | none => none
    | _, _ => none
  | _, _ => none

/-- The bytes of base64 text, or none when it is not valid. -/
def decode (s : List UInt8) : Option (List UInt8) :=
  groups (s.filter fun b => b != 10 && b != 13) []

end BitTorrent.Base64
