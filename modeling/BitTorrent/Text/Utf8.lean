/-!
# UTF-8 decoding of byte strings

Names inside torrent files are byte strings that need not be valid UTF-8. They are read rune by
rune: a well-formed sequence is a character, and any byte that does not start one is a stray
byte on its own, so every byte string reads as a list of runes. Shown as text, a stray byte
becomes the replacement character U+FFFD.
-/

namespace BitTorrent.Utf8

/-- One step of decoding: a character, or a byte that starts no well-formed sequence. -/
inductive Rune where
  | char (c : Char)
  | stray (b : UInt8)
  deriving DecidableEq, Repr

/-- A continuation byte within the given bounds. -/
def within (b : UInt8) (lo hi : UInt8) : Bool :=
  lo ≤ b && b ≤ hi

/-- The character with a code point, where it is one. -/
def charOf? (n : Nat) : Option Char :=
  if n.isValidChar then some (Char.ofNat n) else none

/-- Decodes the rune that starts with byte `b0`, followed by `rest`: the rune and how many bytes
of `rest` it takes. -/
def lead (b0 : UInt8) (rest : List UInt8) : Rune × Nat :=
  let bad : Rune × Nat := (.stray b0, 0)
  let cont (b : UInt8) : Nat := (b &&& 0x3f).toNat
  let accept (n k : Nat) : Rune × Nat :=
    match charOf? n with
    | some c => (.char c, k)
    | none => bad
  if b0 < 0x80 then (.char (Char.ofNat b0.toNat), 0)
  else if within b0 0xc2 0xdf then
    match rest with
    | b1 :: _ =>
      if within b1 0x80 0xbf then accept ((b0 &&& 0x1f).toNat * 64 + cont b1) 1 else bad
    | _ => bad
  else if within b0 0xe0 0xef then
    let lo : UInt8 := if b0 == 0xe0 then 0xa0 else 0x80
    let hi : UInt8 := if b0 == 0xed then 0x9f else 0xbf
    match rest with
    | b1 :: b2 :: _ =>
      if within b1 lo hi && within b2 0x80 0xbf then
        accept (((b0 &&& 0x0f).toNat * 64 + cont b1) * 64 + cont b2) 2
      else bad
    | _ => bad
  else if within b0 0xf0 0xf4 then
    let lo : UInt8 := if b0 == 0xf0 then 0x90 else 0x80
    let hi : UInt8 := if b0 == 0xf4 then 0x8f else 0xbf
    match rest with
    | b1 :: b2 :: b3 :: _ =>
      if within b1 lo hi && within b2 0x80 0xbf && within b3 0x80 0xbf then
        accept ((((b0 &&& 0x07).toNat * 64 + cont b1) * 64 + cont b2) * 64 + cont b3) 3
      else bad
    | _ => bad
  else bad

/-- The runes of a byte list, in order. -/
def runes : List UInt8 → List Rune
  | [] => []
  | b0 :: rest =>
    let (r, k) := lead b0 rest
    r :: runes (rest.drop k)
termination_by bs => bs.length
decreasing_by simp only [List.length_drop, List.length_cons]; omega

/-- The text of a byte list, each stray byte shown as U+FFFD. -/
def lossy (bs : List UInt8) : String :=
  String.ofList ((runes bs).map fun
    | .char c => c
    | .stray _ => '�')

end BitTorrent.Utf8
