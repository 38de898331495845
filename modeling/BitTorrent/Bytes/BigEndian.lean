/-!
# Big-endian words

Words on the wire are written most significant byte first. Main statement: reading the four bytes
of a word, in front of any rest, gives the word and that rest back.
-/

namespace BitTorrent.BigEndian

/-- The `k`-th byte of a number counted from the least significant end. -/
def byteAt (n k : Nat) : UInt8 :=
  (n / Nat.pow 256 k % 256).toUInt8

/-- The four bytes of a 32-bit word, most significant first. -/
def ofUInt32 (w : UInt32) : List UInt8 :=
  [byteAt w.toNat 3, byteAt w.toNat 2, byteAt w.toNat 1, byteAt w.toNat 0]

/-- The word that four bytes stand for, most significant first. -/
def word (a b c d : UInt8) : UInt32 :=
  UInt32.ofNat (((a.toNat * 256 + b.toNat) * 256 + c.toNat) * 256 + d.toNat)

/-- Reads a word from the front of a byte list. -/
def readUInt32? : List UInt8 → Option (UInt32 × List UInt8)
  | a :: b :: c :: d :: rest => some (word a b c d, rest)
  | _ => none

/-- The eight bytes of a 64-bit word, most significant first. -/
def ofUInt64 (w : UInt64) : List UInt8 :=
  (List.range 8).map fun i => byteAt w.toNat (7 - i)

theorem toNat_byteAt (n k : Nat) : (byteAt n k).toNat = n / Nat.pow 256 k % 256 := by
  simp [byteAt, Nat.toUInt8]

theorem word_ofUInt32 (w : UInt32) :
    word (byteAt w.toNat 3) (byteAt w.toNat 2) (byteAt w.toNat 1) (byteAt w.toNat 0) = w := by
  apply UInt32.toNat_inj.mp
  have hw := w.toNat_lt
  simp only [word, UInt32.toNat_ofNat', toNat_byteAt, Nat.pow_eq, Nat.reducePow] at hw ⊢
  omega

/-- A word read back from its bytes is the word, and the rest is untouched. -/
theorem readUInt32?_ofUInt32 (w : UInt32) (rest : List UInt8) :
    readUInt32? (ofUInt32 w ++ rest) = some (w, rest) := by
  simp [ofUInt32, readUInt32?, word_ofUInt32]

end BitTorrent.BigEndian
