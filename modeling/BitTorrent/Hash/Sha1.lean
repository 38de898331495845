/-!
# SHA-1

Pieces and info dictionaries are identified by their SHA-1 digest (FIPS 180-4): the message is
padded with a one bit, zeros and its bit length to a multiple of 64 bytes, and each 64-byte block
is mixed into five 32-bit words over eighty rounds.
-/

namespace BitTorrent.Sha1

/-- The five words the digest starts from. -/
def initial : Array UInt32 := #[0x67452301, 0xEFCDAB89, 0x98BADCFE, 0x10325476, 0xC3D2E1F0]

/-- Rotates a word left by `n` bits. -/
def rotl (x : UInt32) (n : UInt32) : UInt32 :=
  (x <<< n) ||| (x >>> (32 - n))

/-- The message followed by its padding: a one bit, zeros, and the bit length in 64 bits. -/
def pad (msg : ByteArray) : ByteArray := Id.run do
  let n := msg.size
  let mut b := msg.push 0x80
  for _ in [0:(120 - (n + 1) % 64) % 64] do
    b := b.push 0
  let bits := n * 8
  for i in [0:8] do
    b := b.push (bits / Nat.pow 2 (8 * (7 - i)) % 256).toUInt8
  return b

/-- The big-endian word at byte offset `i`. -/
def wordAt (b : ByteArray) (i : Nat) : UInt32 :=
  (b.get! i).toUInt32 <<< 24 ||| (b.get! (i + 1)).toUInt32 <<< 16 |||
    (b.get! (i + 2)).toUInt32 <<< 8 ||| (b.get! (i + 3)).toUInt32

/-- Mixes the 64-byte block at offset `off` into the state. -/
def block (h : Array UInt32) (b : ByteArray) (off : Nat) : Array UInt32 := Id.run do
  let mut w : Array UInt32 := Array.mkEmpty 80
  for i in [0:16] do
    w := w.push (wordAt b (off + 4 * i))
  for i in [16:80] do
    w := w.push (rotl (w[i-3]! ^^^ w[i-8]! ^^^ w[i-14]! ^^^ w[i-16]!) 1)
  let mut a := h[0]!
  let mut bb := h[1]!
  let mut c := h[2]!
  let mut d := h[3]!
  let mut e := h[4]!
  for i in [0:80] do
    let (f, k) :=
      if i < 20 then ((bb &&& c) ||| (~~~bb &&& d), (0x5A827999 : UInt32))
      else if i < 40 then (bb ^^^ c ^^^ d, 0x6ED9EBA1)
      else if i < 60 then ((bb &&& c) ||| (bb &&& d) ||| (c &&& d), 0x8F1BBCDC)
      else (bb ^^^ c ^^^ d, 0xCA62C1D6)
    let t := rotl a 5 + f + e + k + w[i]!
    e := d
    d := c
    c := rotl bb 30
    bb := a
    a := t
  return #[h[0]! + a, h[1]! + bb, h[2]! + c, h[3]! + d, h[4]! + e]

/-- The twenty-byte digest of a message. -/
def digest (msg : ByteArray) : ByteArray := Id.run do
  let p := pad msg
  let mut h := initial
  for i in [0:p.size / 64] do
    h := block h p (64 * i)
  let mut out := ByteArray.empty
  for x in h do
    out := out.push (x >>> 24).toUInt8 |>.push (x >>> 16).toUInt8 |>.push (x >>> 8).toUInt8
      |>.push x.toUInt8
  return out

/-- The digest of a byte list. -/
def ofList (bs : List UInt8) : List UInt8 :=
  (digest bs.toByteArray).toList

end BitTorrent.Sha1
