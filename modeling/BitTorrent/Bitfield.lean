import BitTorrent.Bytes.Hex
import BitTorrent.Fault

/-!
# Bitfields

A bitfield is the vector of pieces a peer has, one bit per piece, bit 0 the most significant bit
of the first byte. Its length is a 32-bit word and it is stored in `byteCount length` bytes; the
spare bits after the last piece are zero in every bitfield built by `Bitfield.new` or accepted by
`Bitfield.ofBytes`, and every operation keeps them so.

Reading or writing a bit at or past the length is a fault (`Fault.bitOutOfBound`), and so is
comparing two bitfields of different lengths.
-/

namespace BitTorrent

/-- The number of bytes that hold `n` bits, computed in 32-bit arithmetic. -/
def Bitfield.byteCount (n : UInt32) : Nat :=
  ((n + 7) / 8).toNat

/-- A fixed-length vector of bits. -/
structure Bitfield where
  /-- The number of bits. -/
  length : UInt32
  /-- The bits, eight to a byte, most significant bit first. -/
  bytes : Array UInt8
  size_eq : bytes.size = Bitfield.byteCount length

/-- Why a received byte string is not a bitfield of the stated length. -/
inductive BitfieldError where
  /-- The byte count is not `byteCount length`. -/
  | invalidLength
  /-- A bit after the last piece is set. -/
  | spareBitsSet
  /-- The length leaves spare bits in a last byte, but the byte count, taken in 32-bit
  arithmetic, is zero: reading the last byte is a fault. -/
  | lastByteMissing
  deriving DecidableEq, Repr

/-- The fault a bitfield error stands for, if it is one. -/
def BitfieldError.fault? : BitfieldError → Option Fault
  | .lastByteMissing => some (.indexBeforeStart (-1))
  | _ => none

/-- The text a bitfield error is reported with. -/
def BitfieldError.message : BitfieldError → String
  | .invalidLength => "bitfield: invalid length"
  | .spareBitsSet => "bitfield: spare bits are set"
  | .lastByteMissing => (Fault.indexBeforeStart (-1)).message

/-- How a bitfield error is reported: as a fault, or as an error. -/
def BitfieldError.kind (e : BitfieldError) : String :=
  if e.fault?.isSome then "panic" else "error"

namespace Bitfield

instance : Repr Bitfield := ⟨fun b _ => repr (b.length, b.bytes)⟩

/-- The mask of bit `i` within its byte. -/
def mask (i : UInt32) : UInt8 :=
  (1 : UInt8) <<< (7 - (i % 8).toUInt8)

/-- A bitfield of `n` clear bits. -/
def new (n : UInt32) : Bitfield :=
  ⟨n, Array.replicate (byteCount n) 0, by simp⟩

/-- The mask of the spare bits in the last byte of a bitfield of `n` bits. -/
def spareMask (n : UInt32) : UInt8 :=
  (0xff : UInt8) >>> (n % 8).toUInt8

/-- Accepts `b` as a bitfield of `n` bits: the byte count must fit and the spare bits of the last
byte be clear. When `n` leaves spare bits but the byte count wrapped to zero, there is no last
byte to check. -/
def ofBytes (b : Array UInt8) (n : UInt32) : Except BitfieldError Bitfield :=
  if h : b.size = byteCount n then
    if n % 8 != 0 then
      match b.back? with
      | none => .error .lastByteMissing
      | some last => if (last &&& spareMask n) != 0 then .error .spareBitsSet else .ok ⟨n, b, h⟩
    else .ok ⟨n, b, h⟩
  else .error .invalidLength

/-- The lowercase hex text of the bytes. -/
def hex (bf : Bitfield) : String :=
  Hex.ofList bf.bytes.toList

/-- Bit `i`, or `none` when `i` is past the length. -/
def get? (bf : Bitfield) (i : UInt32) : Option Bool :=
  if i < bf.length then
    bf.bytes[(i / 8).toNat]?.map fun v => (v &&& mask i) != 0
  else none

/-- Bit `i`, read as clear when `i` is past the length. -/
def getD (bf : Bitfield) (i : UInt32) : Bool :=
  (bf.get? i).getD false

/-- Checks that `i` names a bit and that its byte is stored. -/
def checkIndex (bf : Bitfield) (i : UInt32) : Except Fault Unit :=
  if i < bf.length then
    if (i / 8).toNat < bf.bytes.size then .ok ()
    else .error (.indexOutOfRange (i / 8).toNat bf.bytes.size)
  else .error .bitOutOfBound

/-- Bit `i`; a fault when `i` is past the length. -/
def test (bf : Bitfield) (i : UInt32) : Except Fault Bool := do
  bf.checkIndex i
  pure (bf.getD i)

/-- Applies `f` to the byte that holds bit `i`. -/
def modifyByte (bf : Bitfield) (i : UInt32) (f : UInt8 → UInt8) : Bitfield :=
  ⟨bf.length, bf.bytes.modify (i / 8).toNat f, by simp [bf.size_eq]⟩

/-- Sets bit `i`; a fault when `i` is past the length. -/
def set (bf : Bitfield) (i : UInt32) : Except Fault Bitfield := do
  bf.checkIndex i
  pure (bf.modifyByte i (· ||| mask i))

/-- Clears bit `i`; a fault when `i` is past the length. -/
def clear (bf : Bitfield) (i : UInt32) : Except Fault Bitfield := do
  bf.checkIndex i
  pure (bf.modifyByte i (· &&& ~~~(mask i)))

/-- Sets bit `i` to `v`. -/
def setTo (bf : Bitfield) (i : UInt32) (v : Bool) : Except Fault Bitfield :=
  if v then bf.set i else bf.clear i

/-- Sets bit `i` when it names a bit, and changes nothing otherwise. -/
def insert (bf : Bitfield) (i : UInt32) : Bitfield :=
  match bf.set i with
  | .ok b => b
  | .error _ => bf

/-- Clears every bit. -/
def clearAll (bf : Bitfield) : Bitfield :=
  ⟨bf.length, Array.replicate bf.bytes.size 0, by simp [bf.size_eq]⟩

/-- The number of set bits in a byte. -/
def popCount (v : UInt8) : Nat :=
  (List.range 8).countP fun k => (v >>> k.toUInt8) &&& 1 != 0

/-- The number of set bits. -/
def count (bf : Bitfield) : Nat :=
  bf.bytes.foldl (fun n v => n + popCount v) 0

/-- Every bit is set. -/
def all (bf : Bitfield) : Bool :=
  bf.count == bf.length.toNat

/-- Some bit is set. -/
def any (bf : Bitfield) : Bool :=
  bf.bytes.any (· != 0)

/-- `other` has a bit set that `bf` has clear; a fault when the lengths differ. -/
def hasMissing (bf other : Bitfield) : Except Fault Bool :=
  if other.length != bf.length then .error .bitfieldLengthMismatch
  else .ok ((bf.bytes.zip other.bytes).any fun (mine, theirs) => theirs &&& ~~~mine != 0)

/-- A bitfield of `n` bits with the listed indexes set; indexes past the length are ignored. -/
def ofIndexes (n : UInt32) (is : List UInt32) : Bitfield :=
  is.foldl insert (new n)

/-- A bitfield of `n` bits, all set. -/
def full (n : UInt32) : Bitfield :=
  ofIndexes n ((List.range n.toNat).map Nat.toUInt32)

/-- The indexes of the set bits, ascending. -/
def indexes (bf : Bitfield) : List UInt32 :=
  ((List.range bf.length.toNat).map Nat.toUInt32).filter bf.getD

theorem size_new (n : UInt32) : (new n).bytes.size = byteCount n := by
  simp [new]

theorem length_set {bf b : Bitfield} {i : UInt32} (h : bf.set i = .ok b) :
    b.length = bf.length := by
  unfold set at h
  cases hc : bf.checkIndex i with
  | error e => simp [hc, bind, Except.bind] at h
  | ok u =>
    simp only [hc, bind, Except.bind, pure, Except.pure, Except.ok.injEq] at h
    subst h; rfl

end Bitfield

end BitTorrent
