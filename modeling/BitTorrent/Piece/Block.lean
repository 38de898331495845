/-!
# Blocks of a piece

A piece is downloaded in blocks of `blockSize` bytes, the last one shorter when the piece length
is not a multiple of it. Offsets are 32-bit words; the largest block offset of a piece is below
its length, so no offset wraps. A piece has its length over `blockSize` blocks, rounded up, and
block `i` starts at `blockSize` times `i`.
-/

namespace BitTorrent

/-- The size of the blocks requested from peers. -/
def blockSize : UInt32 := 16384

/-- One block of a piece: its position in the piece, its offset and its length. -/
structure Block where
  index : UInt32
  begin : UInt32
  length : UInt32
  deriving DecidableEq, Repr, Inhabited

/-- A block of the torrent as named on the wire: piece index, offset in the piece, length. -/
structure Request where
  index : UInt32
  begin : UInt32
  length : UInt32
  deriving DecidableEq, Repr, Inhabited, Hashable

namespace Request

/-- Requests in the order of piece index, then offset. -/
def before (a b : Request) : Bool :=
  a.index < b.index || (a.index == b.index && a.begin < b.begin)

/-- Sorts requests by piece index, then offset. -/
def sort (rs : List Request) : List Request :=
  rs.mergeSort before

end Request

namespace Block

/-- The number of blocks of a piece of the given length. -/
def count (length : UInt32) : UInt32 :=
  if length % blockSize != 0 then length / blockSize + 1 else length / blockSize

/-- Block `i` of a piece of the given length. -/
def nth (length i : UInt32) : Block :=
  let begin := i * blockSize
  let rest := length - begin
  ⟨i, begin, if rest < blockSize then rest else blockSize⟩

/-- All blocks of a piece of the given length, in order. -/
def all (length : UInt32) : List Block :=
  (List.range (count length).toNat).map fun i => Block.nth length i.toUInt32

/-- Block `i` of a piece, if the piece has one. -/
def get? (length i : UInt32) : Option Block :=
  if i < count length then some (Block.nth length i) else none

/-- The block starting at `begin` with the given length, if the piece has one. -/
def find? (pieceLength begin length : UInt32) : Option Block :=
  if begin % blockSize != 0 then none
  else match get? pieceLength (begin / blockSize) with
    | some b => if b.length == length then some b else none
    | none => none

/-- The request for a block of piece `index`. -/
def toRequest (b : Block) (index : UInt32) : Request :=
  ⟨index, b.begin, b.length⟩

end Block

end BitTorrent
