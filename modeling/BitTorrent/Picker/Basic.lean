import BitTorrent.Bitfield
import BitTorrent.Piece.Block

/-!
# The piece picker: state and views

The picker keeps the download state of every block of the pieces being downloaded (the partial
pieces), which verified pieces exist, and how many connected peers have each piece. Peers are
any type with decidable equality.

A partial piece lists its blocks, each with its state, the peers it is requested from (more
than one only in end-game) and the peer that sent it. The requests of a peer are not stored
apart: `Picker.requestsOf` reads them off the blocks, so the request sets of the peers and the
blocks can never disagree.
-/

namespace BitTorrent

/-- A block of a partial piece with its download state. -/
structure Slot (P : Type) where
  block : Block
  state : BlockState := .free
  /-- The peers the block is requested from, in the order they were asked. -/
  requested : List P := []
  /-- The peer that sent the block; none for blocks restored from saved state. -/
  sender : Option P := none
  deriving Repr

/-- A piece with at least one block out of the free state. -/
structure PartialPiece (P : Type) where
  index : UInt32
  length : UInt32
  slots : Array (Slot P)
  /-- The peer on parole the piece is reserved for. -/
  exclusive : Option P := none
  deriving Repr

/-- The order in which the pieces of one selection tier are tried. -/
inductive Ranker where
  /-- Ascending piece index. -/
  | indexOrder
  /-- Fewest connected holders first; equal counts keep index order. -/
  | rarestFirst
  deriving DecidableEq, Repr, Inhabited

/-- The download state of the blocks of a torrent. -/
structure Picker (P : Type) where
  numPieces : UInt32
  pieceLength : UInt32 → UInt32
  verified : Bitfield
  ranker : Ranker := .indexOrder
  /-- The partial pieces, by ascending index. -/
  partials : List (PartialPiece P) := []
  /-- The number of connected peers having each piece. -/
  availability : Array Nat
  /-- Duplicate requests were made since the last new piece was started. -/
  endGame : Bool := false

namespace Slot

variable {P : Type}

/-- The request that names this block of piece `index`. -/
def toRequest (s : Slot P) (index : UInt32) : Request :=
  s.block.toRequest index

/-- Moves the block to state `d`, or the fault of an edge the state machine does not have. -/
def moveTo (s : Slot P) (d : BlockState) : Except Fault (Slot P) :=
  if BlockState.Legal s.state d then .ok { s with state := d }
  else .error (.illegalTransition s.state d)

end Slot

namespace PartialPiece

variable {P : Type} [DecidableEq P]

/-- A fresh partial piece: every block free. -/
def fresh (index length : UInt32) : PartialPiece P :=
  ⟨index, length, ((Block.all length).map fun b => ({ block := b } : Slot P)).toArray, none⟩

/-- The number of blocks in state `s`. -/
def count (pp : PartialPiece P) (s : BlockState) : Nat :=
  pp.slots.toList.countP (·.state == s)

/-- Every block is free again. -/
def idle (pp : PartialPiece P) : Bool :=
  pp.count .free == pp.slots.size

/-- The position of the block at `begin` with the given length, if the piece has one. -/
def slotAt? (pp : PartialPiece P) (begin length : UInt32) : Option Nat :=
  if begin % blockSize != 0 then none
  else
    let i := (begin / blockSize).toNat
    match pp.slots[i]? with
    | some s => if s.block.length == length then some i else none
    | none => none

/-- The distinct peers that sent blocks of the piece, in block order. -/
def contributors (pp : PartialPiece P) : List P :=
  pp.slots.toList.foldl (fun acc s =>
    match s.sender with
    | some p => if p ∈ acc then acc else acc ++ [p]
    | none => acc) []

/-- The peer that sent every block, if one did. -/
def soleSender (pp : PartialPiece P) : Option P :=
  match pp.slots.toList.map (·.sender) with
  | [] => none
  | s :: rest => if s.isSome ∧ rest.all (· = s) then s else none

/-- The requests of peer `pe` for blocks of this piece, in block order. -/
def requestsOf (pp : PartialPiece P) (pe : P) : List Request :=
  (pp.slots.toList.filter (pe ∈ ·.requested)).map (·.toRequest pp.index)

/-- The letters of the block states, in block order. -/
def picture (pp : PartialPiece P) : String :=
  String.ofList (pp.slots.toList.map (·.state.letter))

end PartialPiece

namespace Picker

variable {P : Type} [DecidableEq P]

/-- A picker with no partial pieces and no known holders. -/
def new (numPieces : UInt32) (pieceLength : UInt32 → UInt32) (verified : Bitfield)
    (ranker : Ranker) : Picker P :=
  { numPieces, pieceLength, verified, ranker,
    availability := Array.replicate numPieces.toNat 0 }

/-- The partial piece at `index`, if there is one. -/
def partial? (pk : Picker P) (index : UInt32) : Option (PartialPiece P) :=
  pk.partials.find? (·.index == index)

/-- Replaces the partial piece with the same index. -/
def update (pk : Picker P) (pp : PartialPiece P) : Picker P :=
  { pk with partials := pk.partials.map fun q => if q.index == pp.index then pp else q }

/-- Inserts a partial piece at its place in index order. -/
def insertPartial (pp : PartialPiece P) : List (PartialPiece P) → List (PartialPiece P)
  | [] => [pp]
  | q :: rest => if pp.index < q.index then pp :: q :: rest else q :: insertPartial pp rest

/-- Drops the partial piece at `index`. -/
def removePartial (pk : Picker P) (index : UInt32) : Picker P :=
  { pk with partials := pk.partials.filter (·.index != index) }

/-- Starts downloading piece `i`: a fresh partial piece of its length. -/
def start (pk : Picker P) (i : UInt32) : PartialPiece P × Picker P :=
  let pp := PartialPiece.fresh i (pk.pieceLength i)
  (pp, { pk with partials := insertPartial pp pk.partials })

/-- The blocks requested from `pe`, by piece index and offset. -/
def requestsOf (pk : Picker P) (pe : P) : List Request :=
  pk.partials.flatMap (·.requestsOf pe)

/-- The number of blocks requested from `pe`. -/
def numRequests (pk : Picker P) (pe : P) : Nat :=
  (pk.requestsOf pe).length

/-- The number of blocks in the requested state. -/
def numRequested (pk : Picker P) : Nat :=
  pk.partials.foldl (fun n pp => n + pp.count .requested) 0

/-- The number of connected peers that have piece `i`. -/
def availabilityOf (pk : Picker P) (i : UInt32) : Except Fault Nat :=
  Fault.get pk.availability i.toNat

/-- The candidates of a tier in the order the ranker tries them. -/
def rank (pk : Picker P) (cands : List UInt32) : List UInt32 :=
  match pk.ranker with
  | .indexOrder => cands
  | .rarestFirst =>
    if cands.length > 1 then
      cands.mergeSort fun a b =>
        decide (pk.availability.getD a.toNat 0 ≤ pk.availability.getD b.toNat 0)
    else cands

end Picker

end BitTorrent
