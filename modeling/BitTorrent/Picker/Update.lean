import BitTorrent.Picker.Basic

/-!
# The piece picker: answers, verification, cancels and availability

The first peer to deliver a requested block wins it: its request and every duplicate request
of the block are dropped, and the other requesters are named so their requests can be
canceled. A verified piece leaves the partial pieces; a piece that fails its hash check goes
back to all free. A canceled request frees its block unless another peer still has it
requested, and a disconnected peer gives back all its requests and reservations.

Moving a block along an edge that `BlockState.Legal` lacks is a fault, and so is naming a
piece past the end of the availability counts or a bit past the end of a bitfield.
-/

namespace BitTorrent

namespace Picker

variable {P : Type} [DecidableEq P]

/-- Moves every slot to state `d`, in order; the first illegal move is the fault. -/
def moveAll (ss : List (Slot P)) (d : BlockState) : Except Fault (List (Slot P)) :=
  ss.mapM (·.moveTo d)

/-- Records that `pe` delivered the block `r`. Answers whether the block was waiting for data
from `pe`, and the other peers it was requested from, whose requests are dropped too. -/
def markReceived (pk : Picker P) (pe : P) (r : Request) :
    Except Fault (Bool × List P × Picker P) := do
  let some pp := pk.partial? r.index | return (false, [], pk)
  let some i := pp.slotAt? r.begin r.length | return (false, [], pk)
  let some s := pp.slots[i]? | return (false, [], pk)
  if s.state != .requested || !(pe ∈ s.requested) then return (false, [], pk)
  let others := s.requested.filter (· ≠ pe)
  let s' ← { s with requested := [] }.moveTo .received
  let s' := { s' with sender := some pe }
  return (true, others, pk.update { pp with slots := pp.slots.set! i s' })

/-- Marks piece `index` verified and drops it from the partial pieces. Answers the peer that
sent every block of it, if one did. -/
def markVerified (pk : Picker P) (index : UInt32) : Except Fault (Option P × Picker P) := do
  if ← pk.verified.test index then return (none, pk)
  let (sender, pk) ← match pk.partial? index with
    | none => pure (none, pk)
    | some pp => do
      let _ ← moveAll pp.slots.toList .verified
      pure (pp.soleSender, pk.removePartial index)
  return (sender, { pk with verified := ← pk.verified.set index })

/-- Puts every block of piece `index` back to free after a failed hash check. Answers the
distinct peers that sent blocks of it. -/
def resetPiece (pk : Picker P) (index : UInt32) : Except Fault (List P × Picker P) := do
  let some pp := pk.partial? index | return ([], pk)
  let _ ← pp.slots.toList.mapM fun s =>
    if s.state == .requested || s.state == .received then s.moveTo .free else pure s
  return (pp.contributors, pk.removePartial index)

/-- Withdraws the request `r` of `pe`. The block is free again unless another peer has it
requested, and a piece left with only free blocks stops being partial. Answers whether `pe` had
the request. -/
def cancelRequest (pk : Picker P) (pe : P) (r : Request) : Except Fault (Bool × Picker P) := do
  if !((pk.requestsOf pe).contains r) then return (false, pk)
  let some pp := pk.partial? r.index | return (false, pk)
  let some i := pp.slotAt? r.begin r.length | return (false, pk)
  let some s := pp.slots[i]? | return (false, pk)
  let s := { s with requested := s.requested.erase pe }
  let s ← if s.requested.isEmpty then s.moveTo .free else pure s
  let pp := { pp with slots := pp.slots.set! i s }
  let pk := pk.update pp
  return (true, if pp.idle then pk.removePartial pp.index else pk)

/-- Cancels every request of a disconnected peer and drops its reservations. Answers the number
of requests canceled. -/
def releasePeer (pk : Picker P) (pe : P) : Except Fault (Nat × Picker P) := do
  let rs := pk.requestsOf pe
  let pk ← rs.foldlM (fun pk r => do return (← pk.cancelRequest pe r).2) pk
  let pk := { pk with partials := pk.partials.map fun pp =>
    if pp.exclusive == some pe then { pp with exclusive := none } else pp }
  return (rs.length, pk)

/-- Marks the block at `begin` of piece `index` received from saved state. Answers false when
the piece is verified or past the end, or the block is not a free block of it. -/
def restoreReceived (pk : Picker P) (index begin : UInt32) : Except Fault (Bool × Picker P) := do
  if index ≥ pk.numPieces then return (false, pk)
  if ← pk.verified.test index then return (false, pk)
  let (pp, pk) := match pk.partial? index with
    | some pp => (pp, pk)
    | none => pk.start index
  let i := (begin / blockSize).toNat
  if begin % blockSize != 0 || i ≥ pp.slots.size then
    return (false, if pp.idle then pk.removePartial index else pk)
  let some s := pp.slots[i]? | return (false, pk)
  if s.state != .free then return (false, pk)
  let s ← s.moveTo .requested
  let s ← s.moveTo .received
  return (true, pk.update { pp with slots := pp.slots.set! i s })

/-- Adds one holder of piece `index`. -/
def handleHave (pk : Picker P) (index : UInt32) : Except Fault (Picker P) := do
  let c ← Fault.get pk.availability index.toNat
  return { pk with availability := pk.availability.set! index.toNat (c + 1) }

/-- Adds a holder of every piece set in the bitfield. -/
def handleBitfield (pk : Picker P) (bf : Bitfield) : Except Fault (Picker P) :=
  ((List.range pk.numPieces.toNat).map Nat.toUInt32).foldlM (fun pk i => do
    if ← bf.test i then pk.handleHave i else return pk) pk

/-- Removes a holder of every piece set in the last bitfield of a disconnected peer. -/
def handleDisconnect (pk : Picker P) (bf : Bitfield) : Except Fault (Picker P) :=
  ((List.range pk.numPieces.toNat).map Nat.toUInt32).foldlM (fun pk i => do
    if ← bf.test i then
      let c := pk.availability.getD i.toNat 0
      if c > 0 then return { pk with availability := pk.availability.set! i.toNat (c - 1) }
    return pk) pk

end Picker

end BitTorrent
