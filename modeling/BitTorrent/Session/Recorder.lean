import BitTorrent.Session.Coordinator
import BitTorrent.Hash.Sha1

/-!
# A recording torrent

A stand-in for the torrent side of one session: it has a fixed set of pieces and a fixed list
of blocks to hand out, reads uploads from the torrent's content, and writes down every call a
session makes, in order. A report of piece 0 can be marked in advance as a barrier: it then
answers false and is not written down, so a remote peer can tell when the session has handled
everything it sent before.
-/

namespace BitTorrent.Session

/-- A call of a session to its torrent, with what it was given and what it got. -/
inductive Call where
  | connected
  | disconnected
  | has (index : UInt32) (lack : Bool)
  | bitfield (data : List UInt8) (lack : Bool)
  | work (n : Nat) (result : List Request)
  /-- A received block, with the SHA-1 hash of its data. -/
  | submit (r : Request) (digest : List UInt8)
  | cancel (rs : List Request)
  | hasPiece (index : UInt32) (result : Bool)
  | blockReader (index : UInt32)
  | interested
  | uploaded (n : Nat)
  deriving Repr

/-- The recording torrent. -/
structure Recorder where
  /-- The pieces we have. -/
  ours : Bitfield
  /-- Whether connected peers are kept. -/
  accept : Bool := true
  /-- The blocks still to hand out, in order. -/
  work : List Request := []
  /-- Pieces whose data cannot be read. -/
  failRead : List UInt32 := []
  /-- The content of the torrent. -/
  content : List UInt8
  pieceLength : UInt32
  pieceLen : UInt32 → UInt32
  /-- The calls made, oldest first. -/
  calls : List Call := []
  /-- The next report of piece 0 is a barrier. -/
  barrier : Bool := false
  /-- A barrier report arrived. -/
  barrierSeen : Bool := false
  /-- The number of times requests were given back. -/
  cancels : Nat := 0

namespace Recorder

/-- Writes down a call. -/
def log (r : Recorder) (c : Call) : Recorder :=
  { r with calls := r.calls ++ [c] }

/-- The bytes of piece `i` of the content. -/
def pieceData (r : Recorder) (i : UInt32) : List UInt8 :=
  (r.content.drop (i.toNat * r.pieceLength.toNat)).take (r.pieceLen i).toNat

/-- The recording torrent as the torrent side of a session. -/
def coordinator : Coordinator Recorder where
  connected r :=
    let r := r.log .connected
    (if r.accept then some r.ours else none, r)
  disconnected r := r.log .disconnected
  reportHave r i :=
    if r.barrier && i == 0 then (false, { r with barrier := false, barrierSeen := true })
    else
      let lack := !r.ours.getD i
      (lack, r.log (.has i lack))
  reportBitfield r bf :=
    let lack := (bf.indexes.any fun i => !r.ours.getD i)
    (lack, r.log (.bitfield bf.bytes.toList lack))
  requestWork r n :=
    let got := r.work.take n
    (got, { r.log (.work n got) with work := r.work.drop n })
  submitBlock r q d := r.log (.submit q (Sha1.ofList d))
  cancelRequests r rs := { r.log (.cancel rs) with cancels := r.cancels + 1 }
  hasPiece r i :=
    let h := r.ours.getD i
    (h, r.log (.hasPiece i h))
  blockReader r i :=
    (if r.failRead.contains i then .failing else .bytes (r.pieceData i), r.log (.blockReader i))
  peerInterested r := r.log .interested
  peerUploaded r n := r.log (.uploaded n)

end Recorder

end BitTorrent.Session
