import BitTorrent.Session.Coordinator
import BitTorrent.Session.Flags
import BitTorrent.Session.State
import BitTorrent.Session.Speed
import BitTorrent.Session.Bucket
import BitTorrent.Wire.Reader

/-!
# A peer session

A session exchanges messages with one remote peer once the handshake is done. It starts
choking the peer and choked by it, and sends our bitfield first when we have any piece.

Messages from the peer are read from the byte stream in order and handled one at a time: a
"have" or a bitfield tells the torrent what the peer has and makes us interested when it has
something we lack; an unchoke lets us request blocks, up to the request queue length; a choke
gives our outstanding requests back to the torrent; a block is handed to the torrent and more
are requested; a request of a block we have, while we do not choke the peer, queues the block
for upload; a cancel withdraws a queued block. A "have" past the last piece or a malformed
bitfield ends the session, and so does any framing error of the stream.

Outgoing messages go through the outgoing queue. The writer takes the next item as soon as it
is free and holds it until the peer reads it, so the item being written can no longer be
withdrawn. An uploaded block is counted once the peer has read it. A block whose data cannot
be read ends the session.

Transfers can be limited by token buckets: a block waits for its tokens before its data is
read from the peer, and before it is written to the peer.
-/

namespace BitTorrent.Session

/-- Fixed settings of a session. -/
structure Options where
  numPieces : UInt32
  pieceLen : UInt32 → UInt32
  /-- The most requests outstanding at the peer. -/
  requestQueueLength : Int := 4
  /-- Whether unanswered requests are canceled after a while. -/
  requestTimeout : Bool := false

/-- What the torrent tells a session to do. -/
inductive Command where
  /-- Tell the peer we have piece `index`. -/
  | announce (index : UInt32)
  /-- Withdraw a request to the peer, if it is still outstanding. -/
  | cancel (r : Request)
  /-- Change our interest in the peer. -/
  | interest (value : Bool)
  | choke
  | unchoke
  deriving Repr

/-- The state of a session after the handshake. -/
structure Peer where
  opts : Options
  state : State := .established
  flags : Flags := ⟨Flags.amChoking.bits ||| Flags.peerChoking.bits⟩
  optimistic : Bool := false
  /-- The requests the peer has not answered, in the order they were made. -/
  requests : List Request := []
  outbox : Outbox := {}
  /-- The message the writer holds until the peer reads it. -/
  inflight : Option Message := none
  /-- The writer waits for upload tokens that do not come. -/
  writerHeld : Bool := false
  /-- Bytes from the peer not yet read as messages. -/
  inbox : List UInt8 := []
  /-- No message was read yet, so a bitfield may come. -/
  first : Bool := true
  /-- The piece at the front of the inbox has taken its download tokens. -/
  charged : Bool := false
  /-- The reader waits for download tokens that do not come. -/
  readerHeld : Bool := false
  /-- The peer closed its side of the connection. -/
  remoteClosed : Bool := false
  /-- The session is ending. -/
  closing : Bool := false
  down : Speed := {}
  up : Speed := {}
  downBucket : Option Bucket := none
  upBucket : Option Bucket := none

namespace Peer

/-- The session runs and is not ending. -/
def running (p : Peer) : Bool :=
  p.state == .established && !p.closing

/-- Sets or clears flag `f`; answers whether it changed. -/
def setFlag (p : Peer) (f : Flags) (v : Bool) : Bool × Peer :=
  (p.flags.has f != v, { p with flags := p.flags.setTo f v })

/-- The writer, when free, takes the next queued item and reads a block's data. A block whose
data cannot be read ends the session; one whose tokens do not come holds the writer. -/
def pump (p : Peer) : Peer :=
  if p.inflight.isSome || p.writerHeld || !p.running then p
  else match p.outbox.take? with
    | none => p
    | some (o, ob) =>
      let p := { p with outbox := ob }
      match o.toMessage? with
      | none => { p with closing := true }
      | some m =>
        match o, p.upBucket with
        | .block r _, some b =>
          match b.take r.length.toNat with
          | some b => { p with inflight := some m, upBucket := some b }
          | none => { p with inflight := some m, writerHeld := true }
        | _, _ => { p with inflight := some m }

/-- Queues an outgoing item. -/
def push (p : Peer) (o : Outgoing) : Peer :=
  ({ p with outbox := p.outbox.push o }).pump

/-- Takes download tokens for a block of `n` bytes, once per block; none when they do not
come. -/
def chargeDown (p : Peer) (n : Nat) : Option Peer :=
  if p.charged then some p
  else match p.downBucket with
    | none => some { p with charged := true }
    | some b => (b.take n).map fun b => { p with downBucket := some b, charged := true }

/-- The data length of a piece message whose header is at the front of the bytes. -/
def pieceHeader? (bs : List UInt8) : Option Nat :=
  match bs with
  | a :: b :: c :: d :: 7 :: rest =>
    let len := (BigEndian.word a b c d).toNat
    if len ≥ 9 && rest.length ≥ 8 then some (len - 9) else none
  | _ => none

/-- The reader is inside the data of a piece, waiting for the rest of it. -/
def midPiece (p : Peer) : Bool :=
  p.running && !p.readerHeld && (pieceHeader? p.inbox).isSome

variable {σ : Type} (co : Coordinator σ)

/-- Requests more blocks when the peer does not choke us and we are interested, up to the
request queue length. -/
def requestMore (p : Peer) (s : σ) : Peer × σ :=
  if p.flags.has Flags.peerChoking || !p.flags.has Flags.amInterested then (p, s)
  else
    let n := p.opts.requestQueueLength - p.requests.length
    if n ≤ 0 then (p, s)
    else
      let (rs, s) := co.requestWork s n.toNat
      (rs.foldl (fun p r =>
        { p with requests := if r ∈ p.requests then p.requests else p.requests ++ [r] }.push
          (.message (.request r))) p, s)

/-- Changes our interest in the peer and tells it; becoming interested requests blocks. -/
def setInterested (p : Peer) (s : σ) (v : Bool) : Peer × σ :=
  let (changed, p) := p.setFlag Flags.amInterested v
  if !changed then (p, s)
  else if v then requestMore co (p.push (.message .interested)) s
  else (p.push (.message .notInterested), s)

/-- Gives every outstanding request back to the torrent. -/
def releaseRequests (p : Peer) (s : σ) : Peer × σ :=
  if p.requests.isEmpty then (p, s)
  else ({ p with requests := [] }, co.cancelRequests s (Request.sort p.requests))

/-- Cancels every outstanding request as stale, tells the peer and the torrent, and requests
anew. -/
def cancelStale (p : Peer) (s : σ) : Peer × σ :=
  if p.requests.isEmpty then (p, s)
  else
    let stale := Request.sort p.requests
    let p := stale.foldl (fun p r => p.push (.message (.cancel r))) { p with requests := [] }
    requestMore co p (co.cancelRequests s stale)

/-- Queues the block the peer requests, when we serve it: we do not choke the peer, the block
lies within a piece, and we have the piece. -/
def handleRequest (p : Peer) (s : σ) (r : Request) : Peer × σ :=
  if p.flags.has Flags.amChoking then (p, s)
  else if r.index ≥ p.opts.numPieces then (p, s)
  else if r.length == 0 || r.length > blockSize then (p, s)
  else if r.begin.toNat + r.length.toNat > (p.opts.pieceLen r.index).toNat then (p, s)
  else
    let (h, s) := co.hasPiece s r.index
    if !h then (p, s)
    else
      let (src, s) := co.blockReader s r.index
      (p.push (.block r src), s)

/-- Handles one message from the peer. -/
def handle (p : Peer) (s : σ) : Message → Peer × σ
  | .choke => releaseRequests co (p.setFlag Flags.peerChoking true).2 s
  | .unchoke => requestMore co (p.setFlag Flags.peerChoking false).2 s
  | .interested =>
    let (changed, p) := p.setFlag Flags.peerInterested true
    if changed then (p, co.peerInterested s) else (p, s)
  | .notInterested => ((p.setFlag Flags.peerInterested false).2, s)
  | .has i =>
    if i ≥ p.opts.numPieces then ({ p with closing := true }, s)
    else
      let (lack, s) := co.reportHave s i
      if lack then setInterested co p s true else (p, s)
  | .bitfield d =>
    match Bitfield.ofBytes d.toArray p.opts.numPieces with
    | .error _ => ({ p with closing := true }, s)
    | .ok bf =>
      let (lack, s) := co.reportBitfield s bf
      setInterested co p s lack
  | .request r => handleRequest co p s r
  | .cancel r => ({ p with outbox := p.outbox.cancel r }, s)
  | .piece i b d =>
    let r : Request := ⟨i, b, d.length.toUInt32⟩
    let p := { p with requests := p.requests.erase r, down := p.down.count d.length }
    requestMore co p (co.submitBlock s r d)

/-- Carries out a command of the torrent. -/
def command (p : Peer) (s : σ) : Command → Peer × σ
  | .announce i => (p.push (.message (.has i)), s)
  | .cancel r =>
    if r ∈ p.requests then ({ p with requests := p.requests.erase r }.push (.message (.cancel r)), s)
    else (p, s)
  | .interest v => setInterested co p s v
  | .choke => (p.push (.message .choke), s)
  | .unchoke => (p.push (.message .unchoke), s)

/-- Reads and handles the messages in the inbox, until it runs dry, the reader waits for
tokens, or the session ends. A stream that ends inside or before a frame ends the session once
the peer has closed its side. `fuel` bounds the number of frames. -/
def readLoop : Nat → Peer → σ → Peer × σ
  | 0, p, s => (p, s)
  | fuel + 1, p, s =>
    if !p.running || p.readerHeld then (p, s)
    else match Reader.next p.opts.numPieces p.first p.inbox with
      | .message m rest =>
        let charged := match m with
          | .piece _ _ d => p.chargeDown d.length
          | _ => some p
        match charged with
        | none => ({ p with readerHeld := true }, s)
        | some p =>
          let (p, s) := handle co { p with inbox := rest, first := false, charged := false } s m
          readLoop fuel p s
      | .skip rest => readLoop fuel { p with inbox := rest } s
      | .stop (.io _) =>
        if p.remoteClosed then ({ p with closing := true }, s)
        else match pieceHeader? p.inbox with
          | some n =>
            match p.chargeDown n with
            | none => ({ p with readerHeld := true }, s)
            | some p => (p, s)
          | none => (p, s)
      | .stop _ => ({ p with closing := true }, s)

/-- Bytes from the peer arrive and are read. -/
def receive (p : Peer) (s : σ) (bytes : List UInt8) : Peer × σ :=
  if !p.running then (p, s)
  else
    let p := { p with inbox := p.inbox ++ bytes }
    readLoop co (p.inbox.length + 1) p s

/-- The peer closes its side of the connection: the reader reads what is left and meets the
end of the stream, and a message being written fails. -/
def hangUp (p : Peer) (s : σ) : Peer × σ :=
  if !p.running then (p, s)
  else
    let (p, s) := readLoop co (p.inbox.length + 1) { p with remoteClosed := true } s
    if p.running && p.inflight.isSome then ({ p with closing := true }, s) else (p, s)

/-- The peer reads the message being written: the message, and the session after an uploaded
block is counted and the writer takes the next item. -/
def deliver (p : Peer) (s : σ) : Option Message × Peer × σ :=
  if !p.running || p.writerHeld then (none, p, s)
  else match p.inflight with
    | none => (none, p, s)
    | some m =>
      let p := { p with inflight := none }
      let (p, s) := match m with
        | .piece _ _ d => ({ p with up := p.up.count d.length }, co.peerUploaded s d.length)
        | _ => (p, s)
      (some m, p.pump, s)

/-- Ends a session that is ending: it is closed and the torrent is told. -/
def finish (p : Peer) (s : σ) : Peer × σ :=
  if p.state == .established && p.closing then
    ({ p with state := .closed, inflight := none }, co.disconnected s)
  else (p, s)

end Peer

end BitTorrent.Session
