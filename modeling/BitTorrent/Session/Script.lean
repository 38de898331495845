import BitTorrent.Session.Peer
import BitTorrent.Session.Recorder
import BitTorrent.Wire.Handshake

/-!
# A session against a scripted remote peer

A remote peer follows a script against one session whose torrent is a `Recorder`. The
connection is synchronous: what the session writes waits until the remote reads it, and the
remote reads only when a step says so.

The remote learns that the session has handled what it sent by a barrier: it sends a "have"
of piece 0 that the recorder knows to expect, and waits until the session reports it. It reads
what the session has written by a flush: the session is told to announce a reserved piece
index (from `0xFFFF0000` on) and the remote reads every message up to that one, then sends a
barrier so that the uploads it read are counted. Sending a message is followed by a barrier
unless the step says otherwise; the commands to the session are each followed by a flush.

After each step the remote takes a snapshot of the session: its state and flags, its speeds,
the calls it made to the torrent since the last snapshot, and the messages the remote read in
the step. Steps after one that skips its barrier, up to the next step that waits for the
session, take no snapshot of their own. A wait that would never end is cut short and noted.
-/

namespace BitTorrent.Session

/-- A step of the remote peer. -/
inductive Step where
  /-- Send bytes, and wait for the session to handle them when `sync` is set. -/
  | send (bytes : List UInt8) (sync : Bool)
  /-- Read everything the session has written. -/
  | read
  /-- Choke the peer from our side, then read. -/
  | choke
  /-- Unchoke the peer from our side, then read. -/
  | unchoke
  /-- Tell the peer we have piece `index`, then read. -/
  | announce (index : UInt32)
  /-- Withdraw our request `r`, then read. -/
  | cancel (r : Request)
  /-- Change our interest, then read. -/
  | interested (value : Bool)
  /-- Mark the peer as optimistically unchoked or not. -/
  | optimistic (value : Bool)
  /-- Fold the bytes counted into the speeds. -/
  | tick
  /-- Let time pass. -/
  | pause
  /-- Wait until requests were given back `count` times in all. -/
  | waitCancel (count : Nat)
  /-- Wait until the session ends by itself. -/
  | waitClosed
  /-- Close the session from our side. -/
  | close
  /-- The remote closes the connection. -/
  | remoteClose
  deriving Repr

/-- What the remote sees of the session at a point of the script. -/
structure Snapshot where
  state : State
  flags : Flags
  optimistic : Bool
  downloadSpeed : Nat
  uploadSpeed : Nat
  calls : List Call
  received : List Message
  /-- A wait of the step did not end. -/
  timeout : Bool := false

/-- How the handshake went: the bytes of the session's handshake the remote read, the peer id
the session learned, whether the session is established, and the bytes after the remote's
handshake. -/
structure Greeting where
  read : List UInt8 := []
  peerId : List UInt8 := List.replicate 20 0
  ok : Bool := false
  rest : List UInt8 := []

namespace Greeting

/-- Twenty bytes: the given ones and zeros after them. -/
def padId (bs : List UInt8) : List UInt8 :=
  bs.take 20 ++ List.replicate (20 - bs.length) 0

/-- The end of a handshake once the session wrote `written`: the remote's peer id, which must
not be ours. -/
def finishWith (ourId written rest : List UInt8) : Greeting :=
  if rest.length < 20 then { read := written, peerId := padId rest }
  else
    let id := rest.take 20
    if id == ourId then { read := written, peerId := id }
    else { read := written, peerId := id, ok := true, rest := rest.drop 20 }

/-- The handshake of a session for torrent `infoHash` with our id `ourId`, where the remote
sends `remote`. A dialing session writes first; an accepting one answers once it has read a
handshake for its torrent. -/
def ofRemote (outgoing : Bool) (infoHash ourId remote : List UInt8) : Greeting :=
  if outgoing then
    let written := Handshake.encode infoHash ourId
    match Handshake.readHeader remote with
    | .error _ => { read := written }
    | .ok (ih, rest) => if ih != infoHash then { read := written } else finishWith ourId written rest
  else
    match Handshake.readHeader remote with
    | .error _ => {}
    | .ok (ih, rest) =>
      if ih != infoHash then {} else finishWith ourId (Handshake.encode ih ourId) rest

end Greeting

/-- The piece message of the block at `begin` of piece `index`, `len` bytes of `content`, with
zeros past the end of the content. -/
def contentPiece (content : List UInt8) (pieceLength : Nat) (index begin : UInt32) (len : Nat) :
    Message :=
  let data := (content.drop (index.toNat * pieceLength + begin.toNat)).take len
  .piece index begin (data ++ List.replicate (len - data.length) 0)

/-- A script in progress: the session, the recorder, how many flushes were made, how many
calls were already shown, and what the next snapshot will show. -/
structure Run where
  peer : Peer
  torrent : Recorder
  flushes : Nat := 0
  shown : Nat := 0
  received : List Message := []
  timeout : Bool := false
  deferring : Bool := false

namespace Run

/-- The coordinator of every run. -/
abbrev co : Coordinator Recorder := Recorder.coordinator

/-- Lets an ending session close. -/
def settle (r : Run) : Run :=
  let (p, rec) := r.peer.finish co r.torrent
  { r with peer := p, torrent := rec }

/-- Applies a step of the session together with the recorder. -/
def lift (r : Run) (f : Peer → Recorder → Peer × Recorder) : Run :=
  let (p, rec) := f r.peer r.torrent
  settle { r with peer := p, torrent := rec }

/-- The snapshot of now, and the run with its notes cleared. -/
def snap (r : Run) : Snapshot × Run :=
  ({ state := r.peer.state, flags := r.peer.flags, optimistic := r.peer.optimistic,
     downloadSpeed := r.peer.down.perSecond, uploadSpeed := r.peer.up.perSecond,
     calls := r.torrent.calls.drop r.shown, received := r.received, timeout := r.timeout },
   { r with shown := r.torrent.calls.length, received := [], timeout := false })

/-- Sends bytes to the session. -/
def send (r : Run) (bytes : List UInt8) : Run :=
  r.lift fun p s => p.receive co s bytes

/-- Sends a barrier and waits until the session handled it or ended. -/
def barrier (r : Run) : Run :=
  if !r.peer.running then r
  else
    let r := { r with torrent := { r.torrent with barrier := true, barrierSeen := false } }
    let r := r.send (Message.frame (.has 0))
    let seen := r.torrent.barrierSeen
    let r := { r with torrent := { r.torrent with barrier := false } }
    if seen || !r.peer.running then r else { r with timeout := true }

/-- Reads written messages until the one announcing `marker`. `fuel` bounds the count. -/
def readUntil (marker : UInt32) : Nat → Run → Run × Bool
  | 0, r => (r, false)
  | fuel + 1, r =>
    let (m, p, rec) := r.peer.deliver co r.torrent
    let r := settle { r with peer := p, torrent := rec }
    match m with
    | none => (r, false)
    | some (.has i) =>
      if i == marker then (r, true)
      else readUntil marker fuel { r with received := r.received ++ [.has i] }
    | some m => readUntil marker fuel { r with received := r.received ++ [m] }

/-- Has the session announce the next reserved index, reads up to it, then sends a barrier. -/
def flush (r : Run) : Run :=
  if !r.peer.running then r
  else
    let marker : UInt32 := 0xFFFF0000 + r.flushes.toUInt32
    let r := { r with flushes := r.flushes + 1 }
    let r := r.lift fun p s => p.command co s (.announce marker)
    let (r, reached) := readUntil marker (r.peer.outbox.queue.length + 2) r
    let r := if reached || !r.peer.running then r else { r with timeout := true }
    r.barrier

/-- Gives a command to the session, if it runs. -/
def order (r : Run) (c : Command) : Run :=
  if r.peer.running then r.lift fun p s => p.command co s c else r

/-- Waits until requests were given back `count` times, canceling stale requests as they
time out. `fuel` bounds the rounds. -/
def waitCancels (count : Nat) : Nat → Run → Run
  | 0, r => { r with timeout := true }
  | fuel + 1, r =>
    if r.torrent.cancels ≥ count then r.barrier
    else if r.peer.running && r.peer.opts.requestTimeout && !r.peer.requests.isEmpty then
      waitCancels count fuel (r.lift fun p s => p.cancelStale co s)
    else { r with timeout := true }

/-- A step that does not wait for the session: after `r` skipped a barrier it is deferred,
otherwise `r'` is shown. -/
def quiet (r r' : Run) : Option Snapshot × Run :=
  if r.deferring then (none, r')
  else
    let (s, r') := r'.snap
    (some s, r')

/-- A step that waited for the session: it is shown. -/
def waited (r : Run) : Option Snapshot × Run :=
  let (s, r) := ({ r with deferring := false } : Run).snap
  (some s, r)

/-- Carries out a step; steps that do not wait for the session while an earlier one skipped
its barrier are deferred. -/
def step (r : Run) : Step → Option Snapshot × Run
  | .send bytes sync =>
    let r := r.send bytes
    if sync then waited r.barrier else (none, { r with deferring := true })
  | .optimistic v => quiet r { r with peer := { r.peer with optimistic := v } }
  | .tick => quiet r { r with peer := { r.peer with down := r.peer.down.tick, up := r.peer.up.tick } }
  | .pause => quiet r r
  | .read => waited r.flush
  | .choke =>
    let (changed, p) := r.peer.setFlag Flags.amChoking true
    let r : Run := { r with peer := p }
    waited (if changed then r.order .choke else r).flush
  | .unchoke =>
    let (changed, p) := r.peer.setFlag Flags.amChoking false
    let r : Run := { r with peer := p }
    waited (if changed then r.order .unchoke else r).flush
  | .announce i => waited (r.order (.announce i)).flush
  | .cancel q => waited (r.order (.cancel q)).flush
  | .interested v => waited (r.order (.interest v)).flush
  | .waitCancel n => waited (waitCancels n (n + 1) r)
  | .waitClosed =>
    waited <|
      if !r.peer.running then r
      else if r.peer.midPiece then settle { r with peer := { r.peer with closing := true } }
      else { r with timeout := true }
  | .close => waited (settle { r with peer := { r.peer with closing := true } })
  | .remoteClose => waited (r.lift fun p s => p.hangUp co s)

/-- The end of the script: a session that still runs is flushed and the remote closes the
connection. -/
def conclude (r : Run) : Snapshot :=
  let r := if r.peer.running then r.flush.lift fun p s => p.hangUp co s else r
  r.snap.1

/-- Carries out the steps in order. -/
def steps (r : Run) : List Step → List (Option Snapshot) × Run
  | [] => ([], r)
  | st :: rest =>
    let (s, r) := r.step st
    let (ss, r) := steps r rest
    (s :: ss, r)

end Run

/-- The whole of a scripted session: the handshake, the snapshot once the torrent was told of
the peer, one per step, and the last one. -/
structure Outcome where
  greeting : Greeting
  start : Snapshot
  steps : List (Option Snapshot)
  final : Snapshot

/-- Runs a session with the given settings against a remote that opens with `remote` and then
follows the script. -/
def play (opts : Options) (outgoing : Bool) (infoHash ourId remote : List UInt8)
    (peer : Peer) (rec : Recorder) (script : List Step) : Outcome :=
  let g := Greeting.ofRemote outgoing infoHash ourId remote
  let closed := { peer with opts, state := .closed }
  let r : Run :=
    if !g.ok then { peer := closed, torrent := rec }
    else
      let (bf, rec) := Recorder.coordinator.connected rec
      match bf with
      | none => { peer := closed, torrent := rec }
      | some bf =>
        let p := { peer with opts }
        let p := if bf.any then p.push (.message (.bitfield bf.bytes.toList)) else p
        Run.settle { peer := p, torrent := rec } |>.send g.rest
  let (start, r) := r.snap
  let (ss, r) := r.steps script
  ⟨g, start, ss, r.conclude⟩

end BitTorrent.Session
