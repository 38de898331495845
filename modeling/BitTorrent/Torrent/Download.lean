import BitTorrent.Disk.Basic
import BitTorrent.Picker.Select
import BitTorrent.Picker.Update
import BitTorrent.Resume.Store
import BitTorrent.Config.Basic
import BitTorrent.Torrent.Stats
import BitTorrent.Session.Flags

/-!
# Downloading a torrent

A download ties the sessions with peers to the torrent's files. It owns the bitfield of verified
pieces, the piece picker and the record of each connected peer, and it hands received blocks to
the disk.

A download is created stopped. Starting it opens the files, takes a port to listen on, and
verifies the files already on disk; then it downloads, or seeds when every piece is there.
Blocks written in an earlier run are taken back from the resume state, unless the scan found
their piece intact or every block of it was written (the piece failed the scan and is fetched
again). Stopping writes the resume state and closes the files; peer records stay until their
sessions end. A closed download cannot be started again.

A received block is counted as downloaded, and as wasted when the picker was not waiting for it.
The block that completes a piece makes the disk check the piece: a good piece is added to the
bitfield and ends the parole of the peer that sent all of it; a bad piece is wasted as a whole,
its blocks are free again, and every peer that sent a block of it is put on parole. A failure
of the files stops the download and is kept as its error, and so does a claimed block that the
disk will not write (its data is not the length of the block).

Peer sessions are separate actors: what the download tells them goes to their own queues and is
not part of its state. Addresses to dial wait in a queue while the download is not downloading;
in the setting modelled here no dialed address answers, so a dial ends at once and frees its
slot.

Operations that would dereference a part the download does not have (the picker of a stopped
download, for instance) are faults, and so are bit indexes past the end of a bitfield.
-/

namespace BitTorrent.Torrent

/-- What a download knows of a connected peer. -/
structure PeerRecord where
  name : String
  id : List UInt8
  outgoing : Bool := true
  /-- The pieces the peer has told us about. -/
  holds : Bitfield
  /-- The peer sent data of a piece that failed its hash check. -/
  parole : Bool := false
  /-- The flags of the peer's session: a fresh session chokes the peer and is choked by it. -/
  flags : Session.Flags := ⟨Session.Flags.amChoking.bits ||| Session.Flags.peerChoking.bits⟩
  optimistic : Bool := false
  deriving Repr

/-- The upload slots of a running download: the peers unchoked for their speed and the peers
unchoked at random. -/
structure Slots where
  regular : List String := []
  optimistic : List String := []
  deriving Repr

/-- Why a download did not start. -/
inductive StartError where
  /-- The download was closed. -/
  | closed
  /-- The files could not be opened. -/
  | disk (e : Disk.Error)
  /-- The port could not be listened on. -/
  | listen (text : String)
  deriving Repr

/-- The text of a start error. -/
def StartError.message : StartError → String
  | .closed => "torrent is closed"
  | .disk e => e.message
  | .listen t => t

/-- The fault of using a part of a download that it does not have. -/
def nilPart : Fault :=
  .other "runtime error: invalid memory address or nil pointer dereference"

/-- The prefix of our peer id. -/
def peerIdPrefix : List UInt8 :=
  "-DZ0001-".toUTF8.toList

/-- A download of a torrent whose files live in a store of type `σ`. -/
structure Download (σ : Type) where
  info : Info
  config : Config
  fs : FileStore σ
  store : σ
  /-- The resume state and the database it is kept in, when one is kept. -/
  resume : Option (Resume.Resumer × Resume.Database) := none
  ranker : Ranker := .indexOrder
  /-- The directory of the files, written into a fresh resume state. -/
  dest : List UInt8 := []
  /-- Our peer id: the prefix and twelve bytes of our own. -/
  peerId : List UInt8 := peerIdPrefix ++ List.replicate 12 1
  addedAt : Timestamp := {}
  downloaded : Int := 0
  uploaded : Int := 0
  wasted : Int := 0
  status : Status := .stopped
  lastErr : Option Disk.Failure := none
  closed : Bool := false
  port : Int
  checked : UInt32 := 0
  disk : Option Disk := none
  bitfield : Option Bitfield := none
  picker : Option (Picker String) := none
  slots : Option Slots := none
  peers : List PeerRecord := []
  /-- Running sessions, the ones not handshaked yet included. -/
  sessions : Nat := 0
  /-- Addresses waiting to be dialed. -/
  queue : List String := []
  /-- Every address dialed, in order. -/
  dialed : List String := []
  completed : Bool := false
  /-- What the trackers of a running download report. -/
  trackers : List TrackerStats := []

namespace Download

variable {σ : Type}

/-- The port taken when the configured port is zero: the first of the dynamic range. -/
def ephemeralPort : Int := 49152

/-- Wraps an integer to a signed 64-bit value. -/
def wrap64 (n : Int) : Int :=
  let m := n % 18446744073709551616
  if m ≥ 9223372036854775808 then m - 18446744073709551616 else m

/-- Why a download could not be created: the text of the failure, and whether it was a fault
of the rate limiter rather than an error. -/
structure CreateError where
  text : String
  fault : Bool := false
  deriving Repr

/-- Creates a stopped download. Speed limits are in KiB/s and make token buckets of that many
bytes; a bucket with no room is a fault. With resume state, a saved state restores the
counters, and a torrent seen for the first time gets a fresh state written. -/
def create (info : Info) (config : Config) (fs : FileStore σ) (store : σ)
    (resume : Option (Resume.Resumer × Resume.Database)) (ranker : Ranker) (dest : List UInt8) :
    Except CreateError (Download σ) := do
  for lim in [config.speedLimitDownload, config.speedLimitUpload] do
    if lim > 0 && wrap64 (lim * 1024) ≤ 0 then
      throw { text := "token bucket capacity is not > 0", fault := true }
  let d : Download σ := { info, config, fs, store, resume, ranker, dest, port := config.port }
  match resume with
  | none => pure d
  | some (r, db) =>
    match r.read db with
    | .error e => throw { text := e.message }
    | .ok none =>
      match r.write db { infoHash := info.hash, addedAt := d.addedAt, dest } with
      | .error e => throw { text := e }
      | .ok db => pure { d with resume := some (r, db) }
    | .ok (some spec) =>
      pure { d with addedAt := spec.addedAt, downloaded := spec.counters.downloaded,
                    uploaded := spec.counters.uploaded, wasted := spec.counters.wasted }

/-- The record of the named peer. -/
def record? (d : Download σ) (name : String) : Option PeerRecord :=
  d.peers.find? (·.name == name)

/-- Replaces the record of a peer. -/
def setRecord (d : Download σ) (p : PeerRecord) : Download σ :=
  { d with peers := d.peers.map fun q => if q.name == p.name then p else q }

/-- The picker, or the fault of a download that has none. -/
def picker! (d : Download σ) : Except Fault (Picker String) :=
  d.picker.elim (.error nilPart) .ok

/-- The total length minus the lengths of the verified pieces; all of it before the files are
checked. -/
def bytesLeft (d : Download σ) : Int :=
  match d.bitfield with
  | none => d.info.totalLength.toInt
  | some bf =>
    bf.indexes.foldl (fun left i => left - (d.info.pieceLen i).toNat) d.info.totalLength.toInt

/-- Writes the bitfield, the written blocks of pieces not yet verified and the counters into
the resume state, when the download has a bitfield and open files. -/
def writeResume (d : Download σ) : Download σ :=
  match d.resume, d.bitfield, d.disk with
  | some (r, db), some bf, some disk =>
    let pending := disk.writtenBlocks.map fun (i, bs) =>
      ({ index := i, blocks := bs.map (· * blockSize) } : Resume.PartialPiece)
    let db := r.writeBitfield db bf.bytes.toList pending
    let db := r.writeCounters db ⟨d.downloaded, d.uploaded, d.wasted⟩
    { d with resume := some (r, db) }
  | _, _, _ => d

/-- Stops a download: the trackers are left, the resume state is written, the files are closed
and the queued addresses dropped. A stopped download is left as it is. -/
def stop (d : Download σ) : Download σ :=
  if d.status == .stopped then d
  else
    let d := { d with status := .stopping, trackers := [] }
    let d := d.writeResume
    let store := match d.disk with
      | some disk => (disk.close d.fs d.store).2.2
      | none => d.store
    { d with store, disk := none, picker := none, slots := none, queue := [],
             status := .stopped }

/-- Closes a download for good, stopping it. -/
def close (d : Download σ) : Download σ :=
  { d with closed := true }.stop

/-- Stops the download because of a failure of its files or of a block handed to them, unless it
already failed or is stopped. -/
def fail (d : Download σ) (e : Disk.Failure) : Download σ :=
  if d.lastErr.isSome || d.status == .stopped then d
  else { d with lastErr := some e }.stop

/-- Dials queued addresses while the download is downloading and has free dial slots. No
address answers, so each dial ends at once and frees its slot. -/
def dialAddresses (d : Download σ) : Download σ :=
  if d.status != .downloading || d.config.maxPeerDial ≤ 0 then d
  else { d with dialed := d.dialed ++ d.queue, queue := [] }

/-- Queues addresses to dial, leaving out the ones already queued, and dials. -/
def addPeers (d : Download σ) (addrs : List String) : Download σ :=
  dialAddresses (addrs.foldl (fun d a =>
    if d.queue.contains a then d else { d with queue := d.queue ++ [a] }) d)

/-- Switches to seeding: the download is complete. -/
def setCompleted (d : Download σ) : Download σ :=
  { d with status := .seeding, completed := true }

/-- Marks the blocks written in an earlier run as received, for pieces that the scan did not
find intact and that were not written whole. -/
def restorePartial (numPieces : UInt32) (pieceLen : UInt32 → UInt32) (bf : Bitfield)
    (disk : Disk) (pk : Picker String) (pending : List Resume.PartialPiece) :
    Except Fault (Disk × Picker String) :=
  pending.foldlM (fun (disk, pk) pp => do
    if pp.index ≥ numPieces then return (disk, pk)
    if ← bf.test pp.index then return (disk, pk)
    let numBlocks := (pieceLen pp.index + blockSize - 1) / blockSize
    if pp.blocks.length ≥ numBlocks.toNat then return (disk, pk)
    pp.blocks.foldlM (fun (disk, pk) begin => do
      let (ok, disk) := disk.restoreBlock pp.index begin
      if !ok then return (disk, pk)
      let (_, pk) ← pk.restoreReceived pp.index begin
      return (disk, pk)) (disk, pk)) (disk, pk)

/-- Verifies the files of a started download, then downloads or seeds. A failed scan stops the
download with its error. -/
def verify (d : Download σ) (disk : Disk) : Except Fault (Download σ) := do
  let (r, progress) := disk.scan d.fs d.store false
  let d := { d with checked := progress.getLastD d.checked }
  match r with
  | .error (.disk e) => return d.fail (.disk e)
  | .error _ => return d
  | .ok bf =>
    let spec := match d.resume with
      | some (res, db) => if disk.found then (res.read db).toOption.join else none
      | none => none
    let pk : Picker String := Picker.new d.info.numPieces d.info.pieceLen bf d.ranker
    let (disk, pk) ← match spec with
      | some s => restorePartial d.info.numPieces d.info.pieceLen bf disk pk s.pending
      | none => pure (disk, pk)
    let d := { d with disk := some disk, bitfield := some bf, picker := some pk,
                      slots := some {} }
    let d := if bf.all then d.setCompleted else { d with status := .downloading }
    return d.dialAddresses

/-- Starts a stopped download: opens the files, listens on the port and verifies the files.
Starting a running download does nothing. A download that does not start answers why, with
the files it opened closed again. -/
def start (d : Download σ) : Except Fault (Option StartError × Download σ) := do
  if d.closed then return (some .closed, d)
  if d.status != .stopped then return (none, d)
  match Disk.create d.fs d.info d.config.readCachePieces d.store with
  | (.error e, store) => return (some (.disk e), { d with store })
  | (.ok disk, store) =>
    let d := { d with store }
    let p := d.config.port
    if p < 0 || p > 65535 then
      return (some (.listen ("listen tcp4: address " ++ toString p ++ ": invalid port")),
        { d with store := (disk.close d.fs d.store).2.2 })
    let d := { d with port := if p == 0 then ephemeralPort else p, disk := some disk,
                      lastErr := none, checked := 0, status := .verifying }
    return (none, ← d.verify disk)

/-- A peer finished its handshake: our bitfield for it, or none when the download is not
running, failed, or already has a peer with the same id. -/
def peerConnected (d : Download σ) (name : String) (id : List UInt8) (outgoing : Bool) :
    Option Bitfield × Download σ :=
  if (d.status != .downloading && d.status != .seeding) || d.lastErr.isSome then (none, d)
  else if id == d.peerId || d.peers.any (·.id == id) then (none, d)
  else match d.bitfield with
    | none => (none, d)
    | some bf =>
      (some bf, { d with peers := d.peers ++
        [{ name, id, outgoing, holds := Bitfield.new d.info.numPieces }] })

/-- A peer's session ended: its requests are given back and it holds no pieces any more. -/
def peerDisconnected (d : Download σ) (name : String) : Except Fault (Download σ) := do
  let some rec := d.record? name | return d
  let d := { d with peers := d.peers.filter (·.name != name) }
  let pk ← d.picker!
  let (_, pk) ← pk.releasePeer name
  let pk ← pk.handleDisconnect rec.holds
  let some s := d.slots | throw nilPart
  let slots := some { regular := s.regular.erase name, optimistic := s.optimistic.erase name }
  return { d with picker := some pk, slots }

/-- A peer has piece `i`: whether we lack it. -/
def reportHave (d : Download σ) (name : String) (i : UInt32) : Except Fault (Bool × Download σ) := do
  let some rec := d.record? name | return (false, d)
  let d ← if ← rec.holds.test i then pure d
    else
      let holds ← rec.holds.set i
      let pk ← (← d.picker!).handleHave i
      pure { d.setRecord { rec with holds } with picker := some pk }
  let some bf := d.bitfield | throw nilPart
  return (!(← bf.test i), d)

/-- A peer sent its bitfield: whether it has a piece we lack. -/
def reportBitfield (d : Download σ) (name : String) (bf : Bitfield) :
    Except Fault (Bool × Download σ) := do
  let some rec := d.record? name | return (false, d)
  let pk ← (← d.picker!).handleDisconnect rec.holds
  let pk ← pk.handleBitfield bf
  let d := { d.setRecord { rec with holds := bf } with picker := some pk }
  let some ours := d.bitfield | throw nilPart
  return (← ours.hasMissing bf, d)

/-- Up to `n` blocks for a peer to request: none for an unknown peer or a complete or failed
download. -/
def requestWork (d : Download σ) (name : String) (n : Int) :
    Except Fault (List Request × Download σ) := do
  let some rec := d.record? name | return ([], d)
  if d.completed || d.lastErr.isSome then return ([], d)
  let (rs, pk) ← (← d.picker!).select name rec.holds n rec.parole
  return (rs, { d with picker := some pk })

/-- A peer withdraws its requests. -/
def cancelRequests (d : Download σ) (name : String) (rs : List Request) :
    Except Fault (Download σ) := do
  if (d.record? name).isNone then return d
  let pk ← rs.foldlM (fun pk r => do return (← pk.cancelRequest name r).2) (← d.picker!)
  return { d with picker := some pk }

/-- A verified piece joins the bitfield; the peer that sent all of it leaves parole. -/
def pieceVerified (d : Download σ) (index : UInt32) : Except Fault (Download σ) := do
  let (sender, pk) ← (← d.picker!).markVerified index
  let d := { d with picker := some pk }
  let d := match sender.bind d.record? with
    | some rec => if rec.parole then d.setRecord { rec with parole := false } else d
    | none => d
  let some bf := d.bitfield | throw nilPart
  let bf ← bf.set index
  let d := { d with bitfield := some bf }
  return if bf.all then d.setCompleted else d

/-- A piece failed its hash check: its blocks are free again, its length is wasted, and the
peers that sent it are put on parole. -/
def pieceFailed (d : Download σ) (index : UInt32) : Except Fault (Download σ) := do
  let (senders, pk) ← (← d.picker!).resetPiece index
  let d := { d with picker := some pk, disk := d.disk.map (·.resetPiece index),
                    wasted := d.wasted + (d.info.pieceLen index).toNat }
  return senders.foldl (fun d s => match d.record? s with
    | some rec => d.setRecord { rec with parole := true }
    | none => d) d

/-- The first part of taking a peer's block, under the download's lock: the block is counted as
downloaded and claimed in the picker, so that of duplicate answers only the first is written.
Answers whether the block was claimed; one the picker was not waiting for is counted as wasted. -/
def claimBlock (d : Download σ) (name : String) (r : Request) (data : List UInt8) :
    Except Fault (Bool × Download σ) := do
  if (d.record? name).isNone || d.lastErr.isSome then return (false, d)
  let d := { d with downloaded := d.downloaded + data.length }
  let (ok, _, pk) ← (← d.picker!).markReceived name r
  if !ok then return (false, { d with wasted := d.wasted + data.length })
  return (true, { d with picker := some pk })

/-- Writing a claimed block, outside the download's lock: whether its piece became complete. A
block the disk does not take stops the download. -/
def writeClaimed (d : Download σ) (r : Request) (data : List UInt8) :
    Except Fault (Bool × Download σ) := do
  let some disk := d.disk | throw nilPart
  match disk.writeBlock d.fs d.store r.index r.begin data with
  | (.error e, disk, store) => return (false, { d with disk := some disk, store }.fail e)
  | (.ok complete, disk, store) => return (complete, { d with disk := some disk, store })

/-- Checking a complete piece against its digest, outside the download's lock: the verdict, or
none when reading the piece failed and stopped the download. -/
def checkPiece (d : Download σ) (index : UInt32) : Except Fault (Option Bool × Download σ) := do
  let some disk := d.disk | throw nilPart
  match ← disk.verifyPiece d.fs d.store index with
  | (.error e, disk) => return (none, { d with disk := some disk }.fail (.disk e))
  | (.ok good, disk) => return (some good, { d with disk := some disk })

/-- The last part, under the download's lock again: a good piece is verified and a bad one reset,
unless the download was stopped in between. -/
def finishPiece (d : Download σ) (index : UInt32) (good : Bool) : Except Fault (Download σ) :=
  if d.picker.isNone then .ok d
  else if good then d.pieceVerified index else d.pieceFailed index

/-- A peer delivered the data of request `r`: the block is claimed, written, and the piece it
completes is checked and verified or reset. -/
def submitBlock (d : Download σ) (name : String) (r : Request) (data : List UInt8) :
    Except Fault (Download σ) := do
  let (claimed, d) ← d.claimBlock name r data
  if !claimed then return d
  let (complete, d) ← d.writeClaimed r data
  if !complete then return d
  match ← d.checkPiece r.index with
  | (none, d) => return d
  | (some good, d) => d.finishPiece r.index good

/-- Whether we have piece `i`. -/
def hasPiece (d : Download σ) (i : UInt32) : Except Fault Bool :=
  match d.bitfield with
  | none => .ok false
  | some bf => bf.test i

/-- Reads `length` bytes at `off` of piece `index` for an upload. A failure of the files stops
the download. -/
def readBlock (d : Download σ) (index : UInt32) (off : Int) (length : Nat) :
    Except Fault (Except Disk.Failure (List UInt8) × Download σ) := do
  let some disk := d.disk | throw nilPart
  let (r, disk) := disk.pieceRead d.fs d.store index off length
  let d := { d with disk := some disk }
  match r with
  | .error (.disk e) => return (r, d.fail (.disk e))
  | _ => return (r, d)

/-- The flags of a peer's session and whether it is unchoked at random; a session the download
does not know has the flags a fresh session starts with. -/
def peerFlags (d : Download σ) (name : String) : Session.Flags × Bool :=
  match d.record? name with
  | some rec => (rec.flags, rec.optimistic)
  | none => (({ name, id := [], holds := Bitfield.new 0 } : PeerRecord).flags, false)

/-- A peer became interested: it is unchoked at once when a slot is free. -/
def peerInterested (d : Download σ) (name : String) : Except Fault (Download σ) := do
  let some rec := d.record? name | return d
  if !rec.flags.has .amChoking || !rec.flags.has .peerInterested then return d
  let some s := d.slots | throw nilPart
  let unchoked := rec.flags.setTo .amChoking false
  if (s.regular.length : Int) < d.config.unchokedPeers then
    return { d.setRecord { rec with flags := unchoked, optimistic := false } with
      slots := some { regular := s.regular ++ [name], optimistic := s.optimistic.erase name } }
  if (s.optimistic.length : Int) < d.config.optimisticUnchokedPeers then
    return { d.setRecord { rec with flags := unchoked, optimistic := true } with
      slots := some { regular := s.regular.erase name, optimistic := s.optimistic ++ [name] } }
  return d

/-- Bytes were uploaded to a peer. -/
def peerUploaded (d : Download σ) (n : Int) : Download σ :=
  { d with uploaded := d.uploaded + n }

/-- The statistics of the download. -/
def stats (d : Download σ) : Stats :=
  let total := d.info.totalLength.toInt
  let left := d.bytesLeft
  let owned := (d.bitfield.map Bitfield.count).getD 0
  let available := match d.picker, d.bitfield with
    | some pk, some bf =>
      ((List.range d.info.numPieces.toNat).filter fun i =>
        bf.getD i.toUInt32 || pk.availability.getD i 0 > 0).length
    | _, _ => 0
  let outgoing := (d.peers.filter (·.outgoing)).length
  { name := Utf8.lossy d.info.name, infoHash := Hex.ofList d.info.hash, port := d.port,
    status := d.status.code, error := d.lastErr.map Disk.Failure.message,
    pieces := { checked := d.checked.toNat, owned, missing := d.info.numPieces.toNat - owned,
                available, total := d.info.numPieces.toNat },
    bytes := { completed := total - left, left, total, downloaded := d.downloaded,
               uploaded := d.uploaded, wasted := d.wasted },
    peers := { total := d.peers.length, incoming := d.peers.length - outgoing,
               outgoing, connecting := (d.sessions : Int) - d.peers.length,
               queued := d.queue.length, parole := (d.peers.filter (·.parole)).length },
    downloads := match d.picker with
      | some pk => { partialPieces := pk.partials.length, requestedBlocks := pk.numRequested,
                     endGame := pk.endGame }
      | none => {},
    trackers := if d.trackers.isEmpty then none else some d.trackers }

end Download

end BitTorrent.Torrent
