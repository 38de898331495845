import BitTorrent.Json.Lines
import BitTorrent.Torrent.Status

/-!
# Statistics of a torrent

What a torrent reports about itself: its name and info hash, the port it listens on, its status
and last error, counts of its pieces, bytes and peers, the state of its downloads, its speeds,
and the trackers it announces to. The JSON form names every field in snake case; the status is
written as its word.
-/

namespace BitTorrent.Torrent

/-- What a tracker reports. -/
structure TrackerStats where
  url : String
  status : String
  error : String := ""
  seeders : Int := 0
  leechers : Int := 0
  deriving Repr

/-- Counts of pieces. -/
structure PieceCounts where
  checked : Nat := 0
  owned : Nat := 0
  missing : Nat := 0
  available : Nat := 0
  total : Nat := 0
  deriving Repr

/-- Counts of bytes. -/
structure ByteCounts where
  completed : Int := 0
  left : Int := 0
  total : Int := 0
  downloaded : Int := 0
  uploaded : Int := 0
  wasted : Int := 0
  deriving Repr

/-- Counts of peers. -/
structure PeerCounts where
  total : Int := 0
  incoming : Int := 0
  outgoing : Int := 0
  connecting : Int := 0
  queued : Int := 0
  parole : Int := 0
  deriving Repr

/-- The state of the downloads. -/
structure DownloadCounts where
  partialPieces : Int := 0
  requestedBlocks : Int := 0
  endGame : Bool := false
  deriving Repr

/-- The statistics of a torrent. The status is kept as its code. -/
structure Stats where
  name : String := ""
  infoHash : String := ""
  port : Int := 0
  status : Int := 0
  error : Option String := none
  pieces : PieceCounts := {}
  bytes : ByteCounts := {}
  peers : PeerCounts := {}
  downloads : DownloadCounts := {}
  download : Int := 0
  upload : Int := 0
  /-- The trackers, or none when the torrent has none. -/
  trackers : Option (List TrackerStats) := none
  deriving Repr

namespace Stats

/-- The JSON object of named integers. -/
def ints (kvs : List (String × Int)) : JsonValue :=
  .object (kvs.map fun (k, v) => (k, JsonValue.ofInt v))

/-- The JSON form of a tracker's report; an empty error is left out. -/
def trackerJson (t : TrackerStats) : JsonValue :=
  .object ([("url", .string t.url), ("status", .string t.status)] ++
    (if t.error.isEmpty then [] else [("error", .string t.error)]) ++
    [("seeders", JsonValue.ofInt t.seeders), ("leechers", JsonValue.ofInt t.leechers)])

/-- The fields of the statistics with their JSON tags. -/
def fields (s : Stats) : List Field :=
  let f := fun (n : String) (v : JsonValue) => ({ name := n, tag := n, value := .json (.ok v) } : Field)
  [f "name" (.string s.name), f "info_hash" (.string s.infoHash), f "port" (JsonValue.ofInt s.port),
   f "status" (.string (Status.describe s.status)),
   { name := "Error", tag := "error", value := .error s.error },
   f "pieces" (ints [("checked", s.pieces.checked), ("have", s.pieces.owned),
     ("missing", s.pieces.missing), ("available", s.pieces.available), ("total", s.pieces.total)]),
   f "bytes" (ints [("completed", s.bytes.completed), ("left", s.bytes.left),
     ("total", s.bytes.total), ("downloaded", s.bytes.downloaded),
     ("uploaded", s.bytes.uploaded), ("wasted", s.bytes.wasted)]),
   f "peers" (ints [("total", s.peers.total), ("incoming", s.peers.incoming),
     ("outgoing", s.peers.outgoing), ("connecting", s.peers.connecting),
     ("queued", s.peers.queued), ("parole", s.peers.parole)]),
   f "downloads" (.object [("partial_pieces", JsonValue.ofInt s.downloads.partialPieces),
     ("requested_blocks", JsonValue.ofInt s.downloads.requestedBlocks),
     ("end_game", .bool s.downloads.endGame)]),
   f "speed" (ints [("download", s.download), ("upload", s.upload)]),
   f "trackers" (match s.trackers with
     | none => .null
     | some ts => .array (ts.map trackerJson))]

/-- The statistics as lines of JSON. -/
def lines (s : Stats) : Except String String :=
  (Printable.record s.fields).lines

end Stats

end BitTorrent.Torrent
