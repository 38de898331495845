/-!
# Settings of a torrent

The settings a torrent runs with: where it listens and keeps its data, how many requests and
connections it allows, how many peers it unchokes, its speed limits, its timeouts and
intervals, how it talks to trackers, and how many pieces it keeps in memory for uploads.
Durations are in nanoseconds; a speed limit of zero means none.
-/

namespace BitTorrent

/-- The settings of a torrent. -/
structure Config where
  port : Int := 6881
  dataDir : String := "~/drizzle-data"
  database : String := "~/drizzle/resume.db"
  requestQueueLength : Int := 50
  requestTimeout : Int := 0
  maxPeerDial : Int := 40
  maxPeerAccept : Int := 40
  unchokedPeers : Int := 3
  optimisticUnchokedPeers : Int := 1
  speedLimitDownload : Int := 0
  speedLimitUpload : Int := 0
  dialTimeout : Int := 5000000000
  handshakeTimeout : Int := 10000000000
  pieceReadTimeout : Int := 30000000000
  resumeWriteInterval : Int := 30000000000
  trackerNumWant : Int := 200
  trackerMinAnnounceInterval : Int := 60000000000
  trackerStoppedEventTimeout : Int := 5000000000
  readCachePieces : Int := 8
  deriving Repr, Inhabited

namespace Config

/-- The settings with every number zero and every path empty. -/
def zero : Config :=
  ⟨0, "", "", 0, 0, 0, 0, 0, 0, 0, 0, 0, 0, 0, 0, 0, 0, 0, 0⟩

/-- The kind of value a setting holds. -/
inductive Kind where
  /-- A machine integer. -/
  | int
  /-- A 64-bit integer. -/
  | int64
  | string
  /-- A duration in nanoseconds. -/
  | duration
  deriving DecidableEq, Repr

/-- The name of a kind's type. -/
def Kind.typeName : Kind → String
  | .int => "int"
  | .int64 => "int64"
  | .string => "string"
  | .duration => "time.Duration"

/-- A value of a setting. -/
inductive Value where
  | number (n : Int)
  | text (s : String)
  deriving Repr

/-- The settings by their names in a settings file, with their kinds. -/
def keys : List (String × Kind) :=
  [("port", .int), ("data_dir", .string), ("database", .string),
   ("request_queue_length", .int), ("request_timeout", .duration), ("max_peer_dial", .int),
   ("max_peer_accept", .int), ("unchoked_peers", .int), ("optimistic_unchoked_peers", .int),
   ("speed_limit_download", .int64), ("speed_limit_upload", .int64),
   ("dial_timeout", .duration), ("handshake_timeout", .duration),
   ("piece_read_timeout", .duration), ("resume_write_interval", .duration),
   ("tracker_num_want", .int), ("tracker_min_announce_interval", .duration),
   ("tracker_stopped_event_timeout", .duration), ("read_cache_pieces", .int)]

/-- Sets the setting with the given name. -/
def set (c : Config) (name : String) (v : Value) : Config :=
  let n := match v with | .number n => n | .text _ => 0
  let s := match v with | .text s => s | .number _ => ""
  match name with
  | "port" => { c with port := n }
  | "data_dir" => { c with dataDir := s }
  | "database" => { c with database := s }
  | "request_queue_length" => { c with requestQueueLength := n }
  | "request_timeout" => { c with requestTimeout := n }
  | "max_peer_dial" => { c with maxPeerDial := n }
  | "max_peer_accept" => { c with maxPeerAccept := n }
  | "unchoked_peers" => { c with unchokedPeers := n }
  | "optimistic_unchoked_peers" => { c with optimisticUnchokedPeers := n }
  | "speed_limit_download" => { c with speedLimitDownload := n }
  | "speed_limit_upload" => { c with speedLimitUpload := n }
  | "dial_timeout" => { c with dialTimeout := n }
  | "handshake_timeout" => { c with handshakeTimeout := n }
  | "piece_read_timeout" => { c with pieceReadTimeout := n }
  | "resume_write_interval" => { c with resumeWriteInterval := n }
  | "tracker_num_want" => { c with trackerNumWant := n }
  | "tracker_min_announce_interval" => { c with trackerMinAnnounceInterval := n }
  | "tracker_stopped_event_timeout" => { c with trackerStoppedEventTimeout := n }
  | "read_cache_pieces" => { c with readCachePieces := n }
  | _ => c

/-- The value of the setting with the given name. -/
def get (c : Config) (name : String) : Value :=
  match name with
  | "port" => .number c.port
  | "data_dir" => .text c.dataDir
  | "database" => .text c.database
  | "request_queue_length" => .number c.requestQueueLength
  | "request_timeout" => .number c.requestTimeout
  | "max_peer_dial" => .number c.maxPeerDial
  | "max_peer_accept" => .number c.maxPeerAccept
  | "unchoked_peers" => .number c.unchokedPeers
  | "optimistic_unchoked_peers" => .number c.optimisticUnchokedPeers
  | "speed_limit_download" => .number c.speedLimitDownload
  | "speed_limit_upload" => .number c.speedLimitUpload
  | "dial_timeout" => .number c.dialTimeout
  | "handshake_timeout" => .number c.handshakeTimeout
  | "piece_read_timeout" => .number c.pieceReadTimeout
  | "resume_write_interval" => .number c.resumeWriteInterval
  | "tracker_num_want" => .number c.trackerNumWant
  | "tracker_min_announce_interval" => .number c.trackerMinAnnounceInterval
  | "tracker_stopped_event_timeout" => .number c.trackerStoppedEventTimeout
  | "read_cache_pieces" => .number c.readCachePieces
  | _ => .number 0

end Config

end BitTorrent
