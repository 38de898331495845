import BitTorrent.Session.Script
import BitTorrent.Meta.Info

/-!
# Setting up a scripted session

A scripted session runs for the torrent of an info dictionary, whose content the recorder
uploads from. The setup says which side dials, our peer id, what the torrent has and hands out,
which of its pieces cannot be read, whether it keeps the peer, and the session's limits: the
requests it keeps outstanding at the peer, whether unanswered requests time out, the uploads it
queues and the rates of its two directions.
-/

namespace BitTorrent.Session

/-- The settings of a scripted session. -/
structure Setup where
  outgoing : Bool := false
  ourId : List UInt8
  /-- The pieces the torrent has. -/
  owned : List UInt32 := []
  accept : Bool := true
  /-- The blocks the torrent hands out, in order. -/
  work : List Request := []
  failRead : List UInt32 := []
  queueLength : Int := 4
  requestTimeout : Bool := false
  maxUploads : Int := 0
  downBucket : Option Bucket := none
  upBucket : Option Bucket := none

namespace Setup

/-- The session's options for the torrent of `info`. -/
def options (s : Setup) (info : Info) : Options :=
  { numPieces := info.numPieces, pieceLen := info.pieceLen, requestQueueLength := s.queueLength,
    requestTimeout := s.requestTimeout }

/-- The recording torrent of `info` with the given content. -/
def recorder (s : Setup) (info : Info) (content : List UInt8) : Recorder :=
  { ours := Bitfield.ofIndexes info.numPieces s.owned, accept := s.accept, work := s.work,
    failRead := s.failRead, content, pieceLength := info.pieceLength, pieceLen := info.pieceLen }

/-- Runs the session against a remote that opens with `remote` and then follows the script. -/
def play (s : Setup) (info : Info) (content remote : List UInt8) (script : List Step) : Outcome :=
  let opts := s.options info
  Session.play opts s.outgoing info.hash s.ourId remote
    { opts, outbox := { maxBlocks := s.maxUploads }, downBucket := s.downBucket, upBucket := s.upBucket }
    (s.recorder info content) script

end Setup

end BitTorrent.Session
