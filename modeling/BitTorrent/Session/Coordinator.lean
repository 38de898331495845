import BitTorrent.Bitfield
import BitTorrent.Wire.Outbox

/-!
# What a session asks of its torrent

A peer session never talks to other sessions: everything it learns goes to the torrent it
belongs to, and everything it needs comes from there. The torrent's state is a type `σ`; each
question is a function that answers and gives the torrent's next state.
-/

namespace BitTorrent.Session

/-- The torrent side of a peer session. -/
structure Coordinator (σ : Type) where
  /-- The handshake is done: our bitfield for the peer, or none to drop it. -/
  connected : σ → Option Bitfield × σ
  /-- The session ended. -/
  disconnected : σ → σ
  /-- The peer has piece `i`; answers whether we lack it. -/
  reportHave : σ → UInt32 → Bool × σ
  /-- The peer's pieces; answers whether it has one we lack. -/
  reportBitfield : σ → Bitfield → Bool × σ
  /-- Up to `n` blocks to request from the peer. -/
  requestWork : σ → Nat → List Request × σ
  /-- The data of a received block. -/
  submitBlock : σ → Request → List UInt8 → σ
  /-- Blocks that will not come from the peer. -/
  cancelRequests : σ → List Request → σ
  /-- Whether we have piece `i`. -/
  hasPiece : σ → UInt32 → Bool × σ
  /-- Where the data of piece `i` is read from. -/
  blockReader : σ → UInt32 → BlockSource × σ
  /-- The peer became interested. -/
  peerInterested : σ → σ
  /-- A block of `n` bytes was sent to the peer. -/
  peerUploaded : σ → Nat → σ

end BitTorrent.Session
