import BitTorrent.Wire.Reader

/-!
# The handshake

Both sides of a connection open with a 68-byte handshake: the byte 19 and "BitTorrent protocol",
eight reserved bytes (sent as zero, ignored when read), the 20-byte info hash of the torrent and
the 20-byte peer id of the sender.

The accepting side reads the remote's protocol string, reserved bytes and info hash, asks
whether it serves that torrent, and only then answers with its own handshake and reads the
remote's peer id. The dialing side writes its handshake first, then reads the remote's and checks
the info hash. Either side drops a connection to itself.
-/

namespace BitTorrent

namespace Handshake

/-- The length-prefixed protocol string that opens a handshake. -/
def protocol : List UInt8 :=
  19 :: "BitTorrent protocol".toUTF8.toList

/-- The handshake a side sends: protocol string, zero reserved bytes, info hash and peer id. -/
def encode (infoHash peerId : List UInt8) : List UInt8 :=
  protocol ++ List.replicate 8 0 ++ infoHash ++ peerId

/-- Why a handshake failed. -/
inductive Error where
  /-- The connection ended, before a field or within one. -/
  | io (e : IoError)
  /-- The remote does not speak the protocol. -/
  | invalidProtocol
  /-- The remote asked for, or answered with, a torrent we do not serve. -/
  | invalidInfoHash
  /-- The remote is ourselves. -/
  | ownConnection
  deriving DecidableEq, Repr

/-- The text a handshake error is reported with. -/
def Error.message : Error → String
  | .io e => e.message
  | .invalidProtocol => "handshake: invalid protocol string"
  | .invalidInfoHash => "handshake: invalid info hash"
  | .ownConnection => "handshake: dropped own connection"

/-- The class of a handshake error. -/
def Error.kind : Error → String
  | .io e => e.kind
  | _ => "handshake"

/-- Takes exactly `n` bytes; an empty stream ends the handshake, a short one breaks it. -/
def field (n : Nat) (bs : List UInt8) : Except Error (List UInt8 × List UInt8) :=
  match Reader.readFull n bs with
  | .ok r => .ok r
  | .error (.io e) => .error (.io e)
  | .error _ => .error (.io .unexpectedEof)

/-- Reads the protocol string, the reserved bytes and the info hash. -/
def readHeader (bs : List UInt8) : Except Error (List UInt8 × List UInt8) := do
  let (p, rest) ← field 20 bs
  if p != protocol then throw .invalidProtocol
  let (_, rest) ← field 8 rest
  field 20 rest

/-- Reads the peer id. -/
def readPeerId (bs : List UInt8) : Except Error (List UInt8 × List UInt8) :=
  field 20 bs

/-- What one side of a handshake did: the info hashes it asked about, the bytes it wrote, and
the remote's peer id and info hash, or the error. -/
structure Outcome where
  asked : List (List UInt8) := []
  written : List UInt8 := []
  result : Except Error (List UInt8 × List UInt8)
  deriving Repr

/-- The accepting side over a connection that delivers `remote` and then ends. -/
def accept (serves : List UInt8 → Bool) (ourId remote : List UInt8) : Outcome :=
  match readHeader remote with
  | .error e => { result := .error e }
  | .ok (ih, rest) =>
    if !serves ih then { asked := [ih], result := .error .invalidInfoHash }
    else
      let written := encode ih ourId
      match readPeerId rest with
      | .error e => { asked := [ih], written, result := .error e }
      | .ok (id, _) =>
        { asked := [ih], written,
          result := if id == ourId then .error .ownConnection else .ok (id, ih) }

/-- The dialing side over a connection that delivers `remote` and then ends. -/
def dial (infoHash ourId remote : List UInt8) : Outcome :=
  let written := encode infoHash ourId
  let result : Except Error (List UInt8 × List UInt8) := do
    let (ih, rest) ← readHeader remote
    if ih != infoHash then throw .invalidInfoHash
    let (id, _) ← readPeerId rest
    if id == ourId then throw .ownConnection
    pure (id, ih)
  { written, result }

end Handshake

end BitTorrent
