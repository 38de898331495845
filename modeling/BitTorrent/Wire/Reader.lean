import BitTorrent.Wire.Message
import BitTorrent.Storage.IoError

/-!
# Reading framed messages

The reader takes the bytes a peer sends and cuts them into messages. A frame is a 4-byte
big-endian length `L` and `L` bytes; `L = 0` is a keep-alive, otherwise the first byte is the
message id. Each kind checks its length: the four flag messages carry nothing, "have" four bytes,
"request" and "cancel" twelve, "piece" an 8-byte header and at most one block, and a bitfield
exactly one bit per piece, only as the first message. Frames with unknown ids are skipped.

A field that ends before any of its bytes arrived ends the stream (`IoError.eof`); one that ends
part way is `IoError.unexpectedEof`. The frames read here are the ones `Message.frame` writes.
-/

namespace BitTorrent

/-- Why the reader stopped. -/
inductive ReadError where
  /-- The stream ended, before a frame or within one. -/
  | io (e : IoError)
  /-- A flag message (choke, unchoke, interested, not interested) with a payload. -/
  | flagLength (id : MessageId) (n : UInt32)
  /-- A "have", "request" or "cancel" payload neither 4 nor 12 bytes long. -/
  | payloadLength (n : UInt32)
  /-- A 4- or 12-byte payload of the wrong size for its kind. -/
  | payload (e : PayloadError)
  /-- A bitfield after another message. -/
  | lateBitfield
  /-- A bitfield that does not have one bit per piece. -/
  | bitfieldLength (n : UInt32)
  /-- A piece message too short for its header. -/
  | pieceLength (n : UInt32)
  /-- A piece message carrying more than one block. -/
  | blockTooLarge (n : UInt32)
  deriving DecidableEq, Repr

namespace ReadError

/-- The text a read error is reported with. -/
def message : ReadError → String
  | io e => e.message
  | flagLength id n => "invalid " ++ id.name ++ " message length: " ++ toString n.toNat
  | payloadLength n => "invalid message length: " ++ toString n.toNat
  | payload e => e.message
  | lateBitfield => "bitfield can only be sent after handshake"
  | bitfieldLength n => "invalid bitfield length: " ++ toString n.toNat
  | pieceLength n => "invalid piece message length: " ++ toString n.toNat
  | blockTooLarge n =>
    "received a piece with block size larger than allowed (" ++ toString n.toNat ++ " > " ++
      toString blockSize.toNat ++ ")"

/-- The class of a read error: the kind of a stream error, "error" for the rest. -/
def kind : ReadError → String
  | io e => e.kind
  | _ => "error"

end ReadError

/-- The outcome of reading one frame. -/
inductive ReadStep where
  /-- A message, and the bytes after its frame. -/
  | message (m : Message) (rest : List UInt8)
  /-- A keep-alive or a frame of unknown id was skipped. -/
  | skip (rest : List UInt8)
  /-- The reader stops. -/
  | stop (e : ReadError)
  deriving Repr

namespace Reader

/-- Takes exactly `n` bytes from the front of the stream. -/
def readFull (n : Nat) (bs : List UInt8) : Except ReadError (List UInt8 × List UInt8) :=
  if n == 0 then .ok ([], bs)
  else if bs.isEmpty then .error (.io .eof)
  else if bs.length < n then .error (.io .unexpectedEof)
  else .ok (bs.take n, bs.drop n)

/-- The bitfield length, in bytes, for `numPieces` pieces, in 32-bit arithmetic. -/
def bitfieldBytes (numPieces : UInt32) : UInt32 :=
  (numPieces + 7) / 8

/-- Reads the body of a frame with id byte `id`, `len` bytes long after the id. -/
def body (numPieces : UInt32) (first : Bool) (id : UInt8) (len : UInt32) (bs : List UInt8) :
    ReadStep :=
  let done (r : Except ReadError (Message × List UInt8)) : ReadStep :=
    match r with
    | .ok (m, rest) => .message m rest
    | .error e => .stop e
  let flag (m : Message) : ReadStep :=
    if len != 0 then .stop (.flagLength m.id len) else .message m bs
  let request (mk : Request → Message) : ReadStep := done do
    if len != 4 && len != 12 then throw (.payloadLength len)
    let (p, rest) ← readFull len.toNat bs
    match Message.request? p with
    | .ok r => pure (mk r, rest)
    | .error e => throw (.payload e)
  match MessageId.ofCode? id with
  | some .choke => flag .choke
  | some .unchoke => flag .unchoke
  | some .interested => flag .interested
  | some .notInterested => flag .notInterested
  | some .has => done do
    if len != 4 && len != 12 then throw (.payloadLength len)
    let (p, rest) ← readFull len.toNat bs
    match Message.haveIndex? p with
    | .ok i => pure (.has i, rest)
    | .error e => throw (.payload e)
  | some .bitfield => done do
    if !first then throw .lateBitfield
    if len != bitfieldBytes numPieces then throw (.bitfieldLength len)
    let (d, rest) ← readFull len.toNat bs
    pure (.bitfield d, rest)
  | some .request => request .request
  | some .cancel => request .cancel
  | some .piece => done do
    if len < 8 then throw (.pieceLength len)
    let (h, rest) ← readFull 8 bs
    let (i, h') := (BigEndian.readUInt32? h).getD (0, [])
    let (b, _) := (BigEndian.readUInt32? h').getD (0, [])
    let n := len - 8
    if n > blockSize then throw (.blockTooLarge n)
    let (d, rest) ← readFull n.toNat rest
    pure (.piece i b d, rest)
  | none =>
    if bs.length < len.toNat then .stop (.io .eof) else .skip (bs.drop len.toNat)

/-- Reads one frame from the front of the stream; the stream ends after the given bytes. -/
def next (numPieces : UInt32) (first : Bool) (bs : List UInt8) : ReadStep :=
  match bs with
  | [] => .stop (.io .eof)
  | _ =>
    match BigEndian.readUInt32? bs with
    | none => .stop (.io .unexpectedEof)
    | some (len, rest) =>
      if len == 0 then .skip rest
      else match rest with
        | [] => .stop (.io .eof)
        | id :: tail => body numPieces first id (len - 1) tail

/-- Every frame of a stream: the messages in order and why reading stopped. `fuel` bounds the
number of frames; each frame takes at least four bytes, so the stream length is enough. -/
def readAllFuel (numPieces : UInt32) : Nat → Bool → List UInt8 → List Message × ReadError
  | 0, _, _ => ([], .io .eof)
  | fuel + 1, first, bs =>
    match next numPieces first bs with
    | .message m rest =>
      let (ms, e) := readAllFuel numPieces fuel false rest
      (m :: ms, e)
    | .skip rest => readAllFuel numPieces fuel first rest
    | .stop e => ([], e)

/-- Every message of a stream that ends after the given bytes, and why reading stopped. -/
def readAll (numPieces : UInt32) (bs : List UInt8) : List Message × ReadError :=
  readAllFuel numPieces (bs.length + 1) true bs

end Reader

end BitTorrent
