import BitTorrent.Bytes.BigEndian
import BitTorrent.Piece.Block

/-!
# Messages of the peer protocol

After the handshake, peers exchange messages framed as a 4-byte big-endian length, an id byte and
a payload. This module holds the message ids, the messages and their payloads. Main statement:
decoding the payload of a request gives the request back.
-/

namespace BitTorrent

/-- The kinds of messages, by their id byte. -/
inductive MessageId where
  | choke
  | unchoke
  | interested
  | notInterested
  | has
  | bitfield
  | request
  | piece
  | cancel
  deriving DecidableEq, Repr, Inhabited

namespace MessageId

/-- The id byte of a message kind. -/
def code : MessageId → UInt8
  | choke => 0
  | unchoke => 1
  | interested => 2
  | notInterested => 3
  | has => 4
  | bitfield => 5
  | request => 6
  | piece => 7
  | cancel => 8

/-- The message kind of an id byte, if it has one. -/
def ofCode? (b : UInt8) : Option MessageId :=
  [choke, unchoke, interested, notInterested, has, bitfield, request, piece, cancel].find?
    (·.code == b)

/-- The word for a message kind. -/
def name : MessageId → String
  | choke => "choke"
  | unchoke => "unchoke"
  | interested => "interested"
  | notInterested => "not interested"
  | has => "have"
  | bitfield => "bitfield"
  | request => "request"
  | piece => "piece"
  | cancel => "cancel"

/-- The text of an id byte: the word of its kind, or the byte in decimal. -/
def describe (b : UInt8) : String :=
  match ofCode? b with
  | some k => k.name
  | none => toString b.toNat

theorem ofCode?_code (k : MessageId) : ofCode? k.code = some k := by
  cases k <;> decide

end MessageId

/-- A message of the peer protocol. -/
inductive Message where
  | choke
  | unchoke
  | interested
  | notInterested
  | has (index : UInt32)
  | bitfield (data : List UInt8)
  | request (r : Request)
  | piece (index begin : UInt32) (data : List UInt8)
  | cancel (r : Request)
  deriving DecidableEq, Repr, Inhabited

/-- Why a payload cannot be read as a message of its kind. -/
inductive PayloadError where
  | invalidLength
  deriving DecidableEq, Repr

/-- The text a payload error is reported with. -/
def PayloadError.message : PayloadError → String
  | .invalidLength => "invalid message length"

namespace Message

/-- The kind of a message. -/
def id : Message → MessageId
  | choke => .choke
  | unchoke => .unchoke
  | interested => .interested
  | notInterested => .notInterested
  | has _ => .has
  | bitfield _ => .bitfield
  | request _ => .request
  | piece .. => .piece
  | cancel _ => .cancel

/-- The twelve payload bytes of a request or cancel. -/
def requestBytes (r : Request) : List UInt8 :=
  BigEndian.ofUInt32 r.index ++ BigEndian.ofUInt32 r.begin ++ BigEndian.ofUInt32 r.length

/-- The payload of a message: what follows the id byte. -/
def payload : Message → List UInt8
  | has i => BigEndian.ofUInt32 i
  | bitfield d => d
  | request r => requestBytes r
  | piece i b d => BigEndian.ofUInt32 i ++ BigEndian.ofUInt32 b ++ d
  | cancel r => requestBytes r
  | _ => []

/-- A message as written on the wire: length, id byte, payload. -/
def frame (m : Message) : List UInt8 :=
  BigEndian.ofUInt32 (m.payload.length + 1).toUInt32 ++ m.id.code :: m.payload

/-- Reads the payload of a "have" message. -/
def haveIndex? (p : List UInt8) : Except PayloadError UInt32 :=
  match p with
  | [a, b, c, d] => .ok (BigEndian.word a b c d)
  | _ => .error .invalidLength

/-- Reads the payload of a "request" or "cancel" message. -/
def request? (p : List UInt8) : Except PayloadError Request :=
  match p with
  | [a0, a1, a2, a3, b0, b1, b2, b3, c0, c1, c2, c3] =>
    .ok ⟨BigEndian.word a0 a1 a2 a3, BigEndian.word b0 b1 b2 b3, BigEndian.word c0 c1 c2 c3⟩
  | _ => .error .invalidLength

theorem request?_requestBytes (r : Request) : request? (requestBytes r) = .ok r := by
  simp [requestBytes, request?, BigEndian.ofUInt32, BigEndian.word_ofUInt32]

end Message

end BitTorrent
