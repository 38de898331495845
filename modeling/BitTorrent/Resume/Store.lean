import BitTorrent.Bencode.Decode
import BitTorrent.Bencode.Encode
import BitTorrent.Text.Timestamp

/-!
# Resume state in a bucketed key-value database

A torrent's resume state is kept in a database of named buckets. A top bucket holds one bucket
per torrent, named after the torrent's id, and that bucket maps fixed keys to bytes: the info
hash, the destination, the bitfield of verified pieces, the blocks written for pieces not yet
verified (bencoded), the time the torrent was added (RFC 3339 text) and three counters
(decimal text).

Writing the whole state creates the torrent's bucket; writing the bitfield or the counters
changes a bucket that exists and does nothing otherwise. Reading finds nothing when the
torrent has no bucket, and fails when the bucket has no info hash or a value cannot be read
back. A bucket needs a name: an empty top bucket name makes opening fail, and an empty torrent
id makes a full write fail.
-/

namespace BitTorrent.Resume

/-- The offsets of the blocks written for a piece that is not verified yet. -/
structure PartialPiece where
  index : UInt32
  blocks : List UInt32
  deriving DecidableEq, Repr

/-- The counters of a torrent. -/
structure Counters where
  downloaded : Int := 0
  uploaded : Int := 0
  wasted : Int := 0
  deriving DecidableEq, Repr

/-- The state saved for a torrent. -/
structure Spec where
  infoHash : List UInt8 := []
  dest : List UInt8 := []
  /-- The bitfield of verified pieces, absent when never written. -/
  bitfield : Option (List UInt8) := none
  pending : List PartialPiece := []
  addedAt : Timestamp := {}
  counters : Counters := {}
  deriving DecidableEq, Repr

/-- A bucket's bindings, in the order they were first made. -/
abbrev Bucket := List (List UInt8 × List UInt8)

/-- The database: top buckets, each holding a bucket per torrent. -/
structure Database where
  tops : List (List UInt8 × List (List UInt8 × Bucket)) := []
  deriving Repr

/-- The text of an empty bucket name. -/
def nameRequired : String := "bucket name required"

/-- The text of an empty key. -/
def keyRequired : String := "key required"

/-- The key of each part of the state. -/
def keyOf (k : String) : List UInt8 :=
  k.toUTF8.toList

/-- Replaces the binding of `k`, or adds it last. -/
def bind {α : Type} (xs : List (List UInt8 × α)) (k : List UInt8) (v : α) :
    List (List UInt8 × α) :=
  if xs.any (·.1 == k) then xs.map fun e => if e.1 == k then (k, v) else e else xs ++ [(k, v)]

namespace Database

/-- The buckets of top bucket `top`, if it exists. -/
def top? (db : Database) (top : List UInt8) : Option (List (List UInt8 × Bucket)) :=
  db.tops.lookup top

/-- The bucket of torrent `id` under `top`, if it exists. -/
def bucket? (db : Database) (top id : List UInt8) : Option Bucket :=
  (db.top? top).bind (·.lookup id)

/-- Creates top bucket `top` unless it exists. -/
def createTop (db : Database) (top : List UInt8) : Except String Database :=
  if top.isEmpty then .error nameRequired
  else if (db.top? top).isSome then .ok db
  else .ok { tops := db.tops ++ [(top, [])] }

/-- Sets the bucket of torrent `id` under an existing top bucket. -/
def setBucket (db : Database) (top id : List UInt8) (b : Bucket) : Database :=
  { tops := bind db.tops top (bind ((db.top? top).getD []) id b) }

/-- Creates the bucket of torrent `id` under `top`, both unless they exist, and answers it. -/
def createBucket (db : Database) (top id : List UInt8) : Except String (Bucket × Database) := do
  let db ← db.createTop top
  if id.isEmpty then throw nameRequired
  match db.bucket? top id with
  | some b => pure (b, db)
  | none => pure ([], db.setBucket top id [])

/-- Binds `key` to `value` in the bucket of torrent `id`, creating the buckets. -/
def put (db : Database) (top id key value : List UInt8) : Except String Database := do
  let (b, db) ← db.createBucket top id
  if key.isEmpty then throw keyRequired
  pure (db.setBucket top id (bind b key value))

/-- Removes `key` from the bucket of torrent `id`, creating the buckets. -/
def delete (db : Database) (top id key : List UInt8) : Except String Database := do
  let (b, db) ← db.createBucket top id
  pure (db.setBucket top id (b.filter (·.1 != key)))

end Database

/-- Why saved state could not be read back. -/
inductive ReadError where
  /-- The bucket has no value for a required key. -/
  | missing (key : String)
  | pending (e : Bencode.DecodeError)
  | addedAt (value : List UInt8) (e : Timestamp.ParseFault)
  | counter (e : NumeralError)
  deriving Repr

namespace ReadError

/-- The text a read error is reported with. -/
def message : ReadError → String
  | missing k => "key not found: \"" ++ k ++ "\""
  | pending e => e.message
  | addedAt v e => e.message v
  | counter e => e.message

/-- The class of a read error: the kind of a stream error, "error" for the rest. -/
def kind : ReadError → String
  | pending e => e.kind
  | _ => "error"

end ReadError

/-- Where the pieces not yet verified are decoded into. -/
def pendingTarget : Bencode.Target :=
  .list (.record "resumer.PartialPiece" [("index", .unsigned 32), ("blocks", .list (.unsigned 32))])

/-- The bencoding of the pieces not yet verified: a list of dictionaries with sorted keys. -/
def encodePending (ps : List PartialPiece) : List UInt8 :=
  Bencode.encode (.list (ps.map fun p =>
    .dict [(Bencode.key "blocks", .list (p.blocks.map fun b => .int b.toNat)),
      (Bencode.key "index", .int p.index.toNat)]))

/-- A decoded piece not yet verified. -/
def pieceOf (v : Bencode.Value) : PartialPiece :=
  { index := ((v.get? "index").map Bencode.Value.toInt).getD 0 |>.toNat.toUInt32,
    blocks := (((v.get? "blocks").map Bencode.Value.toList).getD []).map
      fun b => b.toInt.toNat.toUInt32 }

/-- Reads back the pieces not yet verified. -/
def decodePending (bs : List UInt8) : Except ReadError (List PartialPiece) :=
  let d := Bencode.decode pendingTarget bs
  match d.error with
  | some e => .error (.pending e)
  | none => .ok (d.value.toList.map pieceOf)

/-- The bindings of the counters. -/
def counterBindings (c : Counters) : List (String × Int) :=
  [("bytes_downloaded", c.downloaded), ("bytes_uploaded", c.uploaded),
    ("bytes_wasted", c.wasted)]

/-- Writes the counters into a bucket. -/
def putCounters (b : Bucket) (c : Counters) : Bucket :=
  (counterBindings c).foldl (fun b (k, v) => bind b (keyOf k) (Decimal.intNumeral v)) b

/-- Reads a counter, which keeps its value when the bucket has none. -/
def readCounter (b : Bucket) (k : String) (v : Int) : Except ReadError Int :=
  match b.lookup (keyOf k) with
  | none => .ok v
  | some t => (Decimal.readSigned 64 t).mapError .counter

/-- Reads the state saved in a torrent's bucket. -/
def readBucket (b : Bucket) : Except ReadError Spec := do
  let some infoHash := b.lookup (keyOf "info_hash") | throw (.missing "info_hash")
  let dest := (b.lookup (keyOf "dest")).getD []
  let bitfield := b.lookup (keyOf "bitfield")
  let pending ← match b.lookup (keyOf "partial") with
    | some v => if v.isEmpty then pure [] else decodePending v
    | none => pure []
  let addedAt ← match b.lookup (keyOf "added_at") with
    | some v => (Timestamp.parse v).mapError (.addedAt v)
    | none => pure {}
  let downloaded ← readCounter b "bytes_downloaded" 0
  let uploaded ← readCounter b "bytes_uploaded" 0
  let wasted ← readCounter b "bytes_wasted" 0
  pure { infoHash, dest, bitfield, pending, addedAt, counters := { downloaded, uploaded, wasted } }

/-- The resume state of one torrent: the top bucket and the torrent's id. -/
structure Resumer where
  top : List UInt8
  id : List UInt8
  deriving DecidableEq, Repr

namespace Resumer

/-- Opens the resume state of torrent `id` under `top`, creating the top bucket. -/
def create (db : Database) (top id : List UInt8) : Except String (Resumer × Database) :=
  (db.createTop top).map fun db => (⟨top, id⟩, db)

/-- Writes the whole state, creating the torrent's bucket. -/
def write (r : Resumer) (db : Database) (s : Spec) : Except String Database := do
  let (b, db) ← db.createBucket r.top r.id
  let b := bind b (keyOf "info_hash") s.infoHash
  let b := bind b (keyOf "dest") s.dest
  let b := bind b (keyOf "bitfield") (s.bitfield.getD [])
  let b := bind b (keyOf "partial") (encodePending s.pending)
  let b := bind b (keyOf "added_at") (s.addedAt.format false).toUTF8.toList
  pure (db.setBucket r.top r.id (putCounters b s.counters))

/-- Writes the bitfield and the pieces not yet verified, when the torrent has a bucket. -/
def writeBitfield (r : Resumer) (db : Database) (bf : List UInt8) (ps : List PartialPiece) :
    Database :=
  match db.bucket? r.top r.id with
  | none => db
  | some b =>
    db.setBucket r.top r.id (bind (bind b (keyOf "bitfield") bf) (keyOf "partial")
      (encodePending ps))

/-- Writes the counters, when the torrent has a bucket. -/
def writeCounters (r : Resumer) (db : Database) (c : Counters) : Database :=
  match db.bucket? r.top r.id with
  | none => db
  | some b => db.setBucket r.top r.id (putCounters b c)

/-- Reads the saved state: none when the torrent has no bucket. -/
def read (r : Resumer) (db : Database) : Except ReadError (Option Spec) :=
  match db.bucket? r.top r.id with
  | none => .ok none
  | some b => some <$> readBucket b

end Resumer

end BitTorrent.Resume
