import BitTorrent.Resume.Store

/-!
# The resume database in a file

A database is kept in a file as one bencoded dictionary from top bucket names to dictionaries
from torrent ids to dictionaries of keys and values. An empty file holds the empty database;
bytes that do not read back as such a dictionary hold no database.
-/

namespace BitTorrent.Resume.Database

/-- The bytes of a database in its file. -/
def encode (db : Database) : List UInt8 :=
  let bucket := fun (b : Bucket) => Bencode.Value.dict (b.map fun (k, v) => (k, .str v))
  Bencode.encode (.dict (db.tops.map fun (t, ids) =>
    (t, .dict (ids.map fun (id, b) => (id, bucket b)))))

/-- The entries of a dictionary. -/
def entries : Bencode.Value → Option (List (List UInt8 × Bencode.Value))
  | .dict es => some es
  | _ => none

/-- The bytes of a byte string. -/
def bytes : Bencode.Value → Option (List UInt8)
  | .str b => some b
  | _ => none

/-- Reads a database back from the bytes of its file. -/
def decode (bs : List UInt8) : Option Database := do
  if bs.isEmpty then return {}
  let d := Bencode.decode .dynamic bs
  if d.error.isSome then none
  let tops ← entries d.value
  let tops ← tops.mapM fun (t, v) => do
    let ids ← entries v
    let ids ← ids.mapM fun (id, v) => do
      let kvs ← entries v
      let kvs ← kvs.mapM fun (k, v) => (bytes v).map (k, ·)
      return (id, kvs)
    return (t, ids)
  return { tops }

end BitTorrent.Resume.Database
