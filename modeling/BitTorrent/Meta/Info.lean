import BitTorrent.Bencode.Decode
import BitTorrent.Hash.Sha1
import BitTorrent.Text.Blank
import BitTorrent.Text.Path

/-!
# The info dictionary

The info dictionary describes the content of a torrent: the piece length, the SHA-1 hash of
every piece (20 bytes each, concatenated), a name, and either one length (a single file) or a
list of files with their lengths and paths. Its own hash names the torrent.

Reading checks, in order: the dictionary decodes; the piece length is not zero; the hashes fill
whole 20-byte entries; no path element is `..` (blank at the ends aside); no file length is
negative; and the pieces cover the total length with less than one piece to spare. Lengths are
64-bit and their sum wraps as such. Every piece has the piece length except the last, which has
what is left.
-/

namespace BitTorrent

/-- A file of a torrent: its length and the elements of its path. -/
structure FileEntry where
  length : Int64
  path : List (List UInt8)
  deriving DecidableEq, Repr

/-- A decoded and checked info dictionary. -/
structure Info where
  pieceLength : UInt32
  /-- The piece hashes, 20 bytes each. -/
  pieces : List UInt8
  /-- The exact bytes of the "private" entry, empty when absent. -/
  privacy : List UInt8
  name : List UInt8
  /-- The length of a single-file torrent. -/
  length : Int64
  /-- The files of a multi-file torrent. -/
  files : List FileEntry
  /-- The sum of the file lengths. -/
  totalLength : Int64
  numPieces : UInt32
  /-- The SHA-1 hash of the dictionary's bytes. -/
  hash : List UInt8
  /-- The bytes the dictionary was read from. -/
  bytes : List UInt8
  deriving Repr

/-- Why an info dictionary was rejected. -/
inductive InfoError where
  | decode (e : Bencode.DecodeError)
  | zeroPieceLength
  | invalidPieceData
  /-- A path with a `..` element, given joined. -/
  | invalidFileName (path : List UInt8)
  /-- A file of negative length, with its path joined. -/
  | negativeFileLength (path : List UInt8)
  deriving DecidableEq, Repr

namespace InfoError

/-- The text an info error is reported with. -/
def message : InfoError → String
  | decode e => e.message
  | zeroPieceLength => "zero piece length"
  | invalidPieceData => "invalid piece data"
  | invalidFileName p => "invalid file name: " ++ Quote.bytes p
  | negativeFileLength p => "negative file length: " ++ Quote.bytes p

/-- The class of an info error: the kind of a stream error, "error" for the rest. -/
def kind : InfoError → String
  | decode e => e.kind
  | _ => "error"

end InfoError

namespace Info

/-- The length of a hash entry. -/
def hashSize : Nat := 20

/-- Where the entries of a file go. -/
def fileTarget : Bencode.Target :=
  .record "metainfo.FileDict" [("length", .signed), ("path", .list .text)]

/-- Where the entries of an info dictionary go. The key `-` is the field that later holds the
dictionary's own bytes, so it takes a byte string or a list of bytes, and what it receives is
overwritten once the dictionary is read. -/
def target : Bencode.Target :=
  .record "metainfo.Info"
    [("piece length", .unsigned 32), ("pieces", .bytes), ("private", .raw), ("name", .text),
     ("length", .signed), ("files", .list fileTarget), ("-", .bytes)]

/-- A file entry from its decoded record. -/
def fileOf (v : Bencode.Value) : FileEntry :=
  { length := Int64.ofInt ((v.get? "length").getD (.int 0)).toInt,
    path := ((v.get? "path").getD (.list [])).toList.map (·.toBytes) }

/-- Whether a path element is `..` once blank runes are trimmed from its ends. -/
def isParent (e : List UInt8) : Bool :=
  Blank.trim e == [.char '.', .char '.']

/-- The sum of the file lengths, or the first file of negative length. -/
def sumLengths : List FileEntry → Except InfoError Int64
  | [] => .ok 0
  | f :: fs =>
    if f.length < 0 then .error (.negativeFileLength (Path.join f.path))
    else (f.length + ·) <$> sumLengths fs

/-- Reads and checks an info dictionary. -/
def ofBytes (b : List UInt8) : Except InfoError Info := do
  let d := Bencode.decode target b
  if let some e := d.error then throw (.decode e)
  let v := d.value
  let field (k : String) : Bencode.Value := (v.get? k).getD .null
  let pieceLength := (field "piece length").toInt.toNat.toUInt32
  let pieces := (field "pieces").toBytes
  let files := (field "files").toList.map fileOf
  if pieceLength == 0 then throw .zeroPieceLength
  if pieces.length.toUInt32 % hashSize.toUInt32 != 0 then throw .invalidPieceData
  for f in files do
    if f.path.any isParent then throw (.invalidFileName (Path.join f.path))
  let numPieces := pieces.length.toUInt32 / hashSize.toUInt32
  let length := Int64.ofInt (field "length").toInt
  let totalLength ← if files.isEmpty then pure length else sumLengths files
  let delta := Int64.ofNat (pieceLength.toNat * numPieces.toNat) - totalLength
  if delta ≥ Int64.ofNat pieceLength.toNat || delta < 0 then throw .invalidPieceData
  return { pieceLength, pieces, privacy := (field "private").toBytes,
           name := (field "name").toBytes, length, files, totalLength, numPieces,
           hash := Sha1.ofList b, bytes := b }

/-- Whether the torrent is a directory of files. -/
def multiFile (i : Info) : Bool :=
  !i.files.isEmpty

/-- The hash of piece `index`. -/
def pieceHash (i : Info) (index : UInt32) : List UInt8 :=
  (i.pieces.drop (index.toNat * hashSize)).take hashSize

/-- The length of piece `index`: the piece length, or what is left for the last piece. -/
def pieceLen (i : Info) (index : UInt32) : UInt32 :=
  if index == i.numPieces - 1 then
    (i.totalLength - Int64.ofNat i.pieceLength.toNat * Int64.ofNat index.toNat).toUInt64.toUInt32
  else i.pieceLength

/-- The files with paths from the storage root: a multi-file torrent is a directory named
after the torrent, a single-file torrent is one file of that name. -/
def getFiles (i : Info) : List FileEntry :=
  if i.multiFile then i.files.map fun f => { f with path := i.name :: f.path }
  else [{ length := i.length, path := [i.name] }]

end Info

end BitTorrent
