import BitTorrent.Meta.Info
import BitTorrent.Bencode.Encode

/-!
# Making an info dictionary

A new info dictionary is made from a name, the files and a piece length: the content of the
files, read in order, is cut into pieces and each piece hashed. A single file without a path
is written as the torrent's one length, anything else as its list of files. Entries that are
zero or empty are left out, except the name, the piece length and the hashes.
-/

namespace BitTorrent

/-- Why a new info dictionary could not be made. -/
inductive BuildError where
  | zeroPieceLength
  /-- The content ended before the files' total length. -/
  | io (e : IoError)
  deriving DecidableEq, Repr

namespace BuildError

/-- The text a build error is reported with. -/
def message : BuildError → String
  | zeroPieceLength => "zero piece length"
  | io e => e.message

/-- The class of a build error. -/
def kind : BuildError → String
  | zeroPieceLength => "error"
  | io e => e.kind

end BuildError

namespace Info

/-- The hashes of the pieces of the next `left` bytes of `data`, pieces `pl` bytes long. A
piece that finds no data ends the content; one that finds part of its data ends it part way.
Every piece takes at least one byte, so `fuel` one above the data length is enough. -/
def hashPieces (pl : Nat) : Nat → Int64 → List UInt8 → Except IoError (List UInt8)
  | 0, _, _ => .error .eof
  | fuel + 1, left, data =>
    if left ≤ 0 then .ok []
    else
      let n := min pl left.toInt.toNat
      if data.isEmpty then .error .eof
      else if data.length < n then .error .unexpectedEof
      else (Sha1.ofList (data.take n) ++ ·) <$>
        hashPieces pl fuel (left - Int64.ofNat n) (data.drop n)

/-- The bencoded entry of a file. -/
def fileValue (f : FileEntry) : Bencode.Value :=
  Bencode.sortedDict
    [(Bencode.key "length", .int f.length.toInt), (Bencode.key "path", .list (f.path.map .str))]

/-- The bencoded info dictionary of a torrent named `name` with the given files, piece length
and content. -/
def build (name : List UInt8) (files : List FileEntry) (pieceLength : UInt32)
    (content : List UInt8) : Except BuildError (List UInt8) := do
  if pieceLength == 0 then throw .zeroPieceLength
  let total := files.foldl (fun acc f => acc + f.length) 0
  let pieces ← match hashPieces pieceLength.toNat (content.length + 1) total content with
    | .ok p => pure p
    | .error e => throw (.io e)
  let (length, list) := match files with
    | [f] => if f.path.isEmpty then (f.length, []) else (0, files)
    | _ => (0, files)
  let entries : List (List UInt8 × Bencode.Value) :=
    [(Bencode.key "piece length", .int pieceLength.toNat), (Bencode.key "pieces", .str pieces),
     (Bencode.key "name", .str name)] ++
    (if length != 0 then [(Bencode.key "length", .int length.toInt)] else []) ++
    (if list.isEmpty then [] else [(Bencode.key "files", .list (list.map fileValue))])
  return Bencode.encode (Bencode.sortedDict entries)

end Info

end BitTorrent
