import BitTorrent.Meta.Info
import BitTorrent.Piece.Block
import BitTorrent.Storage.Section

/-!
# Pieces laid over files

The content of a torrent is its files one after another, cut into pieces. A piece covers one
or more sections: a range of one file, named by the file's position and its joined path.
Files of length zero, and files already used up, are passed over.
-/

namespace BitTorrent

/-- A piece with the file ranges it covers. -/
structure PieceLayout where
  index : UInt32
  length : UInt32
  hash : List UInt8
  sections : List Section
  deriving Repr

namespace Layout

/-- A position in the content: the files not yet used up, with their indexes, and the offset
into the first of them. -/
structure Cursor where
  files : List (Nat × FileEntry)
  offset : Int64

/-- Takes `left` bytes from the cursor on: the sections, and the cursor after them. -/
def take (left : Int64) : List (Nat × FileEntry) → Int64 → List Section × Cursor
  | [], off => ([], ⟨[], off⟩)
  | (k, f) :: fs, off =>
    let fileLeft := f.length - off
    if left ≤ 0 then ([], ⟨(k, f) :: fs, off⟩)
    else if fileLeft == 0 then take left fs 0
    else
      let n := if left < fileLeft then left else fileLeft
      let s : Section := ⟨k, Path.join f.path, off, n⟩
      if n == left then ([s], ⟨(k, f) :: fs, off + n⟩)
      else
        let (ss, c) := take (left - n) fs 0
        (s :: ss, c)

/-- The first `count` pieces of a torrent, from the cursor on. -/
def pieces (info : Info) : Nat → UInt32 → Cursor → List PieceLayout
  | 0, _, _ => []
  | count + 1, i, c =>
    if i ≥ info.numPieces then []
    else
      let len := info.pieceLen i
      let (ss, c') := take (Int64.ofNat len.toNat) c.files c.offset
      ⟨i, len, info.pieceHash i, ss⟩ :: pieces info count (i + 1) c'

end Layout

/-- The first `count` pieces of a torrent with the file ranges each covers. -/
def Info.layout (info : Info) (count : Nat) : List PieceLayout :=
  let files := info.getFiles
  Layout.pieces info count 0 ⟨files.zipIdx.map fun (f, k) => (k, f), 0⟩

/-- The number of blocks of a piece. -/
def PieceLayout.numBlocks (p : PieceLayout) : UInt32 :=
  Block.count p.length

end BitTorrent
