import BitTorrent.Disk.Error
import BitTorrent.Piece.Layout
import BitTorrent.Piece.Digest
import BitTorrent.Storage.FileStore
import BitTorrent.Storage.PieceCache
import BitTorrent.Bitfield

/-!
# A torrent's files on disk

The disk of a torrent opens its files in a store, in the torrent's file order, creating the
missing ones, and lays the pieces over them. It writes received blocks, keeps for each piece not
yet verified the blocks written to it, checks a piece against its digest, reads blocks for
uploads (through a piece cache when one is kept), and scans files that existed before for the
pieces already on disk.

A block must lie where the piece has a block: at a multiple of the block size and of that
block's length; anything else is an invalid block. A piece becomes complete at the write that
fills its last missing block; later writes to it report nothing new. A scan reads every piece in
order; a piece cut short by a missing or short file is absent, and any other read failure stops
the scan. Before each piece the scan checks its context, and stops, canceled, once the context
is done.
-/

namespace BitTorrent

/-- The disk of a torrent: the names of its open files by position, its pieces, whether any
file existed before, the written blocks of pieces not yet verified by piece index, and the
piece cache. -/
structure Disk where
  names : Array (List UInt8)
  pieces : Array PieceLayout
  found : Bool
  written : List (UInt32 × Bitfield) := []
  cache : Option PieceCache := none

namespace Disk

variable {σ : Type} (fs : FileStore σ)

/-- Closes the named files in order: the store after, and every failure. -/
def closeAll (st : σ) : List (List UInt8) → σ × List IoError
  | [] => (st, [])
  | n :: ns =>
    let (f, e) := (fs.get st n).close
    let (st, es) := closeAll (fs.put st n f) ns
    (st, e.toList ++ es)

/-- Opens the given files in order: the names opened and whether any existed, or the failure
once the files opened before it are closed again. -/
def openAll (st : σ) (acc : Array (List UInt8)) (found : Bool) :
    List FileEntry → Except IoError (Array (List UInt8) × Bool) × σ
  | [] => (.ok (acc, found), st)
  | f :: rest =>
    let name := Path.join f.path
    match fs.openFile st name f.length with
    | (.error e, st) => (.error e, (closeAll fs st acc.toList).1)
    | (.ok ex, st) => openAll st (acc.push name) (found || ex) rest

/-- Opens the files of a torrent in the store, with a cache of `cachePieces` pieces when that is
positive. -/
def create (info : Info) (cachePieces : Int) (st : σ) : Except Error Disk × σ :=
  match openAll fs st #[] false info.getFiles with
  | (.error e, st) => (.error ⟨.opening, 0, e⟩, st)
  | (.ok (names, found), st) =>
    let cache := if cachePieces > 0 then some { capacity := cachePieces.toNat } else none
    (.ok { names, pieces := (info.layout info.numPieces.toNat).toArray, found, cache }, st)

/-- The file at position `k` of the disk. -/
def file (d : Disk) (st : σ) (k : Nat) : MemFile :=
  fs.get st (d.names.getD k [])

/-- Reads the whole of a piece: the bytes read, and the failure. -/
def readPiece (d : Disk) (st : σ) (p : PieceLayout) : List UInt8 × Option IoError :=
  Sections.readAt (d.file fs st) p.sections 0 p.length.toNat

/-- The written blocks of piece `i`. -/
def writtenOf (d : Disk) (i : UInt32) : Option Bitfield :=
  (d.written.find? (·.1 == i)).map (·.2)

/-- Records the written blocks of piece `i`, keeping the pieces in index order. -/
def putWritten (i : UInt32) (bf : Bitfield) : List (UInt32 × Bitfield) → List (UInt32 × Bitfield)
  | [] => [(i, bf)]
  | (j, b) :: rest =>
    if j == i then (i, bf) :: rest
    else if i < j then (i, bf) :: (j, b) :: rest
    else (j, b) :: putWritten i bf rest

/-- Marks block `k` of piece `p` as written: the disk after, and whether the piece became
complete by it. -/
def markWritten (d : Disk) (p : PieceLayout) (k : UInt32) : Bool × Disk :=
  let bf := (d.writtenOf p.index).getD (Bitfield.new p.numBlocks)
  let before := bf.all
  let bf := bf.insert k
  (!before && bf.all, { d with written := putWritten p.index bf d.written })

/-- Writes the block at `begin` of piece `index`: whether the piece became complete. -/
def writeBlock (d : Disk) (st : σ) (index begin : UInt32) (data : List UInt8) :
    Except Failure Bool × Disk × σ :=
  match d.pieces[index.toNat]? with
  | none => (.error .invalidBlock, d, st)
  | some p =>
    match Block.find? p.length begin data.length.toUInt32 with
    | none => (.error .invalidBlock, d, st)
    | some blk =>
      match Sections.slice p.sections (Int64.ofNat begin.toNat) (Int64.ofNat data.length) with
      | .error _ => (.error .invalidBlock, d, st)
      | .ok secs =>
        let get := fun (st : σ) k => d.file fs st k
        let put := fun (st : σ) k f => fs.put st (d.names.getD k []) f
        match Sections.writeAt get put st secs data 0 with
        | (st, _, some e) => (.error (.disk ⟨.writing, index, e⟩), d, st)
        | (st, _, none) =>
          let (complete, d) := d.markWritten p blk.index
          (.ok complete, d, st)

/-- Marks the block at `begin` of piece `index` as written without writing it; false when no
block starts there. -/
def restoreBlock (d : Disk) (index begin : UInt32) : Bool × Disk :=
  match d.pieces[index.toNat]? with
  | none => (false, d)
  | some p =>
    let k := begin / blockSize
    if begin % blockSize != 0 || k ≥ p.numBlocks then (false, d)
    else (true, (d.markWritten p k).2)

/-- The indexes of the written blocks of every piece not yet verified, by piece index. -/
def writtenBlocks (d : Disk) : List (UInt32 × List UInt32) :=
  d.written.map fun (i, bf) => (i, bf.indexes)

/-- Forgets the written blocks of piece `index`. -/
def resetPiece (d : Disk) (index : UInt32) : Disk :=
  { d with written := d.written.filter (·.1 != index) }

/-- Reads piece `index` and checks its digest; a piece that matches has its written blocks
forgotten. An index past the last piece is a fault. -/
def verifyPiece (d : Disk) (st : σ) (index : UInt32) : Except Fault (Except Error Bool × Disk) := do
  let p ← Fault.get d.pieces index.toNat
  match d.readPiece fs st p with
  | (_, some e) => return (.error ⟨.reading, index, e⟩, d)
  | (data, none) =>
    if Piece.hashMatches p.length p.hash data then return (.ok true, d.resetPiece index)
    else return (.ok false, d)

/-- Loads the whole of piece `p` for the cache: its bytes, or the error reading it. -/
def loadWhole (d : Disk) (st : σ) (p : PieceLayout) : Except IoError (List UInt8) :=
  match d.readPiece fs st p with
  | (_, some e) => .error e
  | (data, none) => .ok data

/-- Reads `length` bytes at `begin` of piece `index`, from the cache when one is kept. -/
def readBlock (d : Disk) (st : σ) (index begin : UInt32) (length : Nat) :
    Except Failure (List UInt8) × Disk :=
  match d.pieces[index.toNat]? with
  | none => (.error .invalidBlock, d)
  | some p =>
    if begin.toNat + length > p.length.toNat then (.error .invalidBlock, d)
    else match d.cache with
      | some c =>
        let (r, _, c) := c.get index fun _ => d.loadWhole fs st p
        let d := { d with cache := some c }
        match r with
        | .error e => (.error (.disk ⟨.reading, index, e⟩), d)
        | .ok data => (.ok ((data.drop begin.toNat).take length), d)
      | none =>
        match Sections.slice p.sections (Int64.ofNat begin.toNat) (Int64.ofNat length) with
        | .error _ => (.error .invalidBlock, d)
        | .ok secs =>
          match Sections.readAll (d.file fs st) secs with
          | (_, some e) => (.error (.disk ⟨.reading, index, e⟩), d)
          | (data, none) => (.ok data, d)

/-- Reads `length` bytes at offset `off` of piece `index`; the offset must fit 32 bits. -/
def pieceRead (d : Disk) (st : σ) (index : UInt32) (off : Int) (length : Nat) :
    Except Failure (List UInt8) × Disk :=
  if off < 0 || off > 4294967295 then (.error .invalidBlock, d)
  else d.readBlock fs st index off.toNat.toUInt32 length

/-- What a scan sees of its context: the context is done from the check before the piece at
position `k` of the scan on, or never. A context that is done stays done. -/
structure Context where
  doneFrom : Option Nat := none
  deriving DecidableEq, Repr

namespace Context

/-- Whether the context is done when the scan is about to read the piece at position `k`. -/
def doneAt (c : Context) (k : Nat) : Bool :=
  c.doneFrom.any (· ≤ k)

/-- A context canceled before the scan starts, or never. -/
@[coe] def ofCanceled (canceled : Bool) : Context :=
  { doneFrom := if canceled then some 0 else none }

instance : Coe Bool Context := ⟨ofCanceled⟩

end Context

/-- Checks the pieces from `ps` on, the first of them at position `k` of the scan, setting those
found intact: the bitfield, or the failure that stopped the scan, and the counts of pieces
checked after each piece. The context is checked before each piece is read. -/
def scanFrom (d : Disk) (st : σ) (ctx : Context) (bf : Bitfield) (k : Nat) :
    List PieceLayout → Except Failure Bitfield × List UInt32
  | [] => (.ok bf, [])
  | p :: ps =>
    if ctx.doneAt k then (.error .canceled, [])
    else match d.readPiece fs st p with
    | (_, some .eof) | (_, some .unexpectedEof) =>
      let (r, prog) := scanFrom d st ctx bf (k + 1) ps
      (r, (p.index + 1) :: prog)
    | (_, some e) => (.error (.disk ⟨.reading, p.index, e⟩), [])
    | (data, none) =>
      let bf := if Piece.hashMatches p.length p.hash data then bf.insert p.index else bf
      let (r, prog) := scanFrom d st ctx bf (k + 1) ps
      (r, (p.index + 1) :: prog)

/-- Scans the files for pieces already on disk; nothing is read when no file existed before.
The scan stops, canceled, at the first piece before which it finds its context done. -/
def scan (d : Disk) (st : σ) (ctx : Context) : Except Failure Bitfield × List UInt32 :=
  let bf := Bitfield.new d.pieces.size.toUInt32
  if !d.found || d.pieces.isEmpty then (.ok bf, [])
  else scanFrom fs d st ctx bf 0 d.pieces.toList

/-- Closes the files, emptying the cache: the failures of every file are reported together. -/
def close (d : Disk) (st : σ) : Option Error × Disk × σ :=
  let d := { d with cache := d.cache.map PieceCache.clear }
  match closeAll fs st d.names.toList with
  | (st, []) => (none, d, st)
  | (st, es) => (some ⟨.closing, 0, IoError.combine es⟩, d, st)

end Disk

end BitTorrent
