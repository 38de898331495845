import BitTorrent.Storage.MemFile

/-!
# Sections of files

A run of content stored across files is a list of sections, each a range of one file named by
its index. Slicing cuts out the sections covering a range of the run; reading and writing a
range go section by section, and stop at the first section that fails or comes short. Lengths
and offsets are 64-bit and wrap as such, also in the bound check of a slice.
-/

namespace BitTorrent

/-- A range of one file. -/
structure Section where
  fileIndex : Nat
  name : List UInt8
  offset : Int64
  length : Int64
  deriving DecidableEq, Repr

namespace Sections

/-- The total length of the sections. -/
def length (ss : List Section) : Int64 :=
  ss.foldl (fun n s => n + s.length) 0

/-- The sections covering `length` bytes from `off`, once the range is known to fit. -/
def cut : List Section → Int64 → Int64 → List Section
  | [], _, _ => []
  | s :: rest, off, length =>
    if length == 0 then []
    else if off ≥ s.length then cut rest (off - s.length) length
    else
      let n := if s.length - off > length then length else s.length - off
      { s with offset := s.offset + off, length := n } :: cut rest 0 (length - n)

/-- The sections covering the range of `length` bytes at `off`. -/
def slice (ss : List Section) (off length : Int64) : Except IoError (List Section) :=
  if off < 0 || length < 0 || off + length > Sections.length ss then .error .outOfRange
  else .ok (cut ss off length)

/-- The distinct files the sections touch, sections of length zero aside, as runs. -/
def fileIndexes (ss : List Section) : List Nat :=
  ss.foldl (fun acc s =>
    if s.length == 0 then acc
    else if acc.getLast? == some s.fileIndex then acc
    else acc ++ [s.fileIndex]) []

/-- Reads the given sections in order, each from its file as `file` gives it: the bytes read,
and the failure. A section that finds fewer bytes than its length ends the data part way. -/
def readAll (file : Nat → MemFile) : List Section → List UInt8 × Option IoError
  | [] => ([], none)
  | s :: rest =>
    let want := s.length.toInt.toNat
    let (got, err) := (file s.fileIndex).readAt s.offset.toInt.toNat want
    if got.length == want then
      let (more, err') := readAll file rest
      (got ++ more, err')
    else
      (got, some (match err with
        | none => .unexpectedEof
        | some .eof => .unexpectedEof
        | some e => e))

/-- Reads `n` bytes at `off`. -/
def readAt (file : Nat → MemFile) (ss : List Section) (off : Int64) (n : Nat) :
    List UInt8 × Option IoError :=
  match slice ss off (Int64.ofNat n) with
  | .error e => ([], some e)
  | .ok parts => readAll file parts

/-- Writes `p` over the given sections in order, into files kept in a store `σ` that `get`
reads and `put` updates: the store after, the bytes stored, and the failure. A section that
stores fewer bytes than its length is a short write. -/
def writeAll {σ : Type} (get : σ → Nat → MemFile) (put : σ → Nat → MemFile → σ) (st : σ)
    (p : List UInt8) : List Section → σ × Nat × Option IoError
  | [] => (st, 0, none)
  | s :: rest =>
    let len := s.length.toInt.toNat
    let (f, m, err) := (get st s.fileIndex).writeAt (p.take len) s.offset.toInt.toNat
    let st := put st s.fileIndex f
    match err with
    | some e => (st, m, some e)
    | none =>
      if m < len then (st, m, some .shortWrite)
      else
        let (st, n, err) := writeAll get put st (p.drop m) rest
        (st, m + n, err)

/-- Writes `p` at `off`. -/
def writeAt {σ : Type} (get : σ → Nat → MemFile) (put : σ → Nat → MemFile → σ) (st : σ)
    (ss : List Section) (p : List UInt8) (off : Int64) : σ × Nat × Option IoError :=
  match slice ss off (Int64.ofNat p.length) with
  | .error e => (st, 0, some e)
  | .ok parts => writeAll get put st p parts

end Sections

end BitTorrent
