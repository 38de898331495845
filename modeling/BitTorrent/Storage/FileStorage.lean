import BitTorrent.Storage.FileTree

/-!
# Torrent files in a directory

The files of a torrent are kept under a destination directory. Opening a name cleans it and
places it under the destination, making the directories above it. A file that exists is opened
as it is, so that a partly written file reads short when the pieces are checked; a new one is
created and sized to the length asked for. An open file is read and written at offsets, and
can be closed once.
-/

namespace BitTorrent

/-- Storage under a destination directory, given as a path below the root. -/
structure FileStorage where
  dest : PathParts
  /-- How the root is written in failures. -/
  shown : String
  deriving Repr

/-- An open file: the path of the file itself, the path it was opened by, and whether it was
closed. -/
structure OpenFile where
  target : PathParts
  shown : String
  closed : Bool := false
  deriving Repr

namespace FileStorage

/-- Applies `..` and `.` components from the root on; none when the path would leave the root. -/
def normalize : PathParts → PathParts → Option PathParts
  | acc, [] => some acc.reverse
  | acc, c :: rest =>
    if c == "." then normalize acc rest
    else if c == ".." then
      match acc with
      | [] => none
      | _ :: up => normalize up rest
    else normalize (c :: acc) rest

/-- The path below the root a name is kept at, or none when it would leave the root. -/
def place (s : FileStorage) (name : String) : Option PathParts :=
  normalize s.dest.reverse (FileTree.split name)

/-- How a path below the root is written. -/
def showPath (s : FileStorage) (p : PathParts) : String :=
  s.shown ++ String.join (p.map ("/" ++ ·))

/-- Opens the file kept at path `p`: the open file and whether it existed before, or the
failure. A new file is sized to `size`; when sizing fails the file stays, empty. -/
def openAt (s : FileStorage) (t : FileTree) (p : PathParts) (size : Int) :
    Except PathError (OpenFile × Bool) × FileTree :=
  let shown := s.showPath p
  match FileTree.mkdirAll s.shown (p.length + 1) t p.dropLast with
  | .error e => (.error e, t)
  | .ok t =>
    match t.openFile p false with
    | .ok (q, _, t) => (.ok (⟨q, shown, false⟩, true), t)
    | .error .noEntry =>
      match t.openFile p true with
      | .error e => (.error ⟨"open", shown, e⟩, t)
      | .ok (q, _, t) =>
        match t.truncate q size with
        | .error e => (.error ⟨"truncate", shown, e⟩, t)
        | .ok t => (.ok (⟨q, shown, false⟩, false), t)
    | .error e => (.error ⟨"open", shown, e⟩, t)

end FileStorage

/-- Why a read or write of an open file failed: the end of the data, or a failure. -/
inductive FileFault where
  | io (e : IoError)
  | path (e : PathError)
  deriving Repr

namespace OpenFile

/-- Reads `n` bytes at `off`: what was read, and why fewer were. -/
def read (f : OpenFile) (t : FileTree) (off : Int) (n : Nat) : List UInt8 × Option FileFault :=
  if f.closed then ([], some (.path ⟨"read", f.shown, .closed⟩))
  else if off < 0 then ([], some (.path ⟨"readat", f.shown, .negativeOffset⟩))
  else
    let (d, e) := t.readAt f.target off.toNat n
    (d, e.map .io)

/-- Writes bytes at `off`: the tree after, the count written, and the failure. -/
def write (f : OpenFile) (t : FileTree) (off : Int) (p : List UInt8) :
    FileTree × Nat × Option PathError :=
  if f.closed then (t, 0, some ⟨"write", f.shown, .closed⟩)
  else if off < 0 then (t, 0, some ⟨"writeat", f.shown, .negativeOffset⟩)
  else (t.writeAt f.target off.toNat p, p.length, none)

/-- Advises the system of the access pattern; only an open file takes advice. -/
def advise (f : OpenFile) : Bool := !f.closed

/-- Closes the file; a file can be closed once. -/
def close (f : OpenFile) : Option PathError × OpenFile :=
  if f.closed then (some ⟨"close", f.shown, .closed⟩, f) else (none, { f with closed := true })

end OpenFile

end BitTorrent
