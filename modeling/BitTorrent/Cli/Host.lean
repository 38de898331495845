import BitTorrent.Storage.FileStorage
import BitTorrent.Storage.FileStore
import BitTorrent.Resume.File
import BitTorrent.Text.Path
import BitTorrent.Text.Utf8

/-!
# The machine a program runs on

A program sees the files of its machine as a tree under a top directory, with a working
directory and a home directory below it. Paths are text: text that starts with the top
directory's own text and a slash is absolute, other text that starts with a slash lies outside
the tree, and any other text is relative to the working directory. A failure names the path as
it was given.

Making a directory with its parents, reading a whole file, and opening the resume database
follow the rules of a POSIX system: a file in the way of a directory is not a directory, a
directory read as a file is a directory, and the database file is created when missing. The
torrent's files are kept in a directory of the tree. Every path looked at is noted, so that the
files a run needs can be brought in.
-/

namespace BitTorrent.Cli

/-- The files and directories a program sees. -/
structure Host where
  /-- How the top directory is written. -/
  top : String
  tree : FileTree
  cwd : PathParts
  home : PathParts
  /-- The paths looked at, below the top, in the order first looked at. -/
  looked : List PathParts := []
  deriving Repr

namespace Host

/-- How a path below the top is written. -/
def textOf (h : Host) (p : PathParts) : String :=
  h.top ++ String.join (p.map ("/" ++ ·))

/-- Whether a path is absolute. -/
def isAbsolute (h : Host) (s : String) : Bool :=
  s.startsWith (h.top ++ "/") || (s == h.top && !s.isEmpty) || s.startsWith "/"

/-- The path below the top that a path stands for; none for a path outside the tree. -/
def locate (h : Host) (s : String) : Option PathParts :=
  if s.startsWith (h.top ++ "/") || (s == h.top && !s.isEmpty) then
    some (FileTree.split (String.ofList (s.toList.drop h.top.length)))
  else if s.startsWith "/" then none
  else some (h.cwd ++ FileTree.split s)

/-- Notes that a path was looked at. -/
def note (h : Host) (p : PathParts) : Host :=
  if h.looked.contains p then h else { h with looked := h.looked ++ [p] }

/-- The clean form of a path. -/
def clean (s : String) : String :=
  Utf8.lossy (Path.clean s.toUTF8.toList)

/-- Expands a leading `~` to the home directory; `~name` is refused. -/
def expandHome (h : Host) (s : String) : Except String String :=
  match s.toList with
  | '~' :: c :: _ =>
    if c != '/' && c != '\\' then .error "cannot expand user-specific home dir"
    else .ok (clean (h.textOf h.home ++ String.ofList (s.toList.drop 1)))
  | ['~'] => .ok (clean (h.textOf h.home))
  | _ => .ok s

/-- The absolute clean form of a path. -/
def absolute (h : Host) (s : String) : String :=
  if h.isAbsolute s then clean s else clean (h.textOf h.cwd ++ "/" ++ s)

/-- The directory part of a path: all before its last slash, cleaned; `.` when it has none. -/
def dirOf (s : String) : String :=
  let cs := s.toList
  clean (String.ofList (cs.take (cs.length - (cs.reverse.takeWhile (· != '/')).length)))

/-- Reads a whole file. -/
def readFile (h : Host) (s : String) : Except PathError (List UInt8) × Host :=
  match h.locate s with
  | none => (.error ⟨"open", s, .noEntry⟩, h)
  | some p =>
    let h := h.note p
    match h.tree.resolve p with
    | .ok (.found _ (.file d)) => (.ok d, h)
    | .ok (.found _ _) => (.error ⟨"read", s, .isDir⟩, h)
    | .ok (.missing _) => (.error ⟨"open", s, .noEntry⟩, h)
    | .error e => (.error ⟨"open", s, e⟩, h)

/-- What a path leads to, following links. -/
def stat (h : Host) (s : String) : Option FileNode :=
  (h.locate s).bind fun p => (h.tree.stat p).toOption.map (·.2)

/-- Makes one directory. -/
def mkdir (h : Host) (s : String) : Except Errno Host :=
  match h.locate s with
  | none => .error .noEntry
  | some p => (h.note p).tree.mkdir p |>.map fun t => { h.note p with tree := t }

/-- Makes a directory and every missing one above it. The parent is the text before the last
slash of the path; `fuel` bounds the depth. -/
def mkdirAllWith (h : Host) : Nat → String → Except PathError Host
  | 0, _ => .ok h
  | fuel + 1, s =>
    let h := match h.locate s with
      | some p => h.note p
      | none => h
    match h.stat s with
    | some .dir => .ok h
    | some _ => .error ⟨"mkdir", s, .notDir⟩
    | none => do
      let cs := (s.toList.reverse.dropWhile (· == '/')).reverse
      let parent := (cs.reverse.dropWhile (· != '/')).reverse
      let h ← if parent.length > 1 then mkdirAllWith h fuel (String.ofList parent.dropLast)
        else pure h
      match h.mkdir s with
      | .ok h => .ok h
      | .error e => if h.stat s == some .dir then .ok h else .error ⟨"mkdir", s, e⟩

/-- Makes a directory and every missing one above it. -/
def mkdirAll (h : Host) (s : String) : Except PathError Host :=
  h.mkdirAllWith (s.length + 1) s

/-- Opens the resume database kept at a path, creating its file when missing. -/
def openDatabase (h : Host) (s : String) : Except String (Resume.Database × Host) :=
  match h.locate s with
  | none => .error (PathError.message ⟨"open", s, .noEntry⟩)
  | some p =>
    let h := h.note p
    match h.tree.openFile p true with
    | .error e => .error (PathError.message ⟨"open", s, e⟩)
    | .ok (q, _, t) =>
      match Resume.Database.decode (t.data q) with
      | none => .error "invalid database"
      | some db => .ok (db, { h with tree := t.put q (.file db.encode) })

/-- Keeps a database in its file at a path. -/
def saveDatabase (h : Host) (s : String) (db : Resume.Database) : Host :=
  match h.locate s with
  | none => h
  | some p =>
    match h.tree.stat p with
    | .ok (q, .file _) => { h with tree := h.tree.put q (.file db.encode) }
    | _ => h

/-- The path of the file a storage keeps under a name, with links followed. -/
def target (h : Host) (s : FileStorage) (name : List UInt8) : PathParts :=
  let p := (s.place (Utf8.lossy name)).getD s.dest
  match h.tree.stat p with
  | .ok (q, _) => q
  | .error _ => p

/-- A storage in the tree as a store of a torrent's files: a file is opened by its name below
the storage's directory, and read and written as a whole. -/
def fileStore (s : FileStorage) : FileStore Host where
  openFile h name size :=
    let p := (s.place (Utf8.lossy name)).getD s.dest
    let h := h.note p
    match s.openAt h.tree p size.toInt with
    | (.ok (_, existed), t) => (.ok existed, { h with tree := t })
    | (.error e, t) => (.error (.other e.message), { h with tree := t })
  get h name := { data := h.tree.data (h.target s name) }
  put h name f := { h with tree := h.tree.put (h.target s name) (.file f.data) }

end Host

end BitTorrent.Cli
