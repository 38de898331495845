import BitTorrent.Storage.IoError

/-!
# A tree of files

A directory tree under a root: every path below the root is a directory, a regular file with
its bytes, or a symbolic link with its target. A path is resolved one component at a time, a
link being replaced by its target (relative to the link's directory) at most forty times. A
component longer than 255 bytes is too long.

The operations follow those of a POSIX system: opening (and creating), making directories,
truncating, reading and writing at an offset. A failure names the operation, the path as it was
given, and the reason.
-/

namespace BitTorrent

/-- An entry of the tree. -/
inductive FileNode where
  | dir
  | file (data : List UInt8)
  | link (target : String)
  deriving Repr, Inhabited, DecidableEq

/-- Why an operation on the tree failed. -/
inductive Errno where
  | noEntry
  | notDir
  | isDir
  | nameTooLong
  | loop
  | exist
  | invalid
  | closed
  | badDescriptor
  | negativeOffset
  deriving Repr, DecidableEq, Inhabited

/-- The text of a reason. -/
def Errno.text : Errno → String
  | .noEntry => "no such file or directory"
  | .notDir => "not a directory"
  | .isDir => "is a directory"
  | .nameTooLong => "file name too long"
  | .loop => "too many levels of symbolic links"
  | .exist => "file exists"
  | .invalid => "invalid argument"
  | .closed => "file already closed"
  | .badDescriptor => "bad file descriptor"
  | .negativeOffset => "negative offset"

/-- A failed operation on a path. -/
structure PathError where
  op : String
  path : String
  errno : Errno
  deriving Repr, Inhabited

/-- The text of a failed operation. -/
def PathError.message (e : PathError) : String :=
  e.op ++ " " ++ e.path ++ ": " ++ e.errno.text

/-- A path below the root as its components. -/
abbrev PathParts := List String

/-- The tree: its entries by path below the root, which is a directory. -/
structure FileTree where
  entries : List (PathParts × FileNode) := []
  deriving Repr, Inhabited

/-- What a path resolves to: an entry, or a missing last component in an existing directory. -/
inductive Resolved where
  | found (path : PathParts) (node : FileNode)
  | missing (path : PathParts)
  deriving Repr

namespace FileTree

/-- The entry at a path; the root is a directory. -/
def get? (t : FileTree) (p : PathParts) : Option FileNode :=
  if p.isEmpty then some .dir else (t.entries.find? (·.1 == p)).map (·.2)

/-- Sets the entry at a path. -/
def put (t : FileTree) (p : PathParts) (n : FileNode) : FileTree :=
  if t.entries.any (·.1 == p) then
    { entries := t.entries.map fun e => if e.1 == p then (p, n) else e }
  else { entries := t.entries ++ [(p, n)] }

/-- The components of slash-separated text, empty ones left out. -/
def split (s : String) : PathParts :=
  (s.splitOn "/").filter (· != "")

/-- Resolves the components `rest` from the directory `cur`. The last component is followed
when it is a link and `followLast` is set. `fuel` bounds the links followed. -/
def walk (t : FileTree) (followLast : Bool) : Nat → PathParts → PathParts → Except Errno Resolved
  | 0, _, _ => .error .loop
  | fuel + 1, cur, rest =>
    match rest with
    | [] => .ok (.found cur .dir)
    | c :: more =>
      if c.utf8ByteSize > 255 then .error .nameTooLong
      else if c == "." then walk t followLast (fuel + 1) cur more
      else if c == ".." then walk t followLast (fuel + 1) cur.dropLast more
      else
        let p := cur ++ [c]
        match t.get? p with
        | none => if more.isEmpty then .ok (.missing p) else .error .noEntry
        | some .dir => if more.isEmpty then .ok (.found p .dir) else walk t followLast (fuel + 1) p more
        | some (.file d) => if more.isEmpty then .ok (.found p (.file d)) else .error .notDir
        | some (.link target) =>
          if more.isEmpty && !followLast then .ok (.found p (.link target))
          else if target.startsWith "/" then .error .noEntry
          else walk t followLast fuel cur (split target ++ more)
termination_by fuel _ rest => (fuel, rest.length)

/-- Resolves a path below the root. -/
def resolve (t : FileTree) (p : PathParts) (followLast : Bool := true) : Except Errno Resolved :=
  walk t followLast 41 [] p

/-- The entry a path leads to, following links. -/
def stat (t : FileTree) (p : PathParts) : Except Errno (PathParts × FileNode) :=
  match t.resolve p with
  | .ok (.found q n) => .ok (q, n)
  | .ok (.missing _) => .error .noEntry
  | .error e => .error e

/-- Makes one directory. -/
def mkdir (t : FileTree) (p : PathParts) : Except Errno FileTree :=
  match t.resolve p false with
  | .ok (.found _ _) => .error .exist
  | .ok (.missing q) => .ok (t.put q .dir)
  | .error e => .error e

/-- Makes a directory and every missing one above it; `shown` is how the root is written in
the reasons. `fuel` bounds the depth. -/
def mkdirAll (shown : String) : Nat → FileTree → PathParts → Except PathError FileTree
  | 0, t, _ => .ok t
  | fuel + 1, t, p =>
    let text := shown ++ String.join (p.map ("/" ++ ·))
    match t.stat p with
    | .ok (_, .dir) => .ok t
    | .ok _ => .error ⟨"mkdir", text, .notDir⟩
    | .error _ => do
      let t ← if p.length > 1 then mkdirAll shown fuel t p.dropLast else pure t
      match t.mkdir p with
      | .ok t => .ok t
      | .error e =>
        match t.resolve p false with
        | .ok (.found _ .dir) => .ok t
        | _ => .error ⟨"mkdir", text, e⟩

/-- Opens a file for reading and writing, creating it when `create` is set: the path of the
file, and whether it existed. -/
def openFile (t : FileTree) (p : PathParts) (create : Bool) :
    Except Errno (PathParts × Bool × FileTree) :=
  match t.resolve p with
  | .ok (.found _ .dir) => .error .isDir
  | .ok (.found q _) => .ok (q, true, t)
  | .ok (.missing q) => if create then .ok (q, false, t.put q (.file [])) else .error .noEntry
  | .error e => .error e

/-- The bytes of the file at a resolved path. -/
def data (t : FileTree) (q : PathParts) : List UInt8 :=
  match t.get? q with
  | some (.file d) => d
  | _ => []

/-- Sets the size of a file, cutting it or filling it with zeros. -/
def truncate (t : FileTree) (q : PathParts) (size : Int) : Except Errno FileTree :=
  if size < 0 then .error .invalid
  else
    let d := t.data q
    let n := size.toNat
    .ok (t.put q (.file (d.take n ++ List.replicate (n - d.length) 0)))

/-- Reads `n` bytes at `off`; the data ends early when the file is shorter. -/
def readAt (t : FileTree) (q : PathParts) (off : Nat) (n : Nat) : List UInt8 × Option IoError :=
  let got := ((t.data q).drop off).take n
  (got, if got.length < n then some .eof else none)

/-- Writes bytes at `off`, filling a gap past the end with zeros. -/
def writeAt (t : FileTree) (q : PathParts) (off : Nat) (p : List UInt8) : FileTree :=
  let d := t.data q
  let padded := d ++ List.replicate (off + p.length - d.length) 0
  t.put q (.file (padded.take off ++ p ++ padded.drop (off + p.length)))

/-- The entries sorted by their slash-joined paths. -/
def listing (t : FileTree) : List (String × FileNode) :=
  (t.entries.map fun (p, n) => ("/".intercalate p, n)).mergeSort fun a b => decide (a.1 ≤ b.1)

end FileTree

end BitTorrent
