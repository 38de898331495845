import BitTorrent.Storage.MemFile

/-!
# A store of files in memory

A store keeps files by name. Opening a name the store holds gives that file as it is and says
it existed; opening any other name creates it, filled with zeros to the size asked for. Names
can be marked to fail on opening, and a negative size cannot be created. Every attempt to open
is written down, with the size asked for.
-/

namespace BitTorrent

/-- Files in memory by name, in the order they were listed or created. -/
structure MemStore where
  files : List (List UInt8 × MemFile) := []
  /-- Names whose opening fails. -/
  failOpen : List (List UInt8) := []
  /-- Every attempt to open: the name and the size asked for. -/
  opened : List (List UInt8 × Int64) := []
  deriving Repr, Inhabited

namespace MemStore

/-- The text of a failed open. -/
def openFailure : IoError := .other "injected open error"

/-- The text of opening a file of negative size. -/
def negativeSize : IoError := .other "negative size"

/-- The file with the given name, empty when there is none. -/
def get (st : MemStore) (name : List UInt8) : MemFile :=
  match st.files.find? (·.1 == name) with
  | some (_, f) => f
  | none => default

/-- Replaces the file with the given name. -/
def put (st : MemStore) (name : List UInt8) (f : MemFile) : MemStore :=
  { st with files := st.files.map fun e => if e.1 == name then (name, f) else e }

/-- Opens a file of `size` bytes: whether it existed, or why it cannot be opened. -/
def openFile (st : MemStore) (name : List UInt8) (size : Int64) : Except IoError Bool × MemStore :=
  let st := { st with opened := st.opened ++ [(name, size)] }
  if st.failOpen.contains name then (.error openFailure, st)
  else if st.files.any (·.1 == name) then (.ok true, st)
  else if size < 0 then (.error negativeSize, st)
  else (.ok false, { st with files := st.files ++ [(name, { data := List.replicate size.toInt.toNat 0 })] })

end MemStore

end BitTorrent
