import BitTorrent.Storage.MemStore

/-!
# What a torrent's files are kept in

A disk reaches its files through a store of type `σ`: it opens a file of a given size, learning
whether the file was there before, and reads and replaces the contents of the files it opened.
The files themselves are `MemFile`s: their bytes and the failures they are set up with. A store
in memory is one such store; a directory tree is another.
-/

namespace BitTorrent

/-- The operations a disk needs of the store its files live in. -/
structure FileStore (σ : Type) where
  /-- Opens the named file of `size` bytes, creating it when missing: whether it existed. -/
  openFile : σ → List UInt8 → Int64 → Except IoError Bool × σ
  /-- The contents of an open file. -/
  get : σ → List UInt8 → MemFile
  /-- Replaces the contents of an open file. -/
  put : σ → List UInt8 → MemFile → σ

/-- The store in memory as a store of a torrent's files. -/
def MemStore.fileStore : FileStore MemStore :=
  ⟨MemStore.openFile, MemStore.get, MemStore.put⟩

end BitTorrent
