import BitTorrent.Storage.IoError

/-!
# Disk errors

A failed open, read, write or close of a torrent's files stops the torrent. The error names the
operation, the piece for reads and writes, and the underlying cause.
-/

namespace BitTorrent.Disk

/-- The disk operation that failed. -/
inductive Op where
  | opening
  | reading
  | writing
  | closing
  | named (name : String)
  deriving DecidableEq, Repr, Inhabited

/-- The word for an operation. -/
def Op.name : Op → String
  | .opening => "open"
  | .reading => "read"
  | .writing => "write"
  | .closing => "close"
  | .named n => n

/-- The operation with a given word. -/
def Op.ofName (s : String) : Op :=
  match s with
  | "open" => .opening
  | "read" => .reading
  | "write" => .writing
  | "close" => .closing
  | n => .named n

/-- A failed disk operation. -/
structure Error where
  op : Op
  piece : UInt32 := 0
  cause : IoError
  deriving DecidableEq, Repr, Inhabited

/-- The text of a disk error: the piece is named except for opening and closing. -/
def Error.message (e : Error) : String :=
  if e.op.name == "open" || e.op.name == "close" then
    "disk " ++ e.op.name ++ ": " ++ e.cause.message
  else
    "disk " ++ e.op.name ++ " piece #" ++ toString e.piece.toNat ++ ": " ++ e.cause.message

end BitTorrent.Disk

namespace BitTorrent.Disk

/-- Why a disk operation on a block or piece did not complete. -/
inductive Failure where
  /-- The block does not lie within a piece of the torrent. -/
  | invalidBlock
  /-- The files failed. -/
  | disk (e : Error)
  /-- The operation was canceled. -/
  | canceled
  deriving DecidableEq, Repr

/-- The text of a failure. -/
def Failure.message : Failure → String
  | .invalidBlock => "invalid block"
  | .disk e => e.message
  | .canceled => "context canceled"

end BitTorrent.Disk
