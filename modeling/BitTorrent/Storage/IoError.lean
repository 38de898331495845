/-!
# Errors of reading and writing

Reads and writes of files and connections end in one of a few ways: the data ended before
anything was read, it ended part way, a write stored fewer bytes than given, the operation was
canceled, the range asked for lies outside the data, or some other failure with its text.
-/

namespace BitTorrent

/-- Why a read or write of a file or connection failed. -/
inductive IoError where
  /-- Nothing could be read: the data ended. -/
  | eof
  /-- The data ended part way through what was to be read. -/
  | unexpectedEof
  /-- A write stored fewer bytes than it was given. -/
  | shortWrite
  /-- The operation was canceled. -/
  | canceled
  /-- A range reaches past the end of the sections it was cut from. -/
  | outOfRange
  /-- Any other failure, with its text. -/
  | other (text : String)
  deriving DecidableEq, Repr, Inhabited

namespace IoError

/-- The text an error is reported with. -/
def message : IoError → String
  | eof => "EOF"
  | unexpectedEof => "unexpected EOF"
  | shortWrite => "short write"
  | canceled => "context canceled"
  | outOfRange => "range is out of sections"
  | other t => t

/-- The class of an error: one word per kind, "error" for the rest. -/
def kind : IoError → String
  | eof => "eof"
  | unexpectedEof => "unexpected_eof"
  | shortWrite => "short_write"
  | canceled => "canceled"
  | outOfRange => "error"
  | other _ => "error"

/-- The outcome of reading a field of `want` bytes of which `got` arrived. -/
def ofShortRead (got : Nat) : IoError :=
  if got == 0 then eof else unexpectedEof

/-- Several errors reported together, as a numbered list. -/
def combine (es : List IoError) : IoError :=
  let n := es.length
  other (toString n ++ (if n == 1 then " error occurred:" else " errors occurred:") ++
    String.join (es.map fun e => "\n\t* " ++ e.message) ++ "\n\n")

end IoError

end BitTorrent
