import BitTorrent.Storage.IoError

/-!
# Files in memory

A file held in memory, with switches that make its reads or writes fail and a bound on how
much one write stores. A read at or past the end finds nothing and ends the data; a read that
finds fewer bytes than asked returns them and ends the data too. A write past the end grows the
file, the gap filled with zeros.
-/

namespace BitTorrent

/-- A file in memory. -/
structure MemFile where
  data : List UInt8
  /-- Every read fails. -/
  failRead : Bool := false
  /-- Every write fails. -/
  failWrite : Bool := false
  /-- When positive, a write stores at most this many bytes. -/
  shortWrite : Nat := 0
  /-- Closing fails. -/
  failClose : Bool := false
  /-- The file was closed. -/
  closed : Bool := false
  deriving Repr, Inhabited

namespace MemFile

/-- The text of a failed read. -/
def readFailure : IoError := .other "injected read error"

/-- The text of a failed write. -/
def writeFailure : IoError := .other "injected write error"

/-- Reads `n` bytes at `off`: the bytes found, and the data ending when fewer were found. -/
def readAt (f : MemFile) (off : Nat) (n : Nat) : List UInt8 × Option IoError :=
  if f.failRead then ([], some readFailure)
  else if off ≥ f.data.length then ([], some .eof)
  else
    let got := (f.data.drop off).take n
    (got, if got.length < n then some .eof else none)

/-- Overwrites the bytes at `off` with `p`, growing the data with zeros as needed. -/
def overwrite (data p : List UInt8) (off : Nat) : List UInt8 :=
  let padded := data ++ List.replicate (off + p.length - data.length) 0
  padded.take off ++ p ++ padded.drop (off + p.length)

/-- Writes `p` at `off`: the file after, how many bytes were stored, and the failure. -/
def writeAt (f : MemFile) (p : List UInt8) (off : Nat) : MemFile × Nat × Option IoError :=
  if f.failWrite then (f, 0, some writeFailure)
  else
    let p := if f.shortWrite > 0 then p.take f.shortWrite else p
    ({ f with data := overwrite f.data p off }, p.length, none)

/-- The text of a failed close. -/
def closeFailure : IoError := .other "injected close error"

/-- Closes the file: the file after, and the failure. -/
def close (f : MemFile) : MemFile × Option IoError :=
  ({ f with closed := true }, if f.failClose then some closeFailure else none)

end MemFile

end BitTorrent
