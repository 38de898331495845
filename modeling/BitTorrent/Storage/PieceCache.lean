/-!
# A cache of pieces

A piece cache keeps the data of up to a fixed number of pieces, the least recently used
dropped first. A read of a piece the cache holds is a hit and makes it the most recent; any
other read is a miss and loads the piece. A load that fails leaves the cache as it was, so the
next read tries again. The utilization is the share of reads served by hits, in whole percent.
-/

namespace BitTorrent

/-- The piece cache: the capacity, the cached pieces with the most recently used first, and the
counts of hits and misses. -/
structure PieceCache where
  capacity : Nat
  entries : List (UInt32 × List UInt8) := []
  hits : Nat := 0
  misses : Nat := 0
  deriving Repr

namespace PieceCache

/-- A cache for `size` pieces; the size must be positive. -/
def new (size : Int) : Except String PieceCache :=
  if size ≤ 0 then .error "Must provide a positive size" else .ok { capacity := size.toNat }

/-- The number of cached pieces. -/
def len (c : PieceCache) : Nat := c.entries.length

/-- Caches the data of piece `i` as the most recent, dropping the least recent past capacity. -/
def add (c : PieceCache) (i : UInt32) (data : List UInt8) : PieceCache :=
  let rest := c.entries.filter fun e => e.1 != i
  { c with entries := ((i, data) :: rest).take c.capacity }

/-- Reads piece `i`, loading it with `load` on a miss: the data or the load's failure, whether
the piece was loaded, and the cache after. -/
def get {ε : Type} (c : PieceCache) (i : UInt32) (load : Unit → Except ε (List UInt8)) :
    Except ε (List UInt8) × Bool × PieceCache :=
  match c.entries.find? (·.1 == i) with
  | some (_, data) => (.ok data, false, { c.add i data with hits := c.hits + 1 })
  | none =>
    let c := { c with misses := c.misses + 1 }
    match load () with
    | .error e => (.error e, true, c)
    | .ok data => (.ok data, true, c.add i data)

/-- Drops piece `i`. -/
def remove (c : PieceCache) (i : UInt32) : PieceCache :=
  { c with entries := c.entries.filter fun e => e.1 != i }

/-- Drops every piece; the counts stay. -/
def clear (c : PieceCache) : PieceCache := { c with entries := [] }

/-- The percentage of reads served by hits, rounded down; zero before any read. -/
def utilization (c : PieceCache) : Nat :=
  if c.hits + c.misses = 0 then 0 else 100 * c.hits / (c.hits + c.misses)

end PieceCache

end BitTorrent
