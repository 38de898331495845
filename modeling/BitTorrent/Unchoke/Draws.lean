/-!
# Scripted random draws

A source of random numbers that gives a fixed list of 63-bit values in turn, starting over
when the list runs out, and zero forever when the list is empty. A bounded draw takes the top
31 bits of a value; below a power of two it masks them, otherwise it draws again while the
value lies in the incomplete last round of the bound and then takes the remainder, so every
result is equally likely over a uniform source.
-/

namespace BitTorrent

/-- The scripted values, the position of the next one, and the number of values drawn. -/
structure Draws where
  values : List Nat
  next : Nat := 0
  count : Nat := 0
  deriving Repr

namespace Draws

/-- The next 63-bit value. -/
def int63 (d : Draws) : Nat × Draws :=
  let v := if d.values.isEmpty then 0 else d.values.getD (d.next % d.values.length) 0
  (v, { d with next := d.next + 1, count := d.count + 1 })

/-- The next 31-bit value: the top bits of a 63-bit one. -/
def int31 (d : Draws) : Nat × Draws :=
  let (v, d) := d.int63
  (v >>> 32, d)

/-- Draws again while the value exceeds `max`; `fuel` bounds the draws. -/
def redraw (max : Nat) : Nat → Nat → Draws → Nat × Draws
  | 0, v, d => (v, d)
  | fuel + 1, v, d =>
    if v ≤ max then (v, d)
    else
      let (v, d) := d.int31
      redraw max fuel v d

/-- A number below `k`, for positive `k`. Once every scripted value was met a value at or
under the bound must have come, so the draws are bounded by the length of the script. -/
def below (k : Nat) (d : Draws) : Nat × Draws :=
  if k &&& (k - 1) == 0 then
    let (v, d) := d.int31
    (v &&& (k - 1), d)
  else
    let max := Nat.pow 2 31 - 1 - Nat.pow 2 31 % k
    let (v, d) := d.int31
    let (v, d) := redraw max (d.values.length + 1) v d
    (v % k, d)

end Draws

end BitTorrent
