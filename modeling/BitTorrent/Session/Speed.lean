/-!
# Transfer speed

The speed of a transfer is an exponentially weighted moving average over five-second ticks,
with the one-minute weight `1 - exp(-5/60)`. Bytes are counted as they move; each tick turns
the bytes counted since the last tick into a rate per nanosecond. The first tick takes that
rate as it is, later ticks move the average towards it by the weight. The speed is the average
scaled to bytes per second, cut to a whole number.
-/

namespace BitTorrent.Session

/-- A moving average of a transfer rate. -/
structure Speed where
  /-- Bytes counted since the last tick. -/
  pending : Nat := 0
  /-- The average, in bytes per nanosecond. -/
  rate : Float := 0
  /-- Whether a tick has happened. -/
  started : Bool := false
  deriving Inhabited

namespace Speed

/-- The weight of a new tick in the one-minute average. -/
def weight : Float := 1 - Float.exp (-5.0 / 60.0)

/-- Counts `n` more bytes. -/
def count (s : Speed) (n : Nat) : Speed :=
  { s with pending := s.pending + n }

/-- Folds the bytes counted since the last tick into the average. -/
def tick (s : Speed) : Speed :=
  let instant := Float.ofNat s.pending / 5e9
  if s.started then { pending := 0, rate := s.rate + weight * (instant - s.rate), started := true }
  else { pending := 0, rate := instant, started := true }

/-- The speed in whole bytes per second. -/
def perSecond (s : Speed) : Nat :=
  (s.rate * 1e9).toUInt64.toNat

end Speed

end BitTorrent.Session
