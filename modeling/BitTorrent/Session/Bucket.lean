/-!
# Token buckets

A token bucket limits a transfer: it holds up to its capacity in tokens, refilled at its rate
per second, and starts full. Moving `n` bytes takes `n` tokens; when fewer are there, the
transfer waits for the missing tokens to be refilled. The model keeps no clock: a wait of at
most half a second passes, and a longer one holds the transfer until the session ends.
-/

namespace BitTorrent.Session

/-- A token bucket: its rate in tokens per second, its capacity, and the tokens it holds. -/
structure Bucket where
  rate : Nat
  capacity : Nat
  tokens : Int := capacity
  deriving Repr, Inhabited

namespace Bucket

/-- Takes `n` tokens: the bucket after, or none when the transfer is held. -/
def take (b : Bucket) (n : Nat) : Option Bucket :=
  if b.tokens ≥ n then some { b with tokens := b.tokens - n }
  else if ((n : Int) - b.tokens) * 2 ≤ b.rate then some { b with tokens := b.tokens - n }
  else none

end Bucket

end BitTorrent.Session
