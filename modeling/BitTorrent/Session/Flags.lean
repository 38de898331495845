/-!
# Choke and interest flags

Four flags describe a connection in both directions: whether we choke the peer, whether we are
interested in it, whether it chokes us, and whether it is interested in us. They are kept as the
low bits of a 32-bit word, in that order.
-/

namespace BitTorrent.Session

/-- The choke and interest flags of a connection, as bits of a word. -/
structure Flags where
  bits : UInt32
  deriving DecidableEq, Repr, Inhabited

namespace Flags

/-- We do not serve the peer's requests. -/
def amChoking : Flags := ⟨1⟩
/-- The peer has a piece we do not have. -/
def amInterested : Flags := ⟨2⟩
/-- The peer does not serve our requests. -/
def peerChoking : Flags := ⟨4⟩
/-- The peer wants a piece from us. -/
def peerInterested : Flags := ⟨8⟩

/-- Every bit of `x` is set in `f`. -/
def has (f x : Flags) : Bool :=
  f.bits &&& x.bits == x.bits

/-- `f` with the bits of `x` set or cleared. -/
def setTo (f x : Flags) (v : Bool) : Flags :=
  if v then ⟨f.bits ||| x.bits⟩ else ⟨f.bits &&& ~~~x.bits⟩

/-- The names of the set flags, in order, joined by bars. -/
def describe (f : Flags) : String :=
  "|".intercalate <|
    ([(amChoking, "am_choking"), (amInterested, "am_interested"),
      (peerChoking, "peer_choking"), (peerInterested, "peer_interested")].filter
      (fun p => f.has p.1)).map Prod.snd

end Flags

end BitTorrent.Session
