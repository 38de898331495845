import BitTorrent.Unchoke.Draws

/-!
# Choosing the peers we upload to

Every round the unchoker ranks the peers interested in us by how fast we download from them
(by how fast we upload to them once the torrent is complete) and unchokes the fastest, up to the
number of regular slots. Every third round, starting with the first, it also unchokes peers
drawn at random from the interested peers left over, up to the number of optimistic slots; an
optimistic slot is kept through the rounds in between as long as the peer is not choked. Every
peer not picked in a round is choked.

A peer that becomes interested while choked is unchoked at once when a slot is free, a regular
one first.
-/

namespace BitTorrent

/-- A peer as the unchoker sees it: its name, whether it is interested in us, whether we choke
it, whether it holds an optimistic slot, and its speeds. -/
structure Contender where
  name : String
  interested : Bool := false
  choking : Bool := true
  optimistic : Bool := false
  download : Int := 0
  upload : Int := 0
  deriving Repr, Inhabited

/-- The unchoker with the peers it governs: the slot counts, the round, the peers holding
regular and optimistic slots, the peers by name, the random source, and the choke and unchoke
messages sent, oldest first. -/
structure Unchoker where
  regularSlots : Int
  optimisticSlots : Int
  round : Nat := 0
  unchoked : List String := []
  optimisticUnchoked : List String := []
  peers : List Contender
  draws : Draws
  calls : List String := []
  deriving Repr

namespace Unchoker

/-- The peer with the given name. -/
def peer (u : Unchoker) (n : String) : Contender :=
  (u.peers.find? (·.name == n)).getD { name := n }

/-- Changes the peer with the given name. -/
def modify (u : Unchoker) (n : String) (f : Contender → Contender) : Unchoker :=
  { u with peers := u.peers.map fun p => if p.name == n then f p else p }

/-- Adds a name to a set of names. -/
def addName (n : String) (s : List String) : List String :=
  if s.contains n then s else s ++ [n]

/-- Chokes a peer and takes its slot. -/
def choke (u : Unchoker) (n : String) : Unchoker :=
  let u := { u with unchoked := u.unchoked.erase n,
                    optimisticUnchoked := u.optimisticUnchoked.erase n }
  let u := u.modify n ({ · with optimistic := false })
  if (u.peer n).choking then u
  else { u.modify n ({ · with choking := true }) with calls := u.calls ++ ["choke " ++ n] }

/-- Lets a peer download from us, if we choke it. -/
def release (u : Unchoker) (n : String) : Unchoker :=
  if (u.peer n).choking then
    { u.modify n ({ · with choking := false }) with calls := u.calls ++ ["unchoke " ++ n] }
  else u

/-- Gives a peer a regular slot. -/
def unchoke (u : Unchoker) (n : String) : Unchoker :=
  let u := { u with optimisticUnchoked := u.optimisticUnchoked.erase n }
  let u := u.modify n ({ · with optimistic := false })
  ({ u with unchoked := addName n u.unchoked } : Unchoker).release n

/-- Gives a peer an optimistic slot. -/
def unchokeOptimistic (u : Unchoker) (n : String) : Unchoker :=
  let u := { u with unchoked := u.unchoked.erase n }
  let u := u.modify n ({ · with optimistic := true })
  ({ u with optimisticUnchoked := addName n u.optimisticUnchoked } : Unchoker).release n

/-- Forgets the slots of a peer that went away. -/
def disconnect (u : Unchoker) (n : String) : Unchoker :=
  { u with unchoked := u.unchoked.erase n, optimisticUnchoked := u.optimisticUnchoked.erase n }

/-- The numbers of regular and optimistic slots taken. -/
def numUnchoked (u : Unchoker) : Nat × Nat :=
  (u.unchoked.length, u.optimisticUnchoked.length)

/-- Goes through the ranked candidates: an optimistic peer outside an optimistic round keeps
its slot, the next ones take the free regular slots, and the others are left over. -/
def assign (optimistic : Bool) : List String → Unchoker × List String × Nat × List String →
    Unchoker × List String × Nat × List String
  | [], acc => acc
  | n :: ns, (u, selected, regular, rest) =>
    let p := u.peer n
    if !optimistic && p.optimistic && !p.choking then assign optimistic ns (u, n :: selected, regular, rest)
    else if (regular : Int) < u.regularSlots then
      assign optimistic ns (u.unchoke n, n :: selected, regular + 1, rest)
    else assign optimistic ns (u, selected, regular, rest ++ [n])

/-- Fills the optimistic slots with peers drawn from the left-over ones; a drawn peer's place
is taken by the last one. -/
def drawOptimistic : Nat → Unchoker × List String × List String → Unchoker × List String
  | 0, (u, selected, _) => (u, selected)
  | k + 1, (u, selected, rest) =>
    if rest.isEmpty then (u, selected)
    else
      let (i, d) := u.draws.below rest.length
      let n := rest.getD i ""
      let u := ({ u with draws := d } : Unchoker).unchokeOptimistic n
      let last := rest.getD (rest.length - 1) ""
      let rest := (rest.set i last).take (rest.length - 1)
      drawOptimistic k (u, n :: selected, rest)

/-- One round over the given peers. -/
def tick (u : Unchoker) (names : List String) (completed : Bool) : Unchoker :=
  let optimistic := u.round == 0
  let u := { u with round := (u.round + 1) % 3 }
  let speed := fun (n : String) => if completed then (u.peer n).upload else (u.peer n).download
  let ranked := (names.filter fun n => (u.peer n).interested).mergeSort
    fun a b => decide (speed a ≥ speed b)
  let (u, selected, _, rest) := assign optimistic ranked (u, [], 0, [])
  let (u, selected) :=
    if optimistic then drawOptimistic u.optimisticSlots.toNat (u, selected, rest)
    else (u, selected)
  names.foldl (fun u n => if selected.contains n then u else u.choke n) u

/-- Unchokes a newly interested peer at once when a slot is free. -/
def fastUnchoke (u : Unchoker) (n : String) : Unchoker :=
  let p := u.peer n
  if !p.choking || !p.interested then u
  else if (u.unchoked.length : Int) < u.regularSlots then u.unchoke n
  else if (u.optimisticUnchoked.length : Int) < u.optimisticSlots then u.unchokeOptimistic n
  else u

end Unchoker

end BitTorrent
