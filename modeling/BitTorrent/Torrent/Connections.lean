import BitTorrent.Torrent.Status
import BitTorrent.Config.Basic
import Mathlib.Data.Finset.Card

/-!
# The connections of a torrent

A torrent keeps the addresses it has yet to dial in a queue, with the set of their keys, and it
knows the keys of the outgoing sessions it runs and the number of incoming ones. An address is
known by its key, its text: an address whose key is queued, or has a running outgoing session, is
not queued again.

While the torrent downloads, it takes the first queued address off the queue and dials it, as long
as fewer outgoing sessions run than the dial limit; an address whose key has a running session is
taken off and not dialed. A session that ends frees its slot, and the torrent dials again, and so
does a start once the torrent runs. An incoming connection is taken while the torrent downloads or
seeds and fewer incoming sessions run than the accept limit, and refused otherwise. A stop drops
the queue once every session has ended.

Each of these is one step under the torrent's lock (`Connections.step`); sessions run on their
own, so their ends come in any order with the other events. The download (`Torrent.Download`)
takes the case where every dial ends at once; here a session runs until its end comes as an
event of its own.
-/

namespace BitTorrent.Torrent

/-- The connections of a torrent. -/
structure Connections (α : Type) where
  status : Status := .stopped
  /-- Addresses waiting to be dialed, first to last. -/
  queue : List α := []
  /-- The keys of the queued addresses. -/
  queued : Finset String := ∅
  /-- The keys of the running outgoing sessions. -/
  outgoing : Finset String := ∅
  /-- The number of running incoming sessions. -/
  incoming : Int := 0

/-- What happens to the connections of a torrent. -/
inductive Connections.Event (α : Type) where
  /-- Addresses are handed to the torrent, by a tracker or by the user. -/
  | addPeers (addrs : List α)
  /-- The outgoing session to a key ended. -/
  | outgoingEnded (k : String)
  /-- An incoming session ended. -/
  | incomingEnded
  /-- A connection came in. -/
  | connection
  /-- The status changed. -/
  | setStatus (s : Status)
  /-- A start verified the files and the torrent runs: it dials. -/
  | runnersStarted
  /-- A stop is done: every session has ended, and the queue is dropped. -/
  | stopped

namespace Connections

variable {α : Type} (key : α → String)

/-- Queues the addresses whose key is neither queued nor has a running outgoing session, in
order. -/
def enqueue (st : Connections α) : List α → Connections α
  | [] => st
  | a :: as =>
    if key a ∈ st.queued ∨ key a ∈ st.outgoing then enqueue st as
    else enqueue { st with queue := st.queue ++ [a], queued := insert (key a) st.queued } as

/-- The dial loop over the queued addresses `q`, with at most `maxDial` outgoing sessions: each
address is taken off the queue and dialed, unless a session to its key runs already; the loop
stops when the sessions fill the limit or the queue is empty. Answers the addresses dialed. -/
def dialLoop (maxDial : Int) (st : Connections α) : List α → List α × Connections α
  | [] => ([], { st with queue := [] })
  | a :: q =>
    if (st.outgoing.card : Int) < maxDial then
      let st := { st with queued := st.queued.erase (key a) }
      if key a ∈ st.outgoing then dialLoop maxDial st q
      else
        let r := dialLoop maxDial { st with outgoing := insert (key a) st.outgoing } q
        (a :: r.1, r.2)
    else ([], { st with queue := a :: q })

/-- Dials queued addresses, while the torrent downloads. Answers the addresses dialed. -/
def dialAddresses (c : Config) (st : Connections α) : List α × Connections α :=
  if st.status = .downloading then dialLoop key c.maxPeerDial st st.queue else ([], st)

/-- An incoming connection: taken, and its session counted, while the torrent downloads or seeds
and fewer incoming sessions run than the accept limit. -/
def accept (c : Config) (st : Connections α) : Bool × Connections α :=
  if st.incoming ≥ c.maxPeerAccept ∨ (st.status ≠ .downloading ∧ st.status ≠ .seeding) then
    (false, st)
  else (true, { st with incoming := st.incoming + 1 })

/-- What an event does before the torrent dials. -/
def apply (c : Config) (st : Connections α) : Event α → Connections α
  | .addPeers addrs => st.enqueue key addrs
  | .outgoingEnded k => { st with outgoing := st.outgoing.erase k }
  | .incomingEnded => { st with incoming := st.incoming - 1 }
  | .connection => (st.accept c).2
  | .setStatus s => { st with status := s }
  | .runnersStarted => st
  | .stopped => { st with queue := [], queued := ∅, status := .stopped }

/-- Whether the torrent dials after the event. -/
def Event.dials : Event α → Bool
  | .addPeers _ | .outgoingEnded _ | .incomingEnded | .runnersStarted => true
  | .connection | .setStatus _ | .stopped => false

/-- One step: the event, then the dialing it leads to. Answers the addresses dialed. -/
def step (c : Config) (st : Connections α) (e : Event α) : List α × Connections α :=
  if e.dials then (apply key c st e).dialAddresses key c else ([], apply key c st e)

/-- The connections after a run of events. -/
def run (c : Config) (st : Connections α) : List (Event α) → Connections α
  | [] => st
  | e :: es => run c (step key c st e).2 es

end Connections

end BitTorrent.Torrent
