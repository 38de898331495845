import BitTorrent.Tracker.Event

/-!
# Announcing to a tracker

An announcer tells one tracker about a download: once when it starts, then again whenever the
interval the tracker asked for has passed, and once when the download completes. Only one
announce is under way at a time; a periodic announce that falls due while one is under way is
skipped.

An answer makes the tracker working: its counts are kept, the least interval it asks for raises
our own, and the next announce is due after its interval, which is thirty minutes when it gives
none and never less than the least interval. The peers it names are handed to the download. A
failure makes the tracker not working and keeps its text; the next announce is due when the
tracker says, or after a back-off delay. The completion is announced once, and not at all when
the download was complete from the start; it cancels an announce still under way.

Time is not part of the state: the announcer is driven by `settle`, which lets answers arrive
and due announces happen until the tracker has been called a number of times.
-/

namespace BitTorrent.Tracker

/-- What the tracker does with an announce. -/
inductive Reply where
  /-- It answers with the interval and least interval in nanoseconds, the counts of seeders
  and leechers, and peer addresses. -/
  | answer (interval minInterval seeders leechers : Int) (peers : List String)
  /-- It fails with a text; a failure the tracker reports itself may say when to retry, in
  nanoseconds. -/
  | failure (text : String) (retryIn : Option Int)
  /-- It never answers. -/
  | silent
  deriving Repr

/-- How the tracker is doing. -/
inductive Standing where
  | notContactedYet
  | contacting
  | working
  | notWorking
  deriving DecidableEq, Repr

/-- The words for a standing. -/
def Standing.name : Standing → String
  | .notContactedYet => "not contacted yet"
  | .contacting => "contacting"
  | .working => "working"
  | .notWorking => "not working"

/-- When the next periodic announce is due. -/
inductive Timer where
  | after (ns : Int)
  | backoff
  deriving Repr

/-- What an announcer reports: its standing, the last failure, and the tracker's counts. -/
structure Report where
  standing : Standing := .notContactedYet
  error : Option String := none
  seeders : Int := 0
  leechers : Int := 0
  deriving Repr

/-- An announcer and the tracker it talks to. -/
structure Announcer where
  numWant : Int
  minInterval : Int
  standing : Standing := .notContactedYet
  seeders : Int := 0
  leechers : Int := 0
  lastError : Option String := none
  /-- The completion of the download is still to be announced. -/
  awaitingCompletion : Bool := true
  /-- What the tracker does with the next announces, in order; past the end it never answers. -/
  replies : List Reply
  /-- The reply to the announce under way. -/
  pending : Option Reply := none
  timer : Option Timer := none
  /-- The announces made: their events and the number of peers asked for. -/
  calls : List (Event × Int) := []
  /-- The peer lists handed to the download. -/
  peers : List (List String) := []
  closed : Bool := false
  deriving Repr

namespace Announcer

/-- The interval when the tracker gives none: thirty minutes. -/
def defaultInterval : Int := 1800 * 1000000000

/-- Makes an announce; the tracker's reply is pending. -/
def announce (a : Announcer) (e : Event) (numWant : Int) : Announcer :=
  let (r, rest) := match a.replies with
    | [] => (Reply.silent, [])
    | r :: rest => (r, rest)
  { a with calls := a.calls ++ [(e, numWant)], replies := rest, pending := some r,
           standing := .contacting }

/-- Starts announcing: the start is announced, and the completion will be unless the download
is complete already. -/
def start (a : Announcer) (complete : Bool) : Announcer :=
  { a with awaitingCompletion := !complete }.announce .started a.numWant

/-- Takes in the pending reply, when it has come. -/
def receive (a : Announcer) : Announcer :=
  match a.pending with
  | some (.answer interval least seeders leechers ps) =>
    let minInterval := max a.minInterval least
    let interval := if interval ≤ 0 then defaultInterval else interval
    let interval := if interval < minInterval then minInterval else interval
    { a with pending := none, standing := .working, seeders, leechers, minInterval,
             lastError := none, timer := some (.after interval),
             peers := if ps.isEmpty then a.peers else a.peers ++ [ps] }
  | some (.failure text retry) =>
    let timer := match retry with
      | some d => if d > 0 then Timer.after d else .backoff
      | none => .backoff
    { a with pending := none, standing := .notWorking, lastError := some text,
             timer := some timer }
  | _ => a

/-- The download completed: the completion is announced, once, canceling an announce still
under way. -/
def complete (a : Announcer) : Announcer :=
  if !a.awaitingCompletion then a
  else { a with awaitingCompletion := false }.announce .completed 0

/-- Lets replies arrive and due announces happen until the tracker was called `target` times
and its reply, if it came, was taken in, or until the announcer waits for a tracker that does
not answer. `fuel` bounds the announces. -/
def settleWith (target : Nat) : Nat → Announcer → Announcer
  | 0, a => a.receive
  | fuel + 1, a =>
    let a := a.receive
    if a.calls.length ≥ target || a.standing == .contacting then a
    else match a.timer with
      | some _ => settleWith target fuel ({ a with timer := none }.announce .none a.numWant)
      | none => a

/-- Runs the announcer until the tracker was called `target` times. -/
def settle (a : Announcer) (target : Nat) : Announcer :=
  settleWith target target a

/-- What the announcer reports; a closed announcer reports nothing. -/
def report (a : Announcer) : Report :=
  if a.closed then {}
  else { standing := a.standing, error := a.lastError, seeders := a.seeders,
         leechers := a.leechers }

/-- Closes the announcer, without announcing the stop. -/
def close (a : Announcer) : Announcer :=
  { a with closed := true, pending := none, timer := none }

/-- Runs phases one after another: in each the completion is announced when asked, then the
announcer settles until the tracker was called the given number of times. The answer holds,
for each phase, the number of calls made so far and the report. -/
def runPhases (a : Announcer) : List (Bool × Nat) → Announcer × List (Nat × Report)
  | [] => (a, [])
  | (complete, calls) :: rest =>
    let a := (if complete then a.complete else a).settle calls
    let (a', more) := a.runPhases rest
    (a', (a.calls.length, a.report) :: more)

end Announcer

/-- The announces of a stop: every tracker is told once, asking for no peers. -/
def announceStopped (urls : List String) : List (String × Event × Int) :=
  urls.map fun u => (u, .stopped, 0)

end BitTorrent.Tracker
