import BitTorrent.Torrent.Download
import BitTorrent.Tracker.Announcer

/-!
# Joining a swarm

A download joins a swarm: it starts, announces itself to the swarm's tracker when it has one,
and learns the addresses of the remotes. The tracker answers the first announce with its
counts and the first remote, or fails; either way its report becomes the download's tracker
statistics. Remotes the download dials are queued as it learns of them; none of them answers,
so no session comes up. When the download stops, the stop is announced with its final
counters, and it is closed.
-/

namespace BitTorrent.Torrent

/-- What the tracker answers to the first announce. -/
inductive TrackerAnswer where
  | counts (seeders leechers : Int)
  | failure (text : String)
  deriving Repr

/-- A swarm to join. -/
structure Swarm where
  /-- Whether the download dials the remotes, rather than waiting for them to connect. -/
  outgoing : Bool
  /-- The remotes by address. -/
  remotes : List String
  /-- The tracker's address and answer, when the swarm has a tracker. -/
  tracker : Option (String × TrackerAnswer) := none
  /-- Addresses handed to the download besides those of the tracker. -/
  extra : List String := []
  deriving Repr

/-- A download's time in a swarm: its state once it joined, after each remote, and at the end,
and the announces made, each with the state it was made in. -/
structure SwarmRun (σ : Type) where
  joined : Download σ
  afterRemotes : List (Download σ)
  final : Download σ
  announces : List (Tracker.Event × Int × Download σ)

namespace Download

variable {σ : Type}

/-- The retry interval of a failed tracker, and the interval it asks for: one hour. -/
def trackerHour : Int := 3600 * 1000000000

/-- Announces the start to the tracker and takes in its answer: the download with the
tracker's report and the addresses it named queued. -/
def announceStart (d : Download σ) (url : String) (answer : TrackerAnswer)
    (first : List String) : Download σ :=
  let reply := match answer with
    | .counts seeders leechers => Tracker.Reply.answer trackerHour 0 seeders leechers first
    | .failure text => .failure text (some trackerHour)
  let a : Tracker.Announcer := { numWant := d.config.trackerNumWant,
                                 minInterval := d.config.trackerMinAnnounceInterval,
                                 replies := [reply] }
  let a := (a.start d.completed).receive
  let r := a.report
  let d := { d with trackers := [⟨url, r.standing.name, r.error.getD "", r.seeders, r.leechers⟩] }
  d.addPeers a.peers.flatten

/-- Joins a swarm, then leaves it. A start that faults leaves the download as it was. -/
def joinSwarm (d : Download σ) (s : Swarm) : SwarmRun σ :=
  let d := match d.start with
    | .ok (_, d) => d
    | .error _ => d
  let first := if s.outgoing then s.remotes.take 1 else []
  let (d, announces) := match s.tracker with
    | some (url, answer) =>
      (d.announceStart url answer first, [(Tracker.Event.started, d.config.trackerNumWant, d)])
    | none => (d, [])
  let d := d.addPeers s.extra
  let joined := d
  let dialed := if s.tracker.isSome then s.remotes.drop 1 else s.remotes
  let steps := s.remotes.map fun r => if s.outgoing && dialed.contains r then [r] else []
  let states := steps.scanl (fun d rs => d.addPeers rs) d
  let d := states.getLastD d
  let announces := if s.tracker.isSome then announces ++ [(.stopped, 0, d.writeResume)]
    else announces
  { joined, afterRemotes := states.drop 1, final := d.close, announces }

end Download

end BitTorrent.Torrent
