/-!
# Announce events

An announce to a tracker carries the event that caused it: none for a periodic announce, or the
start, completion or stop of the transfer.
-/

namespace BitTorrent.Tracker

/-- The event an announce reports. -/
inductive Event where
  | none
  | completed
  | started
  | stopped
  deriving DecidableEq, Repr, Inhabited

namespace Event

/-- The code of an event. -/
def code : Event → Int
  | .none => 0
  | completed => 1
  | started => 2
  | stopped => 3

/-- The word for an event; the periodic announce is "empty". -/
def name : Event → String
  | .none => "empty"
  | completed => "completed"
  | started => "started"
  | stopped => "stopped"

/-- The text of an event code: codes without an event read as the periodic announce. -/
def describe (v : Int) : String :=
  match v with
  | 1 => completed.name
  | 2 => started.name
  | 3 => stopped.name
  | _ => Event.none.name

end Event

end BitTorrent.Tracker
