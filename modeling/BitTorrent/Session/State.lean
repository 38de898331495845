/-!
# States of a peer session

A session connects, then exchanges handshakes, then is established until it closes. It can close
from any earlier state, and never leaves the closed state.
-/

namespace BitTorrent.Session

/-- The connection state of a peer session. -/
inductive State where
  | connecting
  | handshaking
  | established
  | closed
  deriving DecidableEq, Repr, Inhabited

namespace State

/-- The word for a state. -/
def name : State → String
  | connecting => "connecting"
  | handshaking => "handshaking"
  | established => "established"
  | closed => "closed"

/-- The state with a given code, if there is one. -/
def ofCode? : Int → Option State
  | 0 => some connecting
  | 1 => some handshaking
  | 2 => some established
  | 3 => some closed
  | _ => none

/-- The text of a state code: its word, or nothing when no state has the code. -/
def describe (v : Int) : String :=
  (ofCode? v).elim "" name

/-- The moves a session may make. -/
def Next : State → State → Bool
  | connecting, handshaking => true
  | connecting, closed => true
  | handshaking, established => true
  | handshaking, closed => true
  | established, closed => true
  | _, _ => false

end State

end BitTorrent.Session
