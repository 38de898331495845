import BitTorrent.Text.Quote

/-!
# Log levels

Messages are logged at one of six levels, from critical down to debug. A level is named in any
letter case; the empty name is the default level, info.
-/

namespace BitTorrent.Log

/-- The importance of a log message. -/
inductive Level where
  | critical
  | error
  | warning
  | notice
  | info
  | debug
  deriving DecidableEq, Repr, Inhabited

namespace Level

/-- The number of a level: lower is more important. -/
def code : Level → Nat
  | critical => 0
  | error => 1
  | warning => 2
  | notice => 3
  | info => 4
  | debug => 5

/-- The upper-case name of a level. -/
def name : Level → String
  | critical => "CRITICAL"
  | error => "ERROR"
  | warning => "WARNING"
  | notice => "NOTICE"
  | info => "INFO"
  | debug => "DEBUG"

/-- A character in lower case, as far as comparing with a name in ASCII needs: the ASCII
capitals, and the two other characters whose lower case is an ASCII letter, U+0130 (capital I
with a dot, lower case `i`) and U+212A (the Kelvin sign, lower case `k`). Any other character
has no lower case in ASCII, so it is kept. -/
def lowerForName (c : Char) : Char :=
  if c.toNat == 0x130 then 'i'
  else if c.toNat == 0x212A then 'k'
  else c.toLower

/-- The level a name stands for; the name is compared in lower case and not trimmed. -/
def parse (s : String) : Except String Level :=
  match s.map lowerForName with
  | "debug" => .ok debug
  | "info" | "" => .ok info
  | "notice" => .ok notice
  | "warning" | "warn" => .ok warning
  | "error" => .ok error
  | "critical" => .ok critical
  | _ => .error ("unknown log level: " ++ Quote.string s)

/-- Messages of level `m` are shown when the threshold is `t`. -/
def shows (t m : Level) : Bool :=
  m.code ≤ t.code

end Level

end BitTorrent.Log
