/-!
# Status of a torrent

A torrent is stopped, verifying its files, downloading, seeding, or stopping.
-/

namespace BitTorrent.Torrent

/-- What a torrent is doing. -/
inductive Status where
  | stopped
  | verifying
  | downloading
  | seeding
  | stopping
  deriving DecidableEq, Repr, Inhabited

namespace Status

/-- The code of a status. -/
def code : Status → Int
  | stopped => 0
  | verifying => 1
  | downloading => 2
  | seeding => 3
  | stopping => 4

/-- The word for a status. -/
def name : Status → String
  | stopped => "Stopped"
  | verifying => "Verifying"
  | downloading => "Downloading"
  | seeding => "Seeding"
  | stopping => "Stopping"

/-- The status with a code, if there is one. -/
def ofCode? (v : Int) : Option Status :=
  [stopped, verifying, downloading, seeding, stopping].find? (·.code == v)

/-- The text of a status code: its word, or nothing when no status has the code. -/
def describe (v : Int) : String :=
  (ofCode? v).elim "" name

end Status

end BitTorrent.Torrent
