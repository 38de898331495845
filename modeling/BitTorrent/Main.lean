import BitTorrent.Cli.Client

/-!
# The command line

`main` runs the client with the arguments it was started with, on a machine of its own: an
empty working directory and an empty home directory below the top directory `/`. It prints the
client's standard output, then its log records and the other lines of its standard error, and
ends with the client's exit code (zero for a client left seeding).
-/

namespace BitTorrent.Cli

/-- The machine the command line runs the client on: empty working and home directories. -/
def emptyHost : Host :=
  { top := "", tree := ⟨[(["work"], .dir), (["home"], .dir)]⟩, cwd := ["work"], home := ["home"] }

end BitTorrent.Cli

/-- Runs the client with the process's arguments and prints what it shows. -/
def main (args : List String) : IO UInt32 := do
  let t := BitTorrent.Cli.run BitTorrent.Cli.emptyHost args .never
  for line in t.out do
    IO.println line
  let err ← IO.getStderr
  for r in t.records do
    err.putStrLn r.line
  for line in t.err do
    err.putStrLn line
  pure (t.exit.getD 0).toUInt32
