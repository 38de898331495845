import BitTorrent.Cli.App
import BitTorrent.Cli.Host
import BitTorrent.Net.Address
import BitTorrent.Config.Load
import BitTorrent.Meta.Torrent
import BitTorrent.Torrent.Download
import BitTorrent.Log.Level
import BitTorrent.Bytes.Hex

/-!
# The client's command line

The client is the application `drizzle` with one command, `download`, which downloads the
torrent of a torrent file given as its only argument. Its global flags choose the settings
file (`~/.drizzle.yaml`) and the level of the log, `info` unless `--debug` asks for `debug`; an
unknown level stops the client before any command runs.

A download reads the settings, a missing file meaning the defaults, and lets `--port` and
`--dest` override them; `~` in the settings file's path, the data directory and the database
path stands for the home directory. It reads the torrent file, resolves the peer addresses for
IPv4, makes the database's directory, opens the database and the torrent's resume state
(bucket `torrents`, keyed by the hexadecimal info hash), creates and starts the torrent, and
queues the peers. A complete torrent prints its statistics and logs that the download
finished, then ends unless it was asked to seed. Otherwise the client prints its statistics at
every tick of its interval until it is interrupted, and logs the interrupt. Every error ends the
client with exit code 1 and is logged; only records at or above the log level are shown. At
the end the torrent is closed, which writes its resume state, and the database is kept.
-/

namespace BitTorrent.Cli

open Torrent (Download)

/-- The command that downloads a torrent. -/
def downloadCommand : Command where
  name := "download"
  usage := "download a torrent"
  argsUsage := "<file.torrent>"
  flags := [⟨["peer", "p"], "peer `ADDRESS` to connect, can be given multiple times", .texts []⟩,
    ⟨["dest"], "download files into `DIR` instead of data_dir in config", .text ""⟩,
    ⟨["port"], "listen port for incoming peer connections", .integer (-1)⟩,
    ⟨["seed"], "continue seeding after download is finished", .switch false⟩,
    ⟨["interval"], "print stats at this interval", .duration 5000000000⟩]

/-- The client as an application. -/
def client : App where
  name := "drizzle"
  usage := "BitTorrent client"
  version := "0.1.0"
  flags := [⟨["config", "c"], "read config from `FILE`", .text "~/.drizzle.yaml"⟩,
    ⟨["log-level"], "one of debug, info, notice, warning, error, critical", .text "info"⟩,
    ⟨["debug", "d"], "enable debug log, same as -log-level=debug", .switch false⟩]
  commands := [downloadCommand]

/-- The log level the global flags ask for. -/
def logLevel (globals : FlagSet) : Except String Log.Level :=
  if globals.switch "debug" then .ok .debug else Log.Level.parse (globals.text "log-level")

/-- When the client is interrupted. -/
inductive Interrupt where
  | never
  /-- Once it logged that the download finished. -/
  | afterFinish
  /-- Once it printed its first block of statistics; what it prints after that block is not
  read. -/
  | afterStats
  deriving DecidableEq, Repr

/-- A record of the client's log. -/
structure Record where
  level : Log.Level
  message : String
  deriving Repr

/-- The name the client's logger goes by. -/
def loggerName : String := "drizzle"

/-- A record as the log shows it, without its time and place. -/
def Record.line (r : Record) : String :=
  let name := r.level.name
  name ++ String.ofList (List.replicate (8 - name.length) ' ') ++ " [" ++ loggerName ++ "] " ++
    r.message

/-- What a run of the client shows and leaves behind. -/
structure Transcript where
  host : Host
  level : Log.Level := .info
  /-- The lines of the standard output. -/
  out : List String := []
  /-- The records of the log that were shown. -/
  records : List Record := []
  /-- Other lines of the standard error. -/
  err : List String := []
  /-- The exit code; none while the client is still running. -/
  exit : Option Nat := none
  /-- While the client waits: its interval in nanoseconds and the statistics it prints at
  every tick. -/
  waiting : Option (Int × List String) := none
  deriving Repr

/-- How a download stops early: with an error, or with a broken promise of the program. -/
inductive Stop where
  | error (text : String)
  | panic (text : String)
  deriving Repr

/-- The steps of a run. -/
abbrev Step := ExceptT Stop (StateM Transcript)

/-- Logs a record when the level shows it. -/
def log (level : Log.Level) (message : String) : Step Unit :=
  modify fun t =>
    if t.level.shows level then { t with records := t.records ++ [⟨level, message⟩] } else t

/-- Prints lines. -/
def print (lines : List String) : Step Unit :=
  modify fun t => { t with out := t.out ++ lines }

/-- The host as it is now. -/
def host : Step Host := do
  return (← get).host

/-- Replaces the host. -/
def setHost (h : Host) : Step Unit :=
  modify fun t => { t with host := h }

/-- Stops with the error of a failed result. -/
def orStop {α ε : Type} (text : ε → String) (r : Except ε α) : Step α :=
  match r with
  | .ok a => pure a
  | .error e => throw (.error (text e))

/-- The lines of text, the last newline ending the last line. -/
def linesOf (s : String) : List String :=
  let ls := s.splitOn "\n"
  if ls.getLast? == some "" then ls.dropLast else ls

/-- Reads the settings: the file, then the flags, with `~` expanded in the paths. -/
def loadConfig (globals flags : FlagSet) : Step Config := do
  let h ← host
  let path ← orStop id (h.expandHome (globals.text "config"))
  let (r, h) := h.readFile path
  setHost h
  let cfg ← match r with
    | .ok bytes => orStop id (Config.ofYamlBytes bytes)
    | .error e => if e.errno == .noEntry then pure {} else throw (.error e.message)
  let port := flags.integer "port"
  let cfg := if port ≥ 0 then { cfg with port } else cfg
  let dest := flags.text "dest"
  let cfg := if dest.isEmpty then cfg else { cfg with dataDir := dest }
  let dataDir ← orStop id (h.expandHome cfg.dataDir)
  let database ← orStop id (h.expandHome cfg.database)
  return { cfg with dataDir, database }

/-- The block of statistics the client prints, ending with an empty line. -/
def statsBlock (d : Download Host) : Except String (List String) :=
  d.stats.lines.map fun text => linesOf (text ++ "\n")

/-- Prints the statistics. -/
def printStats (d : Download Host) : Step Unit :=
  match statsBlock d with
  | .ok lines => print lines
  | .error e => log .error e

/-- Waits for the torrent: a complete one prints its statistics and logs that the download
finished, and ends there unless it seeds; then the statistics are printed at every tick until
the interrupt. -/
def await (d : Download Host) (seed : Bool) (interval : Int) (interrupt : Interrupt) :
    Step Unit := do
  if interval ≤ 0 then throw (.panic "non-positive interval for NewTicker")
  let waitOn : Step Unit :=
    modify fun t => { t with waiting := some (interval, (statsBlock d).toOption.getD []) }
  if d.completed then
    printStats d
    log .info "download finished"
    if !seed then return
    if interrupt == .never then waitOn else log .notice "received interrupt, stopping"
  else if interrupt == .afterStats then
    printStats d
    log .notice "received interrupt, stopping"
  else waitOn

/-- Closes the torrent and keeps the database in its file. -/
def finish (d : Download Host) (database : String) : Step Unit := do
  let d := d.close
  let h := d.store
  setHost (match d.resume with
    | some (_, db) => h.saveDatabase database db
    | none => h)

/-- The `download` command. -/
def download (globals flags : FlagSet) (interrupt : Interrupt) : Step Unit := do
  if flags.args.length != 1 then throw (.error "torrent file must be given as argument")
  let cfg ← loadConfig globals flags
  let (r, h) := (← host).readFile (flags.args.headD "")
  setHost h
  let bytes ← orStop PathError.message r
  let mi ← orStop MetaError.message (MetaInfo.ofBytes bytes)
  if !mi.trackers.isEmpty then
    log .info "torrent has trackers but announcing is not supported, add peers with -peer flag"
  let addrs ← (flags.texts "peer").mapM fun s =>
    orStop (fun e => "invalid peer address " ++ Quote.string s ++ ": " ++ Net.ResolveError.message e)
      (Net.resolveTcp4 s)
  let h ← host
  let dest := h.absolute cfg.dataDir
  let storage : FileStorage := ⟨(h.locate dest).getD [], h.top⟩
  let h ← orStop PathError.message (h.mkdirAll (Host.dirOf cfg.database))
  let (db, h) ← orStop id (h.openDatabase cfg.database)
  setHost h
  let (res, db) ← orStop id (Resume.Resumer.create db (Resume.keyOf "torrents")
    (Resume.keyOf (Hex.ofList mi.info.hash)))
  setHost (h.saveDatabase cfg.database db)
  let d ← match Download.create mi.info cfg (Host.fileStore storage) (← host) (some (res, db))
      .indexOrder dest.toUTF8.toList with
    | .ok d => pure d
    | .error e => throw (if e.fault then .panic e.text else .error e.text)
  let (fault, d) ← match d.start with
    | .ok r => pure r
    | .error f => throw (.panic f.message)
  if let some e := fault then
    finish d cfg.database
    throw (.error e.message)
  let d := d.addPeers addrs
  let stopped ← tryCatch (do await d (flags.switch "seed") (flags.duration "interval") interrupt
                             return none)
    fun e => return some e
  finish d cfg.database
  if let some e := stopped then throw e

/-- Keeps the standard output up to the end of the first block of statistics. -/
def cutAfterStats (out : List String) : List String :=
  match out.findIdx? (·.startsWith "trackers: ") with
  | some i => out.take (i + 1)
  | none => out

/-- Runs the client with the arguments after its name on a host, interrupted as given. -/
def run (h : Host) (args : List String) (interrupt : Interrupt) : Transcript :=
  let t : Transcript := { host := h }
  let logError := fun (t : Transcript) (text : String) =>
    if t.level.shows .error then { t with records := t.records ++ [⟨.error, text⟩] } else t
  let t := match client.dispatch logLevel args with
    | .shown out err ending checked =>
      let t := { t with out, err, level := checked.getD .info }
      match ending with
      | .success => { t with exit := some 0 }
      | .failure text => { logError t text with exit := some 1 }
      | .exit code => { t with exit := some code }
    | .run _ level globals flags =>
      match (download globals flags interrupt).run { t with level } with
      | (.ok (), t) => if t.waiting.isSome then t else { t with exit := some 0 }
      | (.error (.error text), t) => { logError t text with exit := some 1 }
      | (.error (.panic text), t) => { t with err := t.err ++ ["panic: " ++ text], exit := some 2 }
  if interrupt == .afterStats then { t with out := cutAfterStats t.out } else t

namespace Transcript

/-- The log lines: each record's level, logger and the first line of its message. -/
def logLines (t : Transcript) : List (String × String × String) :=
  t.records.map fun r => (r.level.name, loggerName, (r.message.splitOn "\n").headD "")

/-- The other lines of the standard error: the further lines of the records' messages, then
the lines written there directly. -/
def errLines (t : Transcript) : List String :=
  (t.records.flatMap fun r => (r.message.splitOn "\n").drop 1) ++ t.err

end Transcript

end BitTorrent.Cli
