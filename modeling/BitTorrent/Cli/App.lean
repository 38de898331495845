import BitTorrent.Cli.Flags

/-!
# Command-line applications

An application has global flags and commands, each command with flags of its own. Every
application also takes `--help` and `--version` and has a `help` command; every command also
takes `--help`.

A command line is read in this order. The global flags come first; a fault among them, or one
flag given under two names, shows the fault and the help. Then `--help` shows the help and
`--version` the version. Then the application's own check of its global flags runs and may
stop it. Then the first argument left names a command, whose flags are read from anywhere
among its arguments; a fault there shows the fault and the command's help, and `--help` shows
that help. With no command named, or an unknown one, the `help` command runs on all the
arguments left: with none it shows the help, otherwise the help of the command named by the
first, and a name that is no command ends the application with exit code 3.
-/

namespace BitTorrent.Cli

/-- A command of an application. -/
structure Command where
  name : String
  aliases : List String := []
  usage : String
  /-- How the arguments after the flags are written in help. -/
  argsUsage : String := ""
  flags : List Flag := []
  deriving Repr

/-- An application. -/
structure App where
  name : String
  usage : String
  version : String
  flags : List Flag
  commands : List Command
  deriving Repr

/-- How reading a command line ends when it runs no command of the application. -/
inductive Ending where
  | success
  /-- The application returns an error with this text. -/
  | failure (text : String)
  /-- The application exits at once with this code. -/
  | exit (code : Nat)
  deriving DecidableEq, Repr

/-- What a command line does: either it shows text on the standard output and error and ends,
or it runs a command with the global flags and the command's flags. `σ` is what the
application's check of its global flags yields; a command line that ends after that check has
it. -/
inductive Dispatch (σ : Type) where
  | shown (out err : List String) (ending : Ending) (checked : Option σ)
  | run (command : Command) (checked : σ) (globals flags : FlagSet)

/-- The flag that asks for help. -/
def helpFlag : Flag := ⟨["help", "h"], "show help", .switch false⟩

/-- The flag that asks for the version. -/
def versionFlag : Flag := ⟨["version", "v"], "print the version", .switch false⟩

/-- The command that shows help. -/
def helpCommand : Command :=
  { name := "help", aliases := ["h"], usage := "Shows a list of commands or help for one command",
    argsUsage := "[command]" }

namespace Command

/-- The names of a command. -/
def names (c : Command) : List String :=
  c.name :: c.aliases

/-- The flags a command reads: its own and the help flag. -/
def allFlags (c : Command) : List Flag :=
  c.flags ++ [helpFlag]

end Command

namespace App

/-- The global flags: the application's own, then the help and version flags. -/
def allFlags (a : App) : List Flag :=
  a.flags ++ [helpFlag, versionFlag]

/-- The commands: the application's own, then the help command. -/
def allCommands (a : App) : List Command :=
  a.commands ++ [helpCommand]

/-- The command with a name. -/
def command? (a : App) (name : String) : Option Command :=
  a.allCommands.find? (·.names.contains name)

/-- The table of commands. -/
def commandRows (a : App) : List String :=
  table (a.allCommands.map fun c => (", ".intercalate c.names, c.usage))

/-- The help of the application. -/
def help (a : App) : List String :=
  ["NAME:", "   " ++ a.name ++ " - " ++ a.usage, "", "USAGE:",
   "   " ++ a.name ++ " [global options] command [command options] [arguments...]", "",
   "VERSION:", "   " ++ a.version, "", "COMMANDS:"] ++ a.commandRows ++
  ["", "GLOBAL OPTIONS:"] ++ table (a.allFlags.map Flag.helpRow)

/-- The help of a command; a command with flags ends with a line of three spaces. -/
def commandHelp (a : App) (c : Command) : List String :=
  ["NAME:", "   " ++ a.name ++ " " ++ c.name ++ " - " ++ c.usage, "", "USAGE:",
   "   " ++ a.name ++ " " ++ c.name ++ (if c.flags.isEmpty then "" else " [command options]") ++
     " " ++ (if c.argsUsage.isEmpty then "[arguments...]" else c.argsUsage)] ++
  (if c.flags.isEmpty then [] else ["", "OPTIONS:"] ++ table (c.flags.map Flag.helpRow) ++ ["   "])

/-- The help of the application as a command with commands, shown for an empty command name. -/
def commandsHelp (a : App) : List String :=
  ["NAME:", "   " ++ a.name ++ " - " ++ a.usage, "", "USAGE:",
   "   " ++ a.name ++ " command [command options] [arguments...]", "", "COMMANDS:"] ++
  a.commandRows ++ ["", "OPTIONS:"] ++ table (a.allFlags.map Flag.helpRow) ++ ["   "]

/-- The version line. -/
def versionLine (a : App) : String :=
  a.name ++ " version " ++ a.version

variable {σ : Type}

/-- What the `help` command does with its arguments, after the check yielded `s`. -/
def helpAction (a : App) (s : σ) (args : List String) : Dispatch σ :=
  match args with
  | [] => .shown a.help [] .success (some s)
  | name :: _ =>
    if name.isEmpty then .shown a.commandsHelp [] .success (some s)
    else match a.command? name with
      | some c => .shown (a.commandHelp c) [] .success (some s)
      | none => .shown [] ["No help topic for '" ++ name ++ "'"] (.exit 3) (some s)

/-- Reads the arguments of command `c`, after the check yielded `s`. -/
def runCommand (a : App) (c : Command) (s : σ) (globals : FlagSet) (args : List String) :
    Dispatch σ :=
  let (fs, fault) := FlagSet.parse c.allFlags (reorder c.allFlags args)
  match fault.orElse fun _ => fs.checkForms with
  | some e =>
    .shown (["Incorrect Usage: " ++ e.message, ""] ++ a.commandHelp c) [] (.failure e.message)
      (some s)
  | none =>
    if fs.switch "help" then .shown (a.commandHelp c) [] .success (some s)
    else if c.name == helpCommand.name then a.helpAction s fs.args
    else .run c s globals fs

/-- Reads a command line (without the program's name). `check` is the application's check of
its global flags: the text of an error, or what it yields. -/
def dispatch (a : App) (check : FlagSet → Except String σ) (args : List String) : Dispatch σ :=
  let (globals, fault) := FlagSet.parse a.allFlags args
  match globals.checkForms, fault with
  | some e, _ => .shown ([e.message] ++ a.help) [] (.failure e.message) none
  | none, some e =>
    .shown (["Incorrect Usage. " ++ e.message, ""] ++ a.help) [] (.failure e.message) none
  | none, none =>
    if globals.switch "help" then .shown a.help [] .success none
    else if globals.switch "version" then .shown [a.versionLine] [] .success none
    else match check globals with
      | .error e => .shown [] [] (.failure e) none
      | .ok s =>
        match globals.args with
        | name :: rest =>
          match a.command? name with
          | some c => a.runCommand c s globals rest
          | none => a.helpAction s globals.args
        | [] => a.helpAction s []

end App

end BitTorrent.Cli
