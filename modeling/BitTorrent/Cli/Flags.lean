import BitTorrent.Text.Literal
import BitTorrent.Text.Duration
import BitTorrent.Text.Quote

/-!
# Command-line flags

A flag has one or more names and takes a value of one kind: a switch, a text, an integer, a
duration, or a list of texts that grows by one text each time the flag is given. On a command
line a flag is one or two dashes and a name; its value follows an `=` or, except for a switch,
comes as the next argument. Flags end at the first argument that is not one, which is kept, or
at `--`, which is dropped; what follows is left as arguments. The first fault stops the reading
and is reported with the flags read before it.

A flag is given under one of its names only: giving it under two is a fault of its own, found
once the flags were read. A command reads its flags from anywhere among its arguments: its own
flags, with the argument after each that may be its value, are moved before the other
arguments, up to a `--`.

Help shows each flag as its names, each with the name of its value, and what it is for with its
default; the rows of a table line up in columns two spaces apart.
-/

namespace BitTorrent.Cli

/-- A value given to a flag, which also tells the flag's kind. -/
inductive FlagValue where
  | switch (on : Bool)
  | text (s : String)
  | integer (n : Int)
  /-- A duration in nanoseconds. -/
  | duration (ns : Int)
  | texts (ss : List String)
  deriving DecidableEq, Repr

/-- A flag: its names, the main one first, what it is for (a word in backquotes names its
value), and its default, which sets the kind of its values. -/
structure Flag where
  names : List String
  usage : String
  default : FlagValue
  deriving Repr

/-- Why the flags of a command line could not be read. -/
inductive FlagError where
  | badSyntax (arg : String)
  | undefined (name : String)
  | needsArgument (name : String)
  | badSwitch (value name : String)
  | badValue (value name : String) (fault : NumeralFault)
  /-- A flag given under two of its names: the later name in the flag's list, then the
  earlier. -/
  | twoForms (later earlier : String)
  deriving Repr

/-- The text a flag error is reported with. -/
def FlagError.message : FlagError → String
  | .badSyntax a => "bad flag syntax: " ++ a
  | .undefined n => "flag provided but not defined: -" ++ n
  | .needsArgument n => "flag needs an argument: -" ++ n
  | .badSwitch v n => "invalid boolean value " ++ Quote.string v ++ " for -" ++ n ++ ": parse error"
  | .badValue v n f =>
    "invalid value " ++ Quote.string v ++ " for flag -" ++ n ++ ": " ++
      (match f with
       | .invalid => "parse error"
       | .range => "value out of range")
  | .twoForms a b => "Cannot use two forms of the same flag: " ++ a ++ " " ++ b

/-- Flags as read from a command line. -/
structure FlagSet where
  flags : List Flag
  /-- The names flags were given by, each once, in the order first given. -/
  given : List String := []
  /-- The values given, by the main name of their flag. -/
  values : List (String × FlagValue) := []
  /-- The arguments after the flags. -/
  args : List String := []
  deriving Repr

namespace FlagSet

/-- The flag with a name. -/
def find? (fs : FlagSet) (name : String) : Option Flag :=
  fs.flags.find? (·.names.contains name)

/-- The value of the flag with a name: as given, or its default. -/
def value (fs : FlagSet) (name : String) : Option FlagValue :=
  (fs.find? name).map fun f => ((fs.values.lookup (f.names.headD "")).getD f.default)

/-- Whether the switch with a name is on. -/
def switch (fs : FlagSet) (name : String) : Bool :=
  match fs.value name with
  | some (.switch b) => b
  | _ => false

/-- The text of the flag with a name. -/
def text (fs : FlagSet) (name : String) : String :=
  match fs.value name with
  | some (.text s) => s
  | _ => ""

/-- The integer of the flag with a name. -/
def integer (fs : FlagSet) (name : String) : Int :=
  match fs.value name with
  | some (.integer n) => n
  | _ => 0

/-- The duration of the flag with a name, in nanoseconds. -/
def duration (fs : FlagSet) (name : String) : Int :=
  match fs.value name with
  | some (.duration n) => n
  | _ => 0

/-- The texts of the flag with a name. -/
def texts (fs : FlagSet) (name : String) : List String :=
  match fs.value name with
  | some (.texts ss) => ss
  | _ => []

/-- Records that flag `f` was given by `name` with value `v`; a list of texts grows. -/
def assign (fs : FlagSet) (f : Flag) (name : String) (v : FlagValue) : FlagSet :=
  let key := f.names.headD ""
  let v := match v, fs.values.lookup key with
    | .texts new, some (.texts old) => .texts (old ++ new)
    | _, _ => v
  { fs with given := if fs.given.contains name then fs.given else fs.given ++ [name],
            values := (key, v) :: fs.values.filter (·.1 != key) }

/-- Reads the text `v` given to flag `f` by `name`. -/
def read (f : Flag) (name v : String) : Except FlagError FlagValue :=
  match f.default with
  | .switch _ =>
    match Literal.readBool v with
    | some b => .ok (.switch b)
    | none => .error (.badSwitch v name)
  | .text _ => .ok (.text v)
  | .integer _ => (Literal.readInt v).map .integer |>.mapError (.badValue v name)
  | .duration _ =>
    match Duration.parse v with
    | some d => .ok (.duration d)
    | none => .error (.badValue v name .invalid)
  | .texts _ => .ok (.texts [v])

/-- Reads flags from the front of `args`: the flags read, and the fault that stopped the
reading. -/
def parseArgs (fs : FlagSet) : List String → FlagSet × Option FlagError
  | [] => ({ fs with args := [] }, none)
  | s :: rest =>
    match s.toList with
    | '-' :: c :: more =>
      if c == '-' && more.isEmpty then ({ fs with args := rest }, none)
      else
        let body := if c == '-' then more else c :: more
        match body with
        | [] | '-' :: _ | '=' :: _ => (fs, some (.badSyntax s))
        | _ =>
          let name := String.ofList (body.takeWhile (· != '='))
          let given := if body.contains '=' then
            some (String.ofList ((body.dropWhile (· != '=')).drop 1)) else none
          match fs.find? name with
          | none => (fs, some (.undefined name))
          | some f =>
            match f.default, given with
            | .switch _, none => parseArgs (fs.assign f name (.switch true)) rest
            | _, some v =>
              match read f name v with
              | .ok x => parseArgs (fs.assign f name x) rest
              | .error e => (fs, some e)
            | _, none =>
              match rest with
              | [] => (fs, some (.needsArgument name))
              | v :: rest' =>
                match read f name v with
                | .ok x => parseArgs (fs.assign f name x) rest'
                | .error e => (fs, some e)
    | _ => ({ fs with args := s :: rest }, none)

/-- Reads the flags of `flags` from the front of `args`. -/
def parse (flags : List Flag) (args : List String) : FlagSet × Option FlagError :=
  parseArgs { flags } args

/-- Checks that no flag was given under two of its names. -/
def checkForms (fs : FlagSet) : Option FlagError :=
  fs.flags.findSome? fun f =>
    match f.names.filter fs.given.contains with
    | a :: b :: _ => some (.twoForms b a)
    | _ => none

end FlagSet

/-- Whether an argument is one of `flags`: one or two dashes, a name of one of them, and an
optional `=` and value. A lone `-` or `--` is none. -/
def isFlagArg (flags : List Flag) (arg : String) : Bool :=
  if arg == "-" || arg == "--" || !arg.startsWith "-" then false
  else
    let cs := arg.toList
    let cs := if arg.startsWith "--" then cs.drop 2 else cs
    let cs := match cs with
      | '-' :: rest => rest
      | _ => cs
    let name := String.ofList (cs.takeWhile (· != '='))
    flags.any fun f => f.names.contains name

/-- Moves the flags of `flags` among `args`, each with the argument after it when that may be
its value, before the other arguments; a `--` that is no value stops the moving. The flags
moved so far and the other arguments are kept reversed. -/
def reorderFrom (flags : List Flag) (next : Bool) (moved kept : List String) :
    List String → List String
  | [] => moved.reverse ++ kept.reverse
  | a :: as =>
    if next && !isFlagArg flags a then reorderFrom flags false (a :: moved) kept as
    else if a == "--" then moved.reverse ++ "--" :: kept.reverse ++ as
    else if isFlagArg flags a then reorderFrom flags (!a.contains '=') (a :: moved) kept as
    else reorderFrom flags false moved (a :: kept) as

/-- The arguments of a command with its flags first. -/
def reorder (flags : List Flag) (args : List String) : List String :=
  reorderFrom flags false [] [] args

namespace Flag

/-- The backquote that marks the name of a flag's value in its usage. -/
def backquote : Char := Char.ofNat 96

/-- The name of the flag's value in backquotes in its usage, if any, and the usage without the
backquotes. -/
def unquote (f : Flag) : Option String × String :=
  let cs := f.usage.toList
  match cs.idxOf? backquote with
  | none => (none, f.usage)
  | some i =>
    let after := cs.drop (i + 1)
    match after.idxOf? backquote with
    | none => (none, f.usage)
    | some j =>
      let name := String.ofList (after.take j)
      (some name, String.ofList (cs.take i) ++ name ++ String.ofList (after.drop (j + 1)))

/-- The default of a flag as help shows it, after its usage; none for a switch, an empty text
and an empty list. -/
def defaultText (f : Flag) : String :=
  match f.default with
  | .switch _ => ""
  | .text s => if s.isEmpty then "" else " (default: " ++ Quote.string s ++ ")"
  | .integer n => " (default: " ++ toString n ++ ")"
  | .duration d => " (default: " ++ Duration.format d ++ ")"
  | .texts ss => if ss.isEmpty then "" else " (default: " ++ ", ".intercalate ss ++ ")"

/-- The row of a flag in help: its names, each with the name of its value (`value` when the
usage names none) unless it is a switch, and its usage with its default. -/
def helpRow (f : Flag) : String × String :=
  let (named, usage) := f.unquote
  let placeholder := match f.default with
    | .switch _ => named.getD ""
    | _ => named.getD "value"
  let names := f.names.map fun n =>
    (if n.length == 1 then "-" else "--") ++ n ++ (if placeholder.isEmpty then "" else " " ++ placeholder)
  (", ".intercalate names, (usage ++ f.defaultText).trimAscii.toString)

end Flag

/-- The rows of a table, indented by three spaces, with the first column padded to two spaces
past its widest cell. -/
def table (rows : List (String × String)) : List String :=
  let width := rows.foldl (fun w r => max w (r.1.length + 3)) 0 + 2
  rows.map fun (a, b) =>
    let cell := "   " ++ a
    cell ++ String.ofList (List.replicate (width - cell.length) ' ') ++ b

end BitTorrent.Cli
