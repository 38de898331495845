import BitTorrent.Config.Basic
import BitTorrent.Yaml.Node
import BitTorrent.Yaml.Resolve
import BitTorrent.Text.Base64
import BitTorrent.Text.Duration
import BitTorrent.Text.Utf8

/-!
# Reading settings from YAML

A settings file is a YAML mapping from setting names to values, read over the defaults. Only
the first document counts, and an empty stream changes nothing. Names that are not settings are
passed over without looking at their values, and a name given twice takes its last value. A
null value sets the zero value, and a document that is only null zeroes every setting.

An integer setting takes an integer, or a float cut toward zero when it is at most `2 ^ 63`. A
duration takes the same, or a string in duration notation. A string setting takes the text of
any scalar, or the bytes a `!!binary` scalar encodes. Every value that does not fit is reported
with its line, its tag and the type it did not fit, and the settings are then not used; a
value's text is shown in full up to ten bytes and cut to seven otherwise.

The merge key `<<` reads the settings of a mapping, or of each mapping of a sequence, the last
first, so that earlier mappings win. An alias reads its anchored node again, which may not hold
the alias itself; reading through aliases may not make up nearly all of the work of a long
document.

Faults end the reading at once: a fault of the stream, an alias of an unknown anchor, a
merge of something that is not a mapping, a value that contradicts its tag, bad base64, and a
self-holding alias.
-/

namespace BitTorrent.Config

open Yaml

/-- Where a node is read into: the settings, one setting, or the name of a setting. -/
inductive Target where
  | settings
  | setting (name : String) (kind : Kind)
  | name
  deriving Repr

/-- The name of a target's type in reports. -/
def Target.typeName : Target → String
  | .settings => "torrent.Config"
  | .setting _ kind => kind.typeName
  | .name => "string"

/-- The state of reading a document into settings. -/
structure Decoder where
  doc : Document
  config : Config
  /-- The name read last from a key. -/
  name : String := ""
  /-- The reports of values that did not fit, last first. -/
  reports : List String := []
  /-- The aliases being read, innermost first. -/
  aliases : List Nat := []
  /-- How many nodes were read, and how many of them through an alias. -/
  reads : Nat := 0
  aliasReads : Nat := 0

/-- The node at an index. -/
def Decoder.node (d : Decoder) (i : Nat) : Node := d.doc.nodes.getD i default

/-- Whether reading through aliases makes up too much of the work: more than 100 alias reads
among more than 1000 reads, in a share above 99% up to 400000 reads, falling evenly to 10% at
4000000 reads. -/
def excessive (aliasReads reads : Nat) : Bool :=
  aliasReads > 100 && reads > 1000 &&
    (if reads ≤ 400000 then aliasReads * 100 > 99 * reads
     else if reads ≥ 4000000 then aliasReads * 10 > reads
     else aliasReads * 100 * 3600000 > reads * (99 * 3600000 - 89 * (reads - 400000)))

/-- The report of a node that does not fit a target, shown with `tag` unless it has its own. -/
def Decoder.report (d : Decoder) (n : Node) (tag : String) (t : Target) : Decoder :=
  let (tag, line, shown) := match n with
    | .scalar text own _ line =>
      let bs := text.toUTF8.toList
      (if own.isEmpty then tag else own, line,
        if bs.length > 10 then " `" ++ Utf8.lossy (bs.take 7) ++ "...`" else " `" ++ text ++ "`")
    | n => (tag, n.line, "")
  let r := "line " ++ toString (line + 1) ++ ": cannot unmarshal " ++ shortTag tag ++ shown ++
    " into " ++ t.typeName
  { d with reports := r :: d.reports }

/-- The integer a float is cut to, as a 64-bit integer holds it; none when it is above `2 ^ 63`
or not a number. Values at `2 ^ 63` and at or below `-2 ^ 63` give `-2 ^ 63`. -/
def truncate (x : Binary64) : Option Int :=
  if !x.isFinite then (if x.frac == 0 && x.neg then some (-(Nat.pow 2 63)) else none)
  else
    let (m, e) := x.parts
    let mag : Nat := if e ≥ 0 then m * Nat.pow 2 e.toNat else m / Nat.pow 2 (-e).toNat
    let exact : Bool := e ≥ 0 || m % Nat.pow 2 (-e).toNat == 0
    if !x.neg && (mag > Nat.pow 2 63 || (mag == Nat.pow 2 63 && exact)) then
      if mag == Nat.pow 2 63 && exact then some (-(Nat.pow 2 63)) else none
    else if x.neg && mag ≥ Nat.pow 2 63 then some (-(Nat.pow 2 63))
    else some (if x.neg then -(mag : Int) else mag)

/-- The zero value of a kind. -/
def Kind.zero : Kind → Value
  | .string => .text ""
  | _ => .number 0

/-- Stores a value read for a target. -/
def Decoder.store (d : Decoder) (t : Target) (v : Value) : Decoder :=
  match t, v with
  | .settings, _ => d
  | .setting name _, v => { d with config := d.config.set name v }
  | .name, .text s => { d with name := s }
  | .name, .number _ => d

/-- Reads a scalar into a target: whether it fit. -/
def Decoder.scalar (d : Decoder) (n : Node) (text tag : String) (implicit : Bool) (t : Target) :
    Except String (Bool × Decoder) := do
  let (rtag, r) ← if tag.isEmpty && !implicit then pure (standardTag "str", Resolved.str text)
    else resolve tag text
  let r ← if rtag == standardTag "binary" then
      match Base64.decode text.toUTF8.toList with
      | some bs => pure (Resolved.str (Utf8.lossy bs))
      | none => .error "yaml: !!binary value contains invalid base64 data"
    else pure r
  let bad := fun (_ : Unit) => Except.ok (false, d.report n rtag t)
  match r, t with
  | .null, .settings => return (true, { d with config := zero })
  | .null, .setting _ kind => return (true, d.store t kind.zero)
  | .null, .name => return (true, { d with name := "" })
  | _, .settings => bad ()
  | .str s, .name => return (true, d.store t (.text s))
  | _, .name => return (true, d.store t (.text text))
  | .str s, .setting _ .string => return (true, d.store t (.text s))
  | _, .setting _ .string => return (true, d.store t (.text text))
  | .int v, .setting _ _ => return (true, d.store t (.number v))
  | .float x, .setting _ _ =>
    match truncate x with
    | some v => return (true, d.store t (.number v))
    | none => bad ()
  | .str s, .setting _ .duration =>
    match Duration.parse s with
    | some v => return (true, d.store t (.number v))
    | none => bad ()
  | _, _ => bad ()

/-- Whether a key is the merge key: the scalar `<<`, untagged or tagged as a merge. -/
def isMergeKey (n : Node) : Bool :=
  match n with
  | .scalar text tag implicit _ => text == "<<" && (implicit || tag == standardTag "merge")
  | _ => false

/-- The fault of a merge of something that is not a mapping. -/
def mergeFault {α : Type} : Except String α :=
  .error "yaml: map merge requires map or sequence of maps as the value"

/-- Reads the node at an index into a target: whether it fit. Aliases are read through, a
mapping fills the settings, and every other mismatch is reported. -/
def Decoder.read : Nat → Decoder → Nat → Target → Except String (Bool × Decoder)
  | 0, _, _, _ => .error "yaml: document too deep"
  | fuel + 1, d, i, t => do
    let d := { d with reads := d.reads + 1,
                      aliasReads := if d.aliases.isEmpty then d.aliasReads else d.aliasReads + 1 }
    if excessive d.aliasReads d.reads then .error "yaml: document contains excessive aliasing"
    match d.node i with
    | .alias name target _ =>
      if d.aliases.contains i then
        .error ("yaml: anchor '" ++ name ++ "' value contains itself")
      let (ok, d') ← Decoder.read fuel { d with aliases := i :: d.aliases } target t
      return (ok, { d' with aliases := d.aliases })
    | n@(.scalar text tag implicit _) => d.scalar n text tag implicit t
    | n@(.sequence _ _) => return (false, d.report n (standardTag "seq") t)
    | n@(.mapping pairs _) =>
      match t with
      | .settings =>
        let mut d := d
        for (k, v) in pairs do
          if isMergeKey (d.node k) then
            match d.node v with
            | .mapping _ _ => d := (← Decoder.read fuel d v .settings).2
            | .alias _ target _ =>
              if !(d.node target).isMapping then mergeFault
              d := (← Decoder.read fuel d v .settings).2
            | .sequence items _ =>
              for item in items.reverse do
                match d.node item with
                | .alias _ target _ => if !(d.node target).isMapping then mergeFault
                | .mapping _ _ => pure ()
                | _ => mergeFault
                d := (← Decoder.read fuel d item .settings).2
            | _ => mergeFault
          else
            let (ok, d') ← Decoder.read fuel d k .name
            d := d'
            if ok then
              match keys.find? (·.1 == d.name) with
              | some (name, kind) => d := (← Decoder.read fuel d v (.setting name kind)).2
              | none => pure ()
        return (true, d)
      | _ => return (false, d.report n (standardTag "map") t)

/-- Reads a document over the default settings. -/
def ofDocument (doc : Document) : Except String Config := do
  let d : Decoder := { doc, config := {}, reads := 1 }
  let (_, d) ← d.read (doc.nodes.size * doc.nodes.size + 2) doc.root .settings
  if d.reports.isEmpty then return d.config
  else .error ("yaml: unmarshal errors:\n  " ++ "\n  ".intercalate d.reports.reverse)

/-- Reads settings from the bytes of a YAML file over the defaults. -/
def ofYamlBytes (input : List UInt8) : Except String Config := do
  match ← Document.ofBytes input with
  | none => return {}
  | some doc => ofDocument doc

/-- Reads settings from YAML text over the defaults. -/
def ofYaml (text : String) : Except String Config :=
  ofYamlBytes text.toUTF8.toList

end BitTorrent.Config
