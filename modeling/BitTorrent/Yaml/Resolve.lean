import BitTorrent.Text.Numeral
import BitTorrent.Yaml.Timestamp

/-!
# What a YAML scalar stands for

A scalar is resolved by its tag and its text. Only the empty tag and the standard tags for
strings, booleans, integers, floats, null and timestamps are resolved; a scalar with any other
tag stands for its text under that tag.

Otherwise the first character of the text decides what is tried, unless the tag asks for a
string: a word that stands for a fixed value is looked up first (booleans such as `yes` or
`off`, nulls such as `~`, the floats `.nan` and `.inf`, and the merge key `<<`); a text starting
with a dot is a float if it reads as one; a text starting with a digit or a sign is tried as a
timestamp (only untagged or tagged as one), then, with its underscores left out, as an integer
with a base prefix, as an unsigned integer, as a decimal float, and last as a binary integer
after `0b` or `-0b`. Anything else is a string.

A tag asks for what the scalar must resolve to. An integer may stand where a float is asked
for, and becomes one; any other mismatch with a tag other than the string tags is a fault.
-/

namespace BitTorrent.Yaml

/-- The prefix of the standard tags. -/
def standardPrefix : String := "tag:yaml.org,2002:"

/-- A standard tag by its short name. -/
def standardTag (name : String) : String := standardPrefix ++ name

/-- A tag as it is written in messages: `!!name` for a standard tag. -/
def shortTag (tag : String) : String :=
  if tag.startsWith standardPrefix then "!!" ++ String.ofList (tag.toList.drop standardPrefix.length)
  else tag

/-- What a scalar stands for. -/
inductive Resolved where
  | null
  | bool (b : Bool)
  /-- An integer within the signed 64-bit range. -/
  | int (n : Int)
  /-- An integer past the signed 64-bit range but within the unsigned one. -/
  | uint (n : Nat)
  | float (x : Binary64)
  | timestamp
  /-- A text: the scalar's own, or the merge key. -/
  | str (s : String)
  deriving Repr, Inhabited

/-- The words that stand for a fixed value, with their tags. -/
def words : List (String × String × Resolved) :=
  (["y", "Y", "yes", "Yes", "YES", "true", "True", "TRUE", "on", "On", "ON"].map
    (·, standardTag "bool", .bool true)) ++
  (["n", "N", "no", "No", "NO", "false", "False", "FALSE", "off", "Off", "OFF"].map
    (·, standardTag "bool", .bool false)) ++
  (["", "~", "null", "Null", "NULL"].map (·, standardTag "null", .null)) ++
  ([".nan", ".NaN", ".NAN"].map (·, standardTag "float", .float Binary64.nan)) ++
  ([".inf", ".Inf", ".INF", "+.inf", "+.Inf", "+.INF"].map
    (·, standardTag "float", .float Binary64.inf)) ++
  (["-.inf", "-.Inf", "-.INF"].map (·, standardTag "float", .float { Binary64.inf with neg := true })) ++
  [("<<", standardTag "merge", .str "<<")]

/-- Whether a tag is resolved from the text. -/
def resolvable (tag : String) : Bool :=
  tag.isEmpty || ["str", "bool", "int", "float", "null", "timestamp"].any (standardTag · == tag)

/-- How the first character of a text hints at what it may be. -/
inductive Hint where
  | sign
  | digit
  | word
  | dot
  | none
  deriving DecidableEq

/-- The hint of a text; the empty text is looked up as a word. -/
def hint (text : String) : Hint :=
  match text.toList with
  | [] => .word
  | c :: _ =>
    if c == '+' || c == '-' then .sign
    else if '0' ≤ c ∧ c ≤ '9' then .digit
    else if "yYnNtTfFoO~".contains c then .word
    else if c == '.' then .dot
    else .none

/-- Decimal float notation: an optional sign, digits with an optional fraction (or a fraction
alone), and an optional exponent. -/
def floatStyle (cs : List Char) : Bool :=
  let cs := match cs with
    | '+' :: rest | '-' :: rest => rest
    | _ => cs
  let intPart := cs.takeWhile Char.isDigit
  let cs := cs.drop intPart.length
  let (fracOk, cs) := match cs with
    | '.' :: rest =>
      let f := rest.takeWhile Char.isDigit
      (!intPart.isEmpty || !f.isEmpty, rest.drop f.length)
    | _ => (!intPart.isEmpty, cs)
  let expOk := match cs with
    | [] => true
    | e :: rest =>
      (e == 'e' || e == 'E') &&
        (let ds := match rest with
          | '+' :: r | '-' :: r => r
          | _ => rest
         !ds.isEmpty && ds.all Char.isDigit)
  fracOk && expOk

/-- A text starting with a digit or a sign, tried as a number; none when it is none. -/
def numeric (tag text : String) : Option (String × Resolved) :=
  if (tag.isEmpty || tag == standardTag "timestamp") && Timestamp.isTimestamp text then
    some (standardTag "timestamp", .timestamp)
  else
    let plain := text.toList.filter (· != '_')
    match Numeral.readSigned 0 plain with
    | some n => some (standardTag "int", .int n)
    | none =>
    match Numeral.readUnsigned 0 plain with
    | some n => some (standardTag "int", .uint n)
    | none =>
    match (if floatStyle plain then Numeral.readFloat plain else none) with
    | some x => some (standardTag "float", .float x)
    | none =>
    match plain with
    | '0' :: 'b' :: ds =>
      match Numeral.readSigned 2 ds with
      | some n => some (standardTag "int", .int n)
      | none => (Numeral.readUnsigned 2 ds).map fun n => (standardTag "int", .uint n)
    | '-' :: '0' :: 'b' :: ds =>
      (Numeral.readSigned 2 ('-' :: ds)).map fun n => (standardTag "int", .int n)
    | _ => none

/-- What an untagged or standard-tagged text resolves to, before the tag is checked. -/
def resolveText (tag text : String) : String × Resolved :=
  let h := hint text
  if h == .none || tag == standardTag "str" then (standardTag "str", .str text)
  else
    match words.find? (·.1 == text) with
    | some (_, t, r) => (t, r)
    | none =>
      let found := match h with
        | .dot => (Numeral.readFloat text.toList).map fun x => (standardTag "float", Resolved.float x)
        | .digit | .sign => numeric tag text
        | _ => none
      found.getD (standardTag "str", .str text)

/-- A scalar's tag and value: what its text resolves to, checked against its tag. -/
def resolve (tag text : String) : Except String (String × Resolved) :=
  if !resolvable tag then .ok (tag, .str text)
  else
    let (rtag, r) := resolveText tag text
    if tag.isEmpty || tag == rtag || tag == standardTag "str" then .ok (rtag, r)
    else
      match tag == standardTag "float", r with
      | true, .int n =>
        match Binary64.ofRatio (n < 0) n.natAbs 1 with
        | some x => .ok (standardTag "float", .float x)
        | none => .ok (standardTag "float", .float Binary64.inf)
      | _, _ =>
        .error ("yaml: cannot decode " ++ shortTag rtag ++ " `" ++ text ++ "` as a " ++
          shortTag tag)

end BitTorrent.Yaml
