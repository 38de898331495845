import BitTorrent.Json.Value

/-!
# Records as lines of JSON

A record is printed one field to a line, as `name: value` with the value in compact JSON, the
lines in the byte order of the names. Only exported fields are printed. A field's JSON tag
names it when the tag's name part is not empty, and a tag named `-` leaves it out. A field
that holds an error is printed as the error's text, or as `null` when there is no error. A
value that has no JSON form stops the printing with the reason; so does anything that is not
a record.
-/

namespace BitTorrent

/-- What a field holds: a value in JSON, or the reason it has none; or an error, if any. -/
inductive FieldValue where
  | json (v : Except String JsonValue)
  | error (text : Option String)

/-- A field of a record: its name, its JSON tag (empty when it has none), whether it is
exported, and what it holds. -/
structure Field where
  name : String
  tag : String := ""
  exported : Bool := true
  value : FieldValue

/-- What is printed: a record with its fields, or something else. -/
inductive Printable where
  | record (fields : List Field)
  | other

namespace Field

/-- The name a field is printed under, or none when it is not printed. -/
def label (f : Field) : Option String :=
  if !f.exported then none
  else
    let tagName := (f.tag.splitOn ",").headD ""
    if f.tag != "" && tagName == "-" then none
    else if f.tag != "" && tagName != "" then some tagName
    else some f.name

/-- The JSON value of a field. -/
def json (f : Field) : Except String JsonValue :=
  match f.value with
  | .json v => v
  | .error (some t) => .ok (.string t)
  | .error none => .ok .null

end Field

/-- Prints the lines of the labeled values in order. -/
def printLines : List (String × Except String JsonValue) → Except String String
  | [] => .ok ""
  | (n, v) :: rest => do
    let v ← v
    let more ← printLines rest
    return n ++ ": " ++ v.compact ++ "\n" ++ more

/-- The lines of a record. -/
def Printable.lines : Printable → Except String String
  | .other => .error "not struct"
  | .record fs =>
    let kept := fs.filterMap fun f => f.label.map fun n => (n, f.json)
    printLines (kept.mergeSort fun a b => decide (a.1 ≤ b.1))

end BitTorrent
