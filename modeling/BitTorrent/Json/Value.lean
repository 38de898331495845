import BitTorrent.Text.Binary64

/-!
# JSON values

A JSON value as it is read back from encoded text: numbers are kept as the text they were
written with, so nothing is lost between reading and writing them again.

The compact text of a value has no spaces, writes the members of an object in the byte order of
their keys, and escapes in strings only what JSON requires: quotes, backslashes, control
characters, and the line and paragraph separators. The characters `<`, `>` and `&` are written
as they are.
-/

namespace BitTorrent

/-- A JSON value with numbers kept as text. -/
inductive JsonValue where
  | null
  | bool (b : Bool)
  | number (text : String)
  | string (s : String)
  | array (items : List JsonValue)
  | object (entries : List (String × JsonValue))
  deriving Repr, Inhabited

namespace JsonValue

/-- The hexadecimal digit of a value below sixteen. -/
def hexDigit (n : Nat) : Char :=
  if n < 10 then Char.ofNat (48 + n) else Char.ofNat (87 + n)

/-- The escape of one character inside a string. -/
def escape (c : Char) : String :=
  match c with
  | '"' => "\\\""
  | '\\' => "\\\\"
  | '\n' => "\\n"
  | '\r' => "\\r"
  | '\t' => "\\t"
  | c =>
    if c.toNat == 8 then "\\b"
    else if c.toNat == 12 then "\\f"
    else if c.toNat < 32 then
      "\\u00" ++ String.singleton (hexDigit (c.toNat / 16)) ++ String.singleton (hexDigit (c.toNat % 16))
    else if c.toNat == 0x2028 then "\\u2028"
    else if c.toNat == 0x2029 then "\\u2029"
    else String.singleton c

/-- A string as quoted JSON text. -/
def quote (s : String) : String :=
  "\"" ++ String.join (s.toList.map escape) ++ "\""

/-- Sorts rendered members by key. -/
def sortMembers (ms : List (String × String)) : List (String × String) :=
  ms.mergeSort fun a b => decide (a.1 ≤ b.1)

mutual

/-- The compact text of a value, object members in key order. -/
def compact : JsonValue → String
  | .null => "null"
  | .bool b => if b then "true" else "false"
  | .number t => t
  | .string s => quote s
  | .array items => "[" ++ ",".intercalate (compactItems items) ++ "]"
  | .object entries =>
    "\x7b" ++ ",".intercalate ((sortMembers (compactMembers entries)).map
      fun (k, v) => quote k ++ ":" ++ v) ++ "\x7d"

/-- The compact texts of the items of an array. -/
def compactItems : List JsonValue → List String
  | [] => []
  | v :: vs => compact v :: compactItems vs

/-- The members of an object with their values' compact texts. -/
def compactMembers : List (String × JsonValue) → List (String × String)
  | [] => []
  | (k, v) :: rest => (k, compact v) :: compactMembers rest

end

/-- The JSON value of a number: its shortest text, which exists only for finite numbers. -/
def ofBinary64 (x : Binary64) : Except String JsonValue :=
  if x.isFinite then .ok (.number x.jsonText)
  else .error ("json: unsupported value: " ++ x.special)

/-- The JSON value of an integer. -/
def ofInt (n : Int) : JsonValue := .number (toString n)

end JsonValue

end BitTorrent
