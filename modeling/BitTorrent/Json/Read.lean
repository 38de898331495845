import BitTorrent.Json.Value

/-!
# Reading JSON text

Reads JSON text into a value, keeping every number as the text it was written with. Blanks
between tokens are skipped. A string may hold the escapes of JSON, with UTF-16 surrogate pairs
joined into one character and a lone surrogate read as the replacement character.
-/

namespace BitTorrent

namespace JsonRead

/-- Skips blanks. -/
def skipBlank : List Char → List Char
  | c :: cs => if c == ' ' || c == '\n' || c == '\r' || c == '\t' then skipBlank cs else c :: cs
  | [] => []

/-- The value of a hexadecimal digit. -/
def hexVal (c : Char) : Option Nat :=
  if '0' ≤ c ∧ c ≤ '9' then some (c.toNat - 48)
  else if 'a' ≤ c ∧ c ≤ 'f' then some (c.toNat - 87)
  else if 'A' ≤ c ∧ c ≤ 'F' then some (c.toNat - 55)
  else none

/-- Four hexadecimal digits. -/
def hex4 : List Char → Option (Nat × List Char)
  | a :: b :: c :: d :: rest => do
    pure ((((← hexVal a) * 16 + (← hexVal b)) * 16 + (← hexVal c)) * 16 + (← hexVal d), rest)
  | _ => none

/-- The replacement character. -/
def replacement : Char := Char.ofNat 0xFFFD

/-- The character of an escape `\u` and the text after it, joining a surrogate pair. -/
def unicodeEscape (cs : List Char) : Option (Char × List Char) := do
  let (u, rest) ← hex4 cs
  if 0xD800 ≤ u ∧ u < 0xDC00 then
    match rest with
    | '\\' :: 'u' :: more =>
      match hex4 more with
      | some (l, after) =>
        if 0xDC00 ≤ l ∧ l < 0xE000 then
          pure (Char.ofNat (0x10000 + (u - 0xD800) * 0x400 + (l - 0xDC00)), after)
        else pure (replacement, rest)
      | none => pure (replacement, rest)
    | _ => pure (replacement, rest)
  else if 0xDC00 ≤ u ∧ u < 0xE000 then pure (replacement, rest)
  else pure (Char.ofNat u, rest)

/-- Reads the rest of a string after its opening quote; `fuel` bounds the characters. -/
def stringBody : Nat → List Char → List Char → Option (String × List Char)
  | 0, _, _ => none
  | _ + 1, acc, '"' :: rest => some (String.ofList acc.reverse, rest)
  | fuel + 1, acc, '\\' :: c :: rest =>
    let simple : Option Char := match c with
      | '"' => some '"'
      | '\\' => some '\\'
      | '/' => some '/'
      | 'b' => some (Char.ofNat 8)
      | 'f' => some (Char.ofNat 12)
      | 'n' => some '\n'
      | 'r' => some '\r'
      | 't' => some '\t'
      | _ => none
    match simple with
    | some ch => stringBody fuel (ch :: acc) rest
    | none =>
      if c != 'u' then none
      else match unicodeEscape rest with
        | some (ch, more) => stringBody fuel (ch :: acc) more
        | none => none
  | fuel + 1, acc, c :: rest => if c.toNat < 32 then none else stringBody fuel (c :: acc) rest
  | _ + 1, _, [] => none

/-- Reads a string after its opening quote. -/
def string (cs : List Char) : Option (String × List Char) :=
  stringBody (cs.length + 1) [] cs

/-- A character that may appear in a number. -/
def numberChar (c : Char) : Bool :=
  c.isDigit || c == '-' || c == '+' || c == '.' || c == 'e' || c == 'E'

mutual

/-- Reads one value; `fuel` bounds the nesting. -/
def value : Nat → List Char → Option (JsonValue × List Char)
  | 0, _ => none
  | fuel + 1, cs =>
    match skipBlank cs with
    | 'n' :: 'u' :: 'l' :: 'l' :: rest => some (.null, rest)
    | 't' :: 'r' :: 'u' :: 'e' :: rest => some (.bool true, rest)
    | 'f' :: 'a' :: 'l' :: 's' :: 'e' :: rest => some (.bool false, rest)
    | '"' :: rest => (string rest).map fun (s, r) => (.string s, r)
    | '[' :: rest =>
      match skipBlank rest with
      | ']' :: more => some (.array [], more)
      | _ => (items fuel [] rest).map fun (vs, r) => (.array vs, r)
    | '{' :: rest =>
      match skipBlank rest with
      | '}' :: more => some (.object [], more)
      | _ => (members fuel [] rest).map fun (ms, r) => (.object ms, r)
    | c :: rest =>
      if c.isDigit || c == '-' then
        let t := (c :: rest).takeWhile numberChar
        some (.number (String.ofList t), (c :: rest).drop t.length)
      else none
    | [] => none

/-- Reads the items of an array after its opening bracket. -/
def items : Nat → List JsonValue → List Char → Option (List JsonValue × List Char)
  | 0, _, _ => none
  | fuel + 1, acc, cs =>
    match value fuel cs with
    | none => none
    | some (v, rest) =>
      match skipBlank rest with
      | ',' :: more => items fuel (v :: acc) more
      | ']' :: more => some ((v :: acc).reverse, more)
      | _ => none

/-- Reads the members of an object after its opening brace. -/
def members : Nat → List (String × JsonValue) → List Char →
    Option (List (String × JsonValue) × List Char)
  | 0, _, _ => none
  | fuel + 1, acc, cs =>
    match skipBlank cs with
    | '"' :: rest =>
      match string rest with
      | none => none
      | some (k, after) =>
        match skipBlank after with
        | ':' :: more =>
          match value fuel more with
          | none => none
          | some (v, rest) =>
            match skipBlank rest with
            | ',' :: more => members fuel ((k, v) :: acc) more
            | '}' :: more => some (((k, v) :: acc).reverse, more)
            | _ => none
        | _ => none
    | _ => none

end

end JsonRead

/-- Reads a whole JSON text. -/
def JsonValue.read (s : String) : Option JsonValue :=
  let cs := s.toList
  match JsonRead.value (cs.length + 1) cs with
  | some (v, rest) => if (JsonRead.skipBlank rest).isEmpty then some v else none
  | none => none

/-- The member of an object with the given key. -/
def JsonValue.member (v : JsonValue) (k : String) : Option JsonValue :=
  match v with
  | .object es => (es.find? (·.1 == k)).map (·.2)
  | _ => none

end BitTorrent
