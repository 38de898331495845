import BitTorrent.Text.Decimal

/-!
# Bencoded values and their destinations

A bencoded value is an integer `i…e`, a byte string `n:…`, a list `l…e` or a dictionary `d…e`
of byte-string keys. A decoder is told where each value goes, a `Target`: a signed or unsigned
integer of some width, a text or byte string, a list of one element target, a record with named
fields, raw bytes kept verbatim, or any value at all. The target decides which kinds of value are
accepted and how integers are read, and names itself in error messages as the destination's
type.

Decoding writes into the current value of the destination, so a list decoded over a longer one
keeps the old tail and a record keeps the fields the input does not name; `Target.zero` is the
value a fresh destination starts from.
-/

namespace BitTorrent.Bencode

/-- Where a decoded value is stored. -/
inductive Target where
  /-- A signed 64-bit integer. -/
  | signed
  /-- An unsigned integer of the given width; larger values keep their low bits. -/
  | unsigned (bits : Nat)
  /-- A text string. -/
  | text
  /-- A byte string. -/
  | bytes
  /-- The exact bytes of any one value. -/
  | raw
  /-- A list whose elements go to `elem`. -/
  | list (elem : Target)
  /-- A record named `name`: each key is a field with its own target. Keys of no field are read
  as `dynamic` and dropped. -/
  | record (name : String) (fields : List (String × Target))
  /-- Any value, stored as read. -/
  | dynamic
  deriving Repr, Inhabited

/-- A decoded value. Records are dictionaries with one entry per field, in field order. -/
inductive Value where
  | int (n : Int)
  | str (b : List UInt8)
  | list (xs : List Value)
  | dict (entries : List (List UInt8 × Value))
  /-- The exact bytes of a value, written out unchanged. -/
  | raw (b : List UInt8)
  /-- An unset dynamic destination. -/
  | null
  deriving Repr, Inhabited

/-- The bytes of a key or text given as a string. -/
def key (s : String) : List UInt8 :=
  s.toUTF8.toList

namespace Target

/-- The name of the destination's type, as error messages give it. -/
def typeName : Target → String
  | signed => "int64"
  | unsigned bits => "uint" ++ toString bits
  | text => "string"
  | bytes => "[]uint8"
  | raw => "bencode.RawMessage"
  | list e => "[]" ++ e.typeName
  | record name _ => name
  | dynamic => "interface {}"

mutual

/-- The value of a fresh destination: zero, empty, or a record of fresh fields. -/
def zero : Target → Value
  | signed => .int 0
  | unsigned _ => .int 0
  | text => .str []
  | bytes => .str []
  | raw => .raw []
  | list _ => .list []
  | record _ fields => .dict (zeroFields fields)
  | dynamic => .null

/-- Every field of a record with its fresh value. -/
def zeroFields : List (String × Target) → List (List UInt8 × Value)
  | [] => []
  | (k, t) :: rest => (key k, zero t) :: zeroFields rest

end

/-- The target of the field of a record keyed `k`, if the record has one. -/
def field? (fields : List (String × Target)) (k : List UInt8) : Option Target :=
  (fields.find? fun f => key f.1 == k).map (·.2)

end Target

namespace Value

/-- The value stored under key `k` of a dictionary. -/
def get? (v : Value) (k : String) : Option Value :=
  match v with
  | dict es => (es.find? fun e => e.1 == key k).map (·.2)
  | _ => none

/-- Replaces the value stored under key `k`, or adds it last. -/
def setEntry (es : List (List UInt8 × Value)) (k : List UInt8) (x : Value) :
    List (List UInt8 × Value) :=
  if es.any (·.1 == k) then es.map fun e => if e.1 == k then (k, x) else e
  else es ++ [(k, x)]

/-- The integer stored, or zero. -/
def toInt : Value → Int
  | int n => n
  | _ => 0

/-- The bytes stored, or none. -/
def toBytes : Value → List UInt8
  | str b => b
  | raw b => b
  | _ => []

/-- The elements stored, or none. -/
def toList : Value → List Value
  | list xs => xs
  | _ => []

end Value

end BitTorrent.Bencode
