import BitTorrent.Bencode.Value
import BitTorrent.Storage.IoError

/-!
# Decoding bencoded values into a target

The decoder reads one value from the front of the input into a `Target` and leaves the bytes
after it. The first byte picks the kind: `i` an integer, `l` a list, `d` a dictionary, a digit a
string; anything else is invalid input. An integer runs to the next `e`; a string is a length, a
colon and that many bytes; lists and dictionaries run to their `e`. Input that ends too soon is
`EOF`, or `unexpected EOF` when a string ends part way.

A value of the wrong kind for its target is refused after it was read, for integers and
strings, and before, for lists and dictionaries. The decoder stops at the first error and keeps
what it has written so far: a list keeps the elements already decoded, and the element that
failed as far as it got. Raw targets check the form only and keep the exact bytes. A byte
string target also takes a list of integers, one byte each, written over its current bytes.
-/

namespace BitTorrent.Bencode

/-- The kind of a bencoded value. -/
inductive Kind where
  | int
  | string
  | list
  | dict
  deriving DecidableEq, Repr

/-- Why decoding stopped. -/
inductive DecodeError where
  /-- The input ended: `eof` between values, `unexpectedEof` inside a string. -/
  | io (e : IoError)
  /-- A value starts with a byte that starts no kind. -/
  | invalidInput
  /-- An integer or a string length that is no number of its width. -/
  | numeral (e : NumeralError)
  /-- A string with a negative length. -/
  | negativeLength (n : Int)
  /-- A value of a kind its destination does not hold, named by its type. -/
  | mismatch (k : Kind) (typeName : String)
  deriving DecidableEq, Repr

namespace DecodeError

/-- The text a decoding error is reported with. -/
def message : DecodeError → String
  | io e => e.message
  | invalidInput => "Invalid input"
  | numeral e => e.message
  | negativeLength n => "invalid negative string length: " ++ toString n
  | mismatch .int t => "Cannot store int64 into " ++ t
  | mismatch .string t => "Cannot store string into " ++ t
  | mismatch .list t => "Cant store a []interface{} into " ++ t
  | mismatch .dict t => "Can't store a map[string]interface{} into " ++ t

/-- The class of a decoding error: the kind of a stream error, "error" for the rest. -/
def kind : DecodeError → String
  | io e => e.kind
  | _ => "error"

end DecodeError

/-- The outcome of decoding one value: the destination's new value, the input after the value,
and the error that stopped the decoder, if one did. -/
structure Decoded where
  value : Value
  rest : List UInt8
  error : Option DecodeError := none
  deriving Repr

namespace Decoder

/-- The bytes before the first `delim`, and the bytes after it; the input ending first is
`EOF`. -/
def readUntil (delim : UInt8) (bs : List UInt8) : Except DecodeError (List UInt8 × List UInt8) :=
  match bs.idxOf? delim with
  | some i => .ok (bs.take i, bs.drop (i + 1))
  | none => .error (.io .eof)

/-- Exactly `n` bytes from the front of the input. -/
def readFull (n : Nat) (bs : List UInt8) : Except DecodeError (List UInt8 × List UInt8) :=
  if n == 0 then .ok ([], bs)
  else if bs.isEmpty then .error (.io .eof)
  else if bs.length < n then .error (.io .unexpectedEof)
  else .ok (bs.take n, bs.drop n)

/-- A string: its length up to the colon, as a signed 32-bit numeral, and its bytes. -/
def readString (bs : List UInt8) : Except DecodeError (List UInt8 × List UInt8) := do
  let (text, rest) ← readUntil 58 bs
  let n ← match Decimal.readSigned 32 text with
    | .ok n => pure n
    | .error e => throw (.numeral e)
  if n < 0 then throw (.negativeLength n)
  readFull n.toNat rest

/-- Whether a byte is a decimal digit. -/
def isDigit (b : UInt8) : Bool :=
  48 ≤ b && b ≤ 57

/-- Skips one value, checking its form only, and answers the input after it. Integers are not
read as numbers. `fuel` bounds the nesting and the number of elements. -/
def skip : Nat → List UInt8 → Except DecodeError (List UInt8)
  | 0, _ => .error (.io .eof)
  | fuel + 1, bs =>
    match bs with
    | [] => .error (.io .eof)
    | b :: tail =>
      if b == 105 then (·.2) <$> readUntil 101 tail
      else if b == 108 then skipList fuel tail
      else if b == 100 then skipDict fuel tail
      else if isDigit b then (·.2) <$> readString bs
      else .error .invalidInput
where
  /-- Skips list elements up to the closing `e`. -/
  skipList : Nat → List UInt8 → Except DecodeError (List UInt8)
    | 0, _ => .error (.io .eof)
    | fuel + 1, bs =>
      match bs with
      | [] => .error (.io .eof)
      | 101 :: rest => .ok rest
      | _ => do skipList fuel (← skip fuel bs)
  /-- Skips dictionary entries up to the closing `e`. -/
  skipDict : Nat → List UInt8 → Except DecodeError (List UInt8)
    | 0, _ => .error (.io .eof)
    | fuel + 1, bs =>
      match bs with
      | [] => .error (.io .eof)
      | 101 :: rest => .ok rest
      | _ => do
        let (_, rest) ← readString bs
        skipDict fuel (← skip fuel rest)

/-- Reads the digits of an integer into target `t`. -/
def intInto (t : Target) (cur : Value) (digits rest : List UInt8) : Decoded :=
  let read (r : Except NumeralError Int) : Decoded :=
    match r with
    | .ok n => ⟨.int n, rest, none⟩
    | .error e => ⟨cur, rest, some (.numeral e)⟩
  match t with
  | .signed => read (Decimal.readSigned 64 digits)
  | .dynamic => read (Decimal.readSigned 64 digits)
  | .unsigned bits =>
    read ((fun n => ((n % Nat.pow 2 bits : Nat) : Int)) <$> Decimal.readUnsigned 64 digits)
  | _ => ⟨cur, rest, some (.mismatch .int t.typeName)⟩

/-- Stores the bytes of a string into target `t`. -/
def stringInto (t : Target) (cur : Value) (data rest : List UInt8) : Decoded :=
  match t with
  | .text | .bytes | .dynamic => ⟨.str data, rest, none⟩
  | _ => ⟨cur, rest, some (.mismatch .string t.typeName)⟩

/-- The current value of element `i` of a list, or a fresh one past its end. -/
def elementAt (elem : Target) (xs : List Value) (i : Nat) : Value :=
  xs.getD i elem.zero

/-- Writes element `i` of a list, growing the list by one when `i` is its length. -/
def setElement (elem : Target) (xs : List Value) (i : Nat) (v : Value) : List Value :=
  (if i < xs.length then xs else xs ++ [elem.zero]).set i v

/-- A byte string is also a list of bytes: a list decoded into it reads each element as an
unsigned 8-bit integer. -/
def byteTarget : Target :=
  .unsigned 8

/-- A byte as an element of a list of bytes. -/
def byteValue (b : UInt8) : Value :=
  .int b.toNat

mutual

/-- Decodes one value into target `t` whose current value is `cur`. `fuel` bounds the nesting
and the number of elements. -/
def decodeInto : Nat → Target → Value → List UInt8 → Decoded
  | 0, _, cur, _ => ⟨cur, [], some (.io .eof)⟩
  | fuel + 1, t, cur, bs =>
    match t with
    | .raw =>
      match skip (fuel + 1) bs with
      | .ok rest => ⟨.raw (bs.take (bs.length - rest.length)), rest, none⟩
      | .error e => ⟨cur, [], some e⟩
    | _ =>
      match bs with
      | [] => ⟨cur, [], some (.io .eof)⟩
      | b :: tail =>
        if b == 105 then
          match readUntil 101 tail with
          | .ok (digits, rest) => intInto t cur digits rest
          | .error e => ⟨cur, [], some e⟩
        else if b == 108 then
          match t with
          | .list elem =>
            let (xs, rest, err) := decodeList fuel elem cur.toList 0 tail
            ⟨.list xs, rest, err⟩
          | .bytes =>
            let (xs, rest, err) := decodeList fuel byteTarget (cur.toBytes.map byteValue) 0 tail
            ⟨.str (xs.map fun x => x.toInt.toNat.toUInt8), rest, err⟩
          | .dynamic =>
            let (xs, rest, err) := decodeList fuel .dynamic [] 0 tail
            ⟨.list xs, rest, err⟩
          | _ => ⟨cur, bs, some (.mismatch .list t.typeName)⟩
        else if b == 100 then
          match t, cur with
          | .record _ fields, .dict es =>
            let (es, rest, err) := decodeDict fuel fields es tail
            ⟨.dict es, rest, err⟩
          | .record _ fields, _ =>
            let (es, rest, err) := decodeDict fuel fields (Target.zeroFields fields) tail
            ⟨.dict es, rest, err⟩
          | .dynamic, _ =>
            let (es, rest, err) := decodeMap fuel [] tail
            ⟨.dict es, rest, err⟩
          | _, _ => ⟨cur, bs, some (.mismatch .dict t.typeName)⟩
        else if isDigit b then
          match readString bs with
          | .ok (data, rest) => stringInto t cur data rest
          | .error e => ⟨cur, [], some e⟩
        else ⟨cur, bs, some .invalidInput⟩

/-- Decodes list elements from position `i` on, over the current elements `xs`, up to the
closing `e`. -/
def decodeList : Nat → Target → List Value → Nat → List UInt8 →
    List Value × List UInt8 × Option DecodeError
  | 0, _, xs, _, _ => (xs, [], some (.io .eof))
  | fuel + 1, elem, xs, i, bs =>
    match bs with
    | [] => (xs, [], some (.io .eof))
    | 101 :: rest => (xs, rest, none)
    | _ =>
      let d := decodeInto fuel elem (elementAt elem xs i) bs
      let xs := setElement elem xs i d.value
      match d.error with
      | some e => (xs, d.rest, some e)
      | none => decodeList fuel elem xs (i + 1) d.rest

/-- Decodes the entries of a dictionary into the fields of a record, up to the closing `e`.
Keys of no field are read as dynamic values and dropped. -/
def decodeDict : Nat → List (String × Target) → List (List UInt8 × Value) → List UInt8 →
    List (List UInt8 × Value) × List UInt8 × Option DecodeError
  | 0, _, es, _ => (es, [], some (.io .eof))
  | fuel + 1, fields, es, bs =>
    match bs with
    | [] => (es, [], some (.io .eof))
    | 101 :: rest => (es, rest, none)
    | _ =>
      match readString bs with
      | .error e => (es, [], some e)
      | .ok (k, rest) =>
        match Target.field? fields k with
        | some t =>
          let cur := ((es.find? (·.1 == k)).map (·.2)).getD t.zero
          let d := decodeInto fuel t cur rest
          let es := Value.setEntry es k d.value
          match d.error with
          | some e => (es, d.rest, some e)
          | none => decodeDict fuel fields es d.rest
        | none =>
          let d := decodeInto fuel .dynamic .null rest
          match d.error with
          | some e => (es, d.rest, some e)
          | none => decodeDict fuel fields es d.rest

/-- Decodes the entries of a dictionary into a dynamic map, up to the closing `e`; an entry
whose value fails is not stored. -/
def decodeMap : Nat → List (List UInt8 × Value) → List UInt8 →
    List (List UInt8 × Value) × List UInt8 × Option DecodeError
  | 0, es, _ => (es, [], some (.io .eof))
  | fuel + 1, es, bs =>
    match bs with
    | [] => (es, [], some (.io .eof))
    | 101 :: rest => (es, rest, none)
    | _ =>
      match readString bs with
      | .error e => (es, [], some e)
      | .ok (k, rest) =>
        let d := decodeInto fuel .dynamic .null rest
        match d.error with
        | some e => (es, d.rest, some e)
        | none => decodeMap fuel (Value.setEntry es k d.value) d.rest

end

end Decoder

/-- Decodes the first value of `bs` into a fresh destination of target `t`. Bytes after the
value are left alone. Each step of the decoder consumes a byte, so the input length bounds
the work. -/
def decode (t : Target) (bs : List UInt8) : Decoded :=
  Decoder.decodeInto (2 * bs.length + 4) t t.zero bs

end BitTorrent.Bencode
