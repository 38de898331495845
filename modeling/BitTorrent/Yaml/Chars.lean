/-!
# The characters of a YAML stream

A YAML stream is bytes in UTF-8, or in UTF-16 when it starts with a UTF-16 byte order mark; a
UTF-8 byte order mark is dropped. Every character must be one YAML text may hold: tab, line
feed, carriage return, the printable ASCII characters, U+0085, and the code points from U+00A0 on
except surrogates, U+FFFE and U+FFFF.

The bytes are decoded in pieces of 512, each piece as a whole, when the reader first needs a
character past the ones decoded so far; a character cut by the end of a piece is finished in
the next. So a fault anywhere in a piece is met as soon as any character of that piece is
needed, and a fault in a later piece is never met if the reader stops before it. `Chars` keeps
the characters of the pieces before the first faulty one, and that piece's fault. An empty
stream reads as a single line feed.
-/

namespace BitTorrent.Yaml

/-- The characters of a stream that can be read, and the fault met when the reader needs one
more. -/
structure Chars where
  chars : Array Char
  fault : Option String := none
  deriving Inhabited

namespace Chars

/-- How the bytes encode characters. -/
inductive Encoding where
  | utf8
  | utf16le
  | utf16be
  deriving DecidableEq

/-- Whether a code point may appear in YAML text. -/
def allowed (n : Nat) : Bool :=
  n == 0x9 || n == 0xA || n == 0xD || (0x20 ≤ n && n ≤ 0x7E) || n == 0x85 ||
    (0xA0 ≤ n && n ≤ 0xD7FF) || (0xE000 ≤ n && n ≤ 0xFFFD) || (0x10000 ≤ n && n ≤ 0x10FFFF)

/-- The outcome of decoding one character from the front of the bytes. -/
inductive Step where
  /-- A character and the number of bytes it took. -/
  | char (c : Char) (width : Nat)
  /-- The bytes end inside a character that later bytes may finish. -/
  | short
  /-- The bytes are not a character. -/
  | fault (problem : String)

/-- The number of bytes of a UTF-8 sequence from its first byte; zero for a byte that starts
none. -/
def utf8Width (b : UInt8) : Nat :=
  if b &&& 0x80 == 0 then 1
  else if b &&& 0xE0 == 0xC0 then 2
  else if b &&& 0xF0 == 0xE0 then 3
  else if b &&& 0xF8 == 0xF0 then 4
  else 0

/-- A decoded code point as a character, once it is known to be allowed. -/
def checked (n width : Nat) : Step :=
  if allowed n then .char (Char.ofNat n) width else .fault "control characters are not allowed"

/-- Decodes one UTF-8 character. The length of a sequence is read off its first byte; each
further byte must be a continuation byte, the value must need that many bytes, and it must be a
code point outside the surrogates. -/
def utf8Step (bs : List UInt8) (eof : Bool) : Step :=
  match bs with
  | [] => .short
  | b :: rest =>
    let w := utf8Width b
    if w == 0 then .fault "invalid leading UTF-8 octet"
    else if w > bs.length then
      if eof then .fault "incomplete UTF-8 octet sequence" else .short
    else
      let lead := if w == 1 then (b &&& 0x7F).toNat else if w == 2 then (b &&& 0x1F).toNat
        else if w == 3 then (b &&& 0x0F).toNat else (b &&& 0x07).toNat
      let tail := rest.take (w - 1)
      if tail.any fun t => t &&& 0xC0 != 0x80 then .fault "invalid trailing UTF-8 octet"
      else
        let v := tail.foldl (fun v t => v * 64 + (t &&& 0x3F).toNat) lead
        if (w == 2 && v < 0x80) || (w == 3 && v < 0x800) || (w == 4 && v < 0x10000) then
          .fault "invalid length of a UTF-8 sequence"
        else if (0xD800 ≤ v && v ≤ 0xDFFF) || v > 0x10FFFF then .fault "invalid Unicode character"
        else checked v w

/-- The 16-bit unit at the front of the bytes in the given byte order. -/
def unit16 (le : Bool) (a b : UInt8) : Nat :=
  if le then a.toNat + b.toNat * 256 else b.toNat + a.toNat * 256

/-- Decodes one UTF-16 character: a unit outside the surrogates, or a high surrogate followed
by a low one. -/
def utf16Step (le : Bool) (bs : List UInt8) (eof : Bool) : Step :=
  match bs with
  | a :: b :: rest =>
    let v := unit16 le a b
    if v &&& 0xFC00 == 0xDC00 then .fault "unexpected low surrogate area"
    else if v &&& 0xFC00 == 0xD800 then
      match rest with
      | c :: d :: _ =>
        let v2 := unit16 le c d
        if v2 &&& 0xFC00 != 0xDC00 then .fault "expected low surrogate area"
        else checked (0x10000 + (v &&& 0x3FF) * 1024 + (v2 &&& 0x3FF)) 4
      | _ => if eof then .fault "incomplete UTF-16 surrogate pair" else .short
    else checked v 2
  | _ => if eof then .fault "incomplete UTF-16 character" else .short

/-- Decodes one character in an encoding. -/
def step (enc : Encoding) (bs : List UInt8) (eof : Bool) : Step :=
  match enc with
  | .utf8 => utf8Step bs eof
  | .utf16le => utf16Step true bs eof
  | .utf16be => utf16Step false bs eof

/-- Decodes a piece of bytes as far as whole characters go: the characters, and either the
bytes of a character the piece cuts (empty when none) or the fault met. `fuel` bounds the
characters. -/
def decodePiece (enc : Encoding) (eof : Bool) : Nat → List UInt8 → Array Char →
    Array Char × Except String (List UInt8)
  | 0, bs, acc => (acc, .ok bs)
  | fuel + 1, bs, acc =>
    if bs.isEmpty then (acc, .ok [])
    else
      match step enc bs eof with
      | .char c w => decodePiece enc eof fuel (bs.drop w) (acc.push c)
      | .short => (acc, .ok bs)
      | .fault p => (acc, .error p)

/-- The encoding a stream announces by its first bytes, and the length of its byte order
mark. -/
def detect (bs : List UInt8) : Encoding × Nat :=
  match bs with
  | 0xFF :: 0xFE :: _ => (.utf16le, 2)
  | 0xFE :: 0xFF :: _ => (.utf16be, 2)
  | 0xEF :: 0xBB :: 0xBF :: _ => (.utf8, 3)
  | _ => (.utf8, 0)

/-- The size of a piece of input. -/
def pieceSize : Nat := 512

/-- Decodes the pieces of a stream after the first: `carry` holds the bytes of a cut
character, `rest` the bytes not yet read, `eof` whether reading found the end. A read fills the
piece up to its size; a read with nothing left finds the end, and a cut character then is a
fault. `fuel` bounds the pieces. -/
def pieces (enc : Encoding) : Nat → List UInt8 → List UInt8 → Bool → Array Char → Chars
  | 0, _, _, _, acc => ⟨acc, none⟩
  | fuel + 1, carry, rest, eof, acc =>
    let (got, outcome) := decodePiece enc eof (carry.length + 1) carry acc
    match outcome with
    | .error p => ⟨acc, some p⟩
    | .ok left =>
      if eof then ⟨got, none⟩
      else if rest.isEmpty then pieces enc fuel left [] true got
      else
        let n := pieceSize - left.length
        pieces enc fuel (left ++ rest.take n) (rest.drop n) false got

/-- The characters of a stream of bytes. The first piece is read at once; when it holds fewer
than three bytes, the end of the input is known before it is decoded. -/
def ofBytes (input : List UInt8) : Chars :=
  let bs := if input.isEmpty then [10] else input
  let first := bs.take pieceSize
  let (enc, bom) := detect first
  pieces enc (bs.length + 2) (first.drop bom) (bs.drop pieceSize) (bs.length < 3) #[]

end Chars

end BitTorrent.Yaml
