import BitTorrent.Text.Utf8

/-!
# White space

The characters with the Unicode White_Space property: tab, line feed, vertical tab, form feed,
carriage return, space, U+0085, U+00A0, U+1680, U+2000 to U+200A, U+2028, U+2029, U+202F,
U+205F and U+3000. Trimming takes them off both ends of a byte string read as runes; a stray
byte is no white space.
-/

namespace BitTorrent.Blank

/-- Whether a code point has the White_Space property. -/
def isBlank (n : Nat) : Bool :=
  (9 ≤ n && n ≤ 13) || n == 32 || n == 0x85 || n == 0xa0 || n == 0x1680 ||
    (0x2000 ≤ n && n ≤ 0x200a) || n == 0x2028 || n == 0x2029 || n == 0x202f ||
    n == 0x205f || n == 0x3000

/-- Whether a rune is white space. -/
def isBlankRune : Utf8.Rune → Bool
  | .char c => isBlank c.toNat
  | .stray _ => false

/-- The runes of a byte string without white space at either end. -/
def trim (bs : List UInt8) : List Utf8.Rune :=
  (((Utf8.runes bs).dropWhile isBlankRune).reverse.dropWhile isBlankRune).reverse

end BitTorrent.Blank
