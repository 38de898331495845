import BitTorrent.Text.Utf8
import BitTorrent.Text.Printable

/-!
# Quoted text

Names in error messages are shown between double quotes. Inside the quotes a quote and a
backslash are escaped, a printable character stands for itself, the usual control characters
have their letter escapes, and any other character is written as a hexadecimal escape: two
digits after `\x` for an ASCII control or a stray byte, four after `\u` below U+10000, and
eight after `\U` above. Printable is as `Printable.isPrintable` says.
-/

namespace BitTorrent.Quote

/-- `n` in lowercase hexadecimal, padded with zeros to `width` digits. -/
def hexPadded (n width : Nat) : String :=
  let ds := Nat.toDigits 16 n
  String.ofList (List.replicate (width - ds.length) '0' ++ ds)

/-- The escaped form of one character inside quotes. -/
def escapeChar (c : Char) : String :=
  let n := c.toNat
  if c == '"' then "\\\""
  else if c == '\\' then "\\\\"
  else if Printable.isPrintable n then c.toString
  else match n with
    | 7 => "\\a"
    | 8 => "\\b"
    | 12 => "\\f"
    | 10 => "\\n"
    | 13 => "\\r"
    | 9 => "\\t"
    | 11 => "\\v"
    | _ =>
      if n < 0x20 || n == 0x7f then "\\x" ++ hexPadded n 2
      else if n < 0x10000 then "\\u" ++ hexPadded n 4
      else "\\U" ++ hexPadded n 8

/-- A byte string in double quotes, escaped rune by rune. -/
def bytes (bs : List UInt8) : String :=
  "\"" ++ String.join ((Utf8.runes bs).map fun
    | .char c => escapeChar c
    | .stray b => "\\x" ++ hexPadded b.toNat 2) ++ "\""

/-- A string in double quotes, escaped character by character. -/
def string (s : String) : String :=
  "\"" ++ String.join (s.toList.map escapeChar) ++ "\""

end BitTorrent.Quote
