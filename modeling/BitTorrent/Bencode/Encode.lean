import BitTorrent.Bencode.Value

/-!
# Encoding bencoded values

An integer is written `i<decimal>e`, a string `<length>:<bytes>`, a list `l…e` and a
dictionary `d…e` with its keys in ascending byte order, as the format requires. Raw bytes are
written unchanged.
-/

namespace BitTorrent.Bencode

/-- Lexicographic order on byte strings. -/
def bytesLe : List UInt8 → List UInt8 → Bool
  | [], _ => true
  | _ :: _, [] => false
  | a :: as, b :: bs => a < b || (a == b && bytesLe as bs)

/-- A string: its length, a colon and its bytes. -/
def encodeString (b : List UInt8) : List UInt8 :=
  Decimal.numeral b.length ++ [58] ++ b

mutual

/-- The bencoding of a value. -/
def encode : Value → List UInt8
  | .int n => [105] ++ Decimal.intNumeral n ++ [101]
  | .str b => encodeString b
  | .list xs => [108] ++ encodeList xs ++ [101]
  | .dict es => [100] ++ encodeEntries es ++ [101]
  | .raw b => b
  | .null => []

/-- The elements of a list, one after another. -/
def encodeList : List Value → List UInt8
  | [] => []
  | x :: xs => encode x ++ encodeList xs

/-- Dictionary entries, each key before its value, in the order given. -/
def encodeEntries : List (List UInt8 × Value) → List UInt8
  | [] => []
  | (k, v) :: es => encodeString k ++ encode v ++ encodeEntries es

end

/-- A dictionary with its entries sorted by key, ready to encode. -/
def sortedDict (es : List (List UInt8 × Value)) : Value :=
  .dict (es.mergeSort fun a b => bytesLe a.1 b.1)

end BitTorrent.Bencode
