import BitTorrent.Text.Decimal

/-!
# Timestamps in RFC 3339 form

A timestamp is read from text of the form `2006-01-02T15:04:05Z07:00`: a four-digit year, a
two-digit month and day, a one- or two-digit hour, two-digit minutes and seconds, an optional
fraction of a second after a period or a comma, and the zone, either `Z` or a signed offset
`±hh:mm`. The parts are read left to right and the first one that does not fit is reported,
with the text left at that point and the part of the layout it should have matched. A month,
hour, minute or second out of its range is reported by name; the day is checked against its
month only once the whole text was read.

Written back, a timestamp shows the fields it was read with, in its own zone: `Z` for a zero
offset, `±hh:mm` otherwise, and the fraction only when asked for, without trailing zeros.
-/

namespace BitTorrent

/-- A wall-clock time as written, with its offset from UTC in seconds. The default is the
first second of year 1 in UTC. -/
structure Timestamp where
  year : Nat := 1
  month : Nat := 1
  day : Nat := 1
  hour : Nat := 0
  minute : Nat := 0
  second : Nat := 0
  nanos : Nat := 0
  offset : Int := 0
  deriving DecidableEq, Repr

namespace Timestamp

/-- The layout timestamps are read and written with. -/
def layout : String := "2006-01-02T15:04:05Z07:00"

/-- Gregorian leap years. -/
def leap (y : Nat) : Bool :=
  y % 4 == 0 && (y % 100 != 0 || y % 400 == 0)

/-- The number of days of month `m` (1 to 12) of year `y`. -/
def daysIn (m y : Nat) : Nat :=
  match m with
  | 2 => if leap y then 29 else 28
  | 4 | 6 | 9 | 11 => 30
  | _ => 31

/-- Why a text is no timestamp. -/
inductive ParseFault where
  /-- The text left, from the point where it stops matching the part `elem` of the layout. -/
  | cannot (rest : List UInt8) (elem : String)
  /-- A field out of its range, named. -/
  | range (what : String)
  /-- Text after the zone. -/
  | extra (rest : List UInt8)
  deriving DecidableEq, Repr

/-- Lowercase hexadecimal digits. -/
def hexDigit (n : Nat) : Char :=
  if n < 10 then Char.ofNat (48 + n) else Char.ofNat (87 + n)

/-- Text in double quotes as parse errors show it: a quote and a backslash are escaped, and a
control byte or any byte of a non-ASCII character is written `\xhh`. -/
def quote (bs : List UInt8) : String :=
  "\"" ++ String.join (bs.map fun b =>
    if b < 0x20 || b ≥ 0x80 then "\\x" ++ (hexDigit (b.toNat / 16)).toString ++
      (hexDigit (b.toNat % 16)).toString
    else if b == 34 || b == 92 then "\\" ++ (Char.ofNat b.toNat).toString
    else (Char.ofNat b.toNat).toString) ++ "\""

/-- The error text for a fault met while reading `value`. -/
def ParseFault.message (value : List UInt8) : ParseFault → String
  | .cannot rest elem =>
    "parsing time " ++ quote value ++ " as " ++ quote layout.toUTF8.toList ++ ": cannot parse " ++
      quote rest ++ " as " ++ quote elem.toUTF8.toList
  | .range what => "parsing time " ++ quote value ++ ": " ++ what ++ " out of range"
  | .extra rest => "parsing time " ++ quote value ++ ": extra text: " ++ quote rest

/-- A number of two digits, or of one when `fixed` is unset and a second digit is missing. -/
def number (fixed : Bool) : List UInt8 → Option (Nat × List UInt8)
  | a :: rest =>
    match Decimal.digit? a, rest with
    | some x, b :: rest' =>
      match Decimal.digit? b with
      | some y => some (10 * x + y, rest')
      | none => if fixed then none else some (x, rest)
    | some x, [] => if fixed then none else some (x, [])
    | none, _ => none
  | [] => none

/-- Skips the byte `c` of the layout. -/
def literal (c : Char) (s : List UInt8) : Except ParseFault (List UInt8) :=
  match s with
  | b :: rest => if b.toNat == c.toNat then .ok rest else .error (.cannot s c.toString)
  | [] => .error (.cannot [] c.toString)

/-- A field of the layout part `elem`; a value that fails `check` is out of the range named
`what`. -/
def field (elem : String) (fixed : Bool) (check : Nat → Bool) (what : String)
    (s : List UInt8) : Except ParseFault (Nat × List UInt8) :=
  match number fixed s with
  | none => .error (.cannot s elem)
  | some (n, rest) => if check n then .ok (n, rest) else .error (.range what)

/-- The year: exactly four digits. -/
def readYear (s : List UInt8) : Except ParseFault (Nat × List UInt8) :=
  match (s.take 4).mapM Decimal.digit? with
  | some [a, b, c, d] => .ok (((a * 10 + b) * 10 + c) * 10 + d, s.drop 4)
  | _ => .error (.cannot s "2006")

/-- The value of up to nine fraction digits, in nanoseconds. -/
def nanosOf (ds : List Nat) : Nat :=
  let ds := ds.take 9
  ds.foldl (fun n d => 10 * n + d) 0 * Nat.pow 10 (9 - ds.length)

/-- A fraction of a second after the seconds: a period or a comma and at least one digit. -/
def fraction (s : List UInt8) : Nat × List UInt8 :=
  match s with
  | p :: rest =>
    if p == 46 || p == 44 then
      let ds := rest.takeWhile fun b => (Decimal.digit? b).isSome
      if ds.isEmpty then (0, s)
      else (nanosOf (ds.filterMap Decimal.digit?), rest.drop ds.length)
    else (0, s)
  | [] => (0, s)

/-- The zone: `Z`, or a sign, two digits of hours, a colon and two digits of minutes. Offsets
of up to 24 hours and 60 minutes are taken. An offset out of range is reported before a fault of
form, and of the two ranges the minutes are reported; minutes are read only when the hours
could be. -/
def zone (s : List UInt8) : Except ParseFault (Int × List UInt8) :=
  match s with
  | 90 :: rest => .ok (0, rest)
  | sign :: h1 :: h2 :: colon :: m1 :: m2 :: rest =>
    if colon != 58 then .error (.cannot s "Z07:00")
    else
      let hr := number true [h1, h2]
      let mm := if hr.isSome then number true [m1, m2] else none
      let h := (hr.map (·.1)).getD 0
      let m := (mm.map (·.1)).getD 0
      if m > 60 then .error (.range "time zone offset minute")
      else if h > 24 then .error (.range "time zone offset hour")
      else if hr.isNone || mm.isNone then .error (.cannot s "Z07:00")
      else
        let off : Int := ((h * 60 + m) * 60 : Nat)
        if sign == 43 then .ok (off, rest)
        else if sign == 45 then .ok (-off, rest)
        else .error (.cannot s "Z07:00")
  | _ => .error (.cannot s "Z07:00")

/-- Reads a timestamp in the layout. -/
def parse (s : List UInt8) : Except ParseFault Timestamp := do
  let (year, s) ← readYear s
  let s ← literal '-' s
  let (month, s) ← field "01" true (fun m => 0 < m && m ≤ 12) "month" s
  let s ← literal '-' s
  let (day, s) ← field "02" true (fun _ => true) "day" s
  let s ← literal 'T' s
  let (hour, s) ← field "15" false (· < 24) "hour" s
  let s ← literal ':' s
  let (minute, s) ← field "04" true (· < 60) "minute" s
  let s ← literal ':' s
  let (second, s) ← field "05" true (· < 60) "second" s
  let (nanos, s) := fraction s
  let (offset, s) ← zone s
  if !s.isEmpty then throw (ParseFault.extra s)
  if day < 1 || day > daysIn month year then throw (ParseFault.range "day")
  pure { year, month, day, hour, minute, second, nanos, offset }

/-- `n` in decimal, padded with zeros to `width` digits. -/
def pad (n width : Nat) : String :=
  let ds := Nat.toDigits 10 n
  String.ofList (List.replicate (width - ds.length) '0' ++ ds)

/-- The zone of an offset: `Z` when it is zero, `±hh:mm` otherwise. -/
def zoneText (offset : Int) : String :=
  if offset == 0 then "Z"
  else
    let m := offset.natAbs / 60
    (if offset < 0 then "-" else "+") ++ pad (m / 60) 2 ++ ":" ++ pad (m % 60) 2

/-- The fraction of a second: nine digits without the trailing zeros, none when it is zero. -/
def fractionText (nanos : Nat) : String :=
  if nanos == 0 then ""
  else "." ++ String.ofList ((pad nanos 9).toList.reverse.dropWhile (· == '0')).reverse

/-- The timestamp in the layout, with its fraction of a second when `precise` is set. -/
def format (t : Timestamp) (precise : Bool) : String :=
  pad t.year 4 ++ "-" ++ pad t.month 2 ++ "-" ++ pad t.day 2 ++ "T" ++ pad t.hour 2 ++ ":" ++
    pad t.minute 2 ++ ":" ++ pad t.second 2 ++ (if precise then fractionText t.nanos else "") ++
    zoneText t.offset

end Timestamp

end BitTorrent
