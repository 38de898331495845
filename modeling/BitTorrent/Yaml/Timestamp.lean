import BitTorrent.Text.Timestamp

/-!
# YAML timestamps

A plain scalar that starts with four digits and a dash is a timestamp when it has one of these
forms:

* a date, `T` or `t`, a time of day and a zone (`Z` or `±hh:mm`);
* a date, spaces and a time of day;
* a date alone.

A date is a four-digit year, a month of one or two digits from 1 to 12 and a day of one or two
digits that exists in that month, joined by dashes. A time of day is an hour below 24, a minute
and a second below 60, each of one or two digits and joined by colons, with an optional
fraction of digits after a period or a comma. A zone offset may be up to 24 hours and 60
minutes. Where a space is written between date and time, any number of spaces may stand, and
none when the text ends there.
-/

namespace BitTorrent.Yaml.Timestamp

open BitTorrent.Timestamp (number daysIn zone)

/-- Skips one byte. -/
def byte (c : UInt8) : List UInt8 → Option (List UInt8)
  | b :: rest => if b == c then some rest else none
  | [] => none

/-- A field of one or two digits that passes `ok`. -/
def field (ok : Nat → Bool) (s : List UInt8) : Option (Nat × List UInt8) :=
  (number false s).bind fun (n, rest) => if ok n then some (n, rest) else none

/-- A date: its year, month and day, and the rest. -/
def date (s : List UInt8) : Option (Nat × Nat × Nat × List UInt8) := do
  let ds := s.take 4
  if ds.length != 4 || !ds.all (fun b => 48 ≤ b && b ≤ 57) then none
  let year := ds.foldl (fun n b => 10 * n + (b.toNat - 48)) 0
  let s ← byte 45 (s.drop 4)
  let (month, s) ← field (fun m => 1 ≤ m && m ≤ 12) s
  let s ← byte 45 s
  let (day, s) ← field (fun _ => true) s
  return (year, month, day, s)

/-- Skips a fraction of a second: a period or a comma followed by digits. -/
def fraction (s : List UInt8) : List UInt8 :=
  match s with
  | p :: d :: rest =>
    if (p == 46 || p == 44) && 48 ≤ d && d ≤ 57 then rest.dropWhile fun b => 48 ≤ b && b ≤ 57
    else s
  | _ => s

/-- A time of day, and the rest. -/
def clock (s : List UInt8) : Option (List UInt8) := do
  let (_, s) ← field (· < 24) s
  let s ← byte 58 s
  let (_, s) ← field (· < 60) s
  let s ← byte 58 s
  let (_, s) ← field (· < 60) s
  return fraction s

/-- The rest after the spaces between date and time: one or more spaces, or none at the end. -/
def spaces (s : List UInt8) : Option (List UInt8) :=
  match s with
  | [] => some []
  | b :: _ => if b == 32 then some (s.dropWhile (· == 32)) else none

/-- The text after the date in each form, read to the end. -/
def afterDate (s : List UInt8) : List (Option Unit) :=
  let zoned (t : UInt8) : Option Unit := do
    let s ← byte t s
    let s ← clock s
    match zone s with
    | .ok (_, []) => some ()
    | _ => none
  [zoned 84, zoned 116,
   (do let s ← spaces s; let s ← clock s; if s.isEmpty then some () else none),
   if s.isEmpty then some () else none]

/-- Whether a scalar's text is a timestamp. -/
def isTimestamp (text : String) : Bool :=
  let s := text.toUTF8.toList
  match date s with
  | some (year, month, day, rest) =>
    (afterDate rest).any Option.isSome && 1 ≤ day && day ≤ daysIn month year
  | none => false

end BitTorrent.Yaml.Timestamp
