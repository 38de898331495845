import BitTorrent.Text.Binary64

/-!
# Durations in text

A duration is written as an optional sign and one or more numbers each followed by a unit:
`ns`, `us` (also with a micro sign), `ms`, `s`, `m` or `h`, as in `1h30m` or `1.5s`. A lone `0`
needs no unit. The value is a whole number of nanoseconds within the signed 64-bit range.

The fraction of a number is taken in binary64 arithmetic: its digits, as far as they stay within
2^63, are multiplied by the unit divided by the matching power of ten, that power itself built by
repeated rounded multiplication by ten; every step is rounded to the nearest binary64 number and
the result is cut to whole nanoseconds.

Written back, a duration takes the largest units that fit, as `1h2m3.5s` or `1.5ms`.
-/

namespace BitTorrent.Duration

/-- Nanoseconds per unit. -/
def units : List (String × Nat) :=
  [("ns", 1), ("us", 1000), ("µs", 1000), ("μs", 1000), ("ms", 1000000),
   ("s", 1000000000), ("m", 60000000000), ("h", 3600000000000)]

/-- The bound no part of a duration may pass. -/
def bound : Nat := Nat.pow 2 63

/-- The digits of a fraction as a number and how many of them it holds. Digits are taken while
the number stays at most 2^63; the first digit that would pass it, and all after it, are
skipped. -/
def fractionDigits (ds : List Char) : Nat × Nat :=
  let step := fun (acc : Nat × Nat × Bool) (d : Char) =>
    let (x, k, stopped) := acc
    if stopped then acc
    else if x > (bound - 1) / 10 then (x, k, true)
    else
      let y := x * 10 + (d.toNat - 48)
      if y > bound then (x, k, true) else (y, k + 1, false)
  let (x, k, _) := ds.foldl step (0, 0, false)
  (x, k)

/-- The value `m * 2 ^ e` of a finite binary64 number cut to a whole number. -/
def truncate (x : Binary64) : Nat :=
  let (m, e) := x.parts
  m * Nat.pow 2 e.toNat / Nat.pow 2 (-e).toNat

/-- The binary64 number nearest `m * 2 ^ e`, or none past the largest one. -/
def ofParts (m : Nat) (e : Int) : Option Binary64 :=
  if e ≥ 0 then Binary64.ofRatio false (m * Nat.pow 2 e.toNat) 1
  else Binary64.ofRatio false m (Nat.pow 2 (-e).toNat)

/-- The power of ten that `k` fraction digits scale by, as binary64 arithmetic reaches it: one
multiplied by ten `k` times, each product rounded; none once it passes the largest number. Past
`10 ^ 22` the products are no longer exact. -/
def scale : Nat → Option Binary64
  | 0 => some ⟨false, 1023, 0⟩
  | k + 1 => (scale k).bind fun x => let (m, e) := x.parts; ofParts (m * 10) e

/-- The nanoseconds that a fraction `f / 10 ^ k` of a unit adds, in binary64 arithmetic: the
unit is divided by the scale of `k` digits, `f` is multiplied by that quotient, each result is
rounded to the nearest binary64 number, and the product is cut to a whole number. An infinite
scale, as every scale past `10 ^ 308` is, makes the quotient zero. -/
def fractionNanos (f unit k : Nat) : Nat :=
  match (if k > 400 then none else scale k) with
  | none => 0
  | some sc =>
    let (ms, es) := sc.parts
    let q := if es ≥ 0 then Binary64.ofRatio false unit (ms * Nat.pow 2 es.toNat)
      else Binary64.ofRatio false (unit * Nat.pow 2 (-es).toNat) ms
    match Binary64.ofRatio false f 1, q with
    | some a, some b =>
      let (ma, ea) := a.parts
      let (mb, eb) := b.parts
      match ofParts (ma * mb) (ea + eb) with
      | some c => truncate c
      | none => 0
    | _, _ => 0

/-- Reads numbers with units from `cs` on, adding to `total`. `fuel` bounds the parts. -/
def parts : Nat → List Char → Nat → Option Nat
  | 0, _, total => some total
  | fuel + 1, cs, total =>
    match cs with
    | [] => some total
    | c :: _ =>
      if !(c == '.' || c.isDigit) then none
      else
        let whole := cs.takeWhile Char.isDigit
        let cs := cs.drop whole.length
        let (frac, cs) := match cs with
          | '.' :: rest => let f := rest.takeWhile Char.isDigit; (some f, rest.drop f.length)
          | _ => (none, cs)
        if whole.isEmpty && (frac.getD []).isEmpty then none
        else
          let v := whole.foldl (fun n d => n * 10 + (d.toNat - 48)) 0
          let unitText := cs.takeWhile fun d => !(d == '.' || d.isDigit)
          let cs := cs.drop unitText.length
          if unitText.isEmpty then none
          else match units.find? (·.1 == String.ofList unitText) with
            | none => none
            | some (_, unit) =>
              if v > bound / unit then none
              else
                let (f, k) := fractionDigits (frac.getD [])
                let v := v * unit + (if f > 0 then fractionNanos f unit k else 0)
                if v > bound then none
                else
                  let total := total + v
                  if total > bound then none else parts fuel cs total

/-- Reads a duration in nanoseconds. -/
def parse (s : String) : Option Int :=
  let cs := s.toList
  let (neg, cs) := match cs with
    | '-' :: rest => (true, rest)
    | '+' :: rest => (false, rest)
    | _ => (false, cs)
  if cs == ['0'] then some 0
  else if cs.isEmpty then none
  else match parts (cs.length + 1) cs 0 with
    | none => none
    | some d =>
      if neg then some (-(d : Int))
      else if d > bound - 1 then none else some d


/-- The fraction digits of `v / 10 ^ prec` after a point, without trailing zeros and without
the point when they are all zero, and the whole part. -/
def fraction (v prec : Nat) : String × Nat :=
  let digits := (Nat.toDigits 10 (v % Nat.pow 10 prec + Nat.pow 10 prec)).drop 1
  let kept := (digits.reverse.dropWhile (· == '0')).reverse
  ((if kept.isEmpty then "" else "." ++ String.ofList kept), v / Nat.pow 10 prec)

/-- The text of a duration in nanoseconds: hours, minutes and seconds with a fraction, as in
`1h2m3.5s`, leaving out leading zero units; below a second, milliseconds, microseconds or
nanoseconds with a fraction; zero is `0s`. -/
def format (d : Int) : String :=
  let u := d.natAbs
  let body :=
    if u == 0 then "0s"
    else if u < 1000 then toString u ++ "ns"
    else if u < 1000000 then
      let (f, w) := fraction u 3
      toString w ++ f ++ "µs"
    else if u < 1000000000 then
      let (f, w) := fraction u 6
      toString w ++ f ++ "ms"
    else
      let (f, s) := fraction u 9
      let secs := toString (s % 60) ++ f ++ "s"
      let m := s / 60
      if m == 0 then secs
      else
        let mins := toString (m % 60) ++ "m" ++ secs
        if m / 60 == 0 then mins else toString (m / 60) ++ "h" ++ mins
  (if d < 0 then "-" else "") ++ body

end BitTorrent.Duration
