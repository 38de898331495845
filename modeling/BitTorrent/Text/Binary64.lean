/-!
# Binary64 numbers and their decimal text

A 64-bit binary floating-point number is a sign, an 11-bit biased exponent and a 52-bit
fraction. Reading decimal text gives the nearest such number, ties to the even fraction; a
value past the largest finite one is out of range. Writing gives the shortest digits that read
back to the same number, in plain notation for magnitudes from `1e-6` up to below `1e21` and in
exponent notation otherwise, as JSON text does.

All conversions are exact: a finite number is a natural number times a power of two, and every
comparison is made between natural numbers.
-/

namespace BitTorrent

/-- A binary64 number: sign, biased exponent field, fraction field. -/
structure Binary64 where
  neg : Bool
  exp : Nat
  frac : Nat
  deriving DecidableEq, Repr

namespace Binary64

/-- Positive infinity. -/
def inf : Binary64 := ⟨false, 2047, 0⟩

/-- A quiet NaN. -/
def nan : Binary64 := ⟨false, 2047, Nat.pow 2 51⟩

/-- The number is neither infinite nor NaN. -/
def isFinite (x : Binary64) : Bool := x.exp != 2047

/-- The magnitude of a finite number as `m * 2 ^ e`. -/
def parts (x : Binary64) : Nat × Int :=
  if x.exp = 0 then (x.frac, -1074) else (x.frac + Nat.pow 2 52, (x.exp : Int) - 1075)

/-- The quotient of `num` by `den` rounded to the nearest integer, ties to even. -/
def roundDiv (num den : Nat) : Nat :=
  let q := num / den
  let r := num % den
  if 2 * r > den || (2 * r == den && q % 2 == 1) then q + 1 else q

/-- `num * base ^ k` compared with `den` scaled the other way: whether `num / den < base ^ k`. -/
def below (base num den : Nat) (k : Int) : Bool :=
  num * Nat.pow base (-k).toNat < den * Nat.pow base k.toNat

/-- The number of digits of `n` in `base`. -/
def width (base n : Nat) : Nat :=
  if base ≤ 1 then 0 else (Nat.toDigits base n).length

/-- The integer part of the logarithm of `num / den` in `base`, for positive `num` and `den`. -/
def logRatio (base num den : Nat) : Int :=
  let b : Int := (width base num : Int) - width base den
  if below base num den b then b - 1 else b

/-- The number nearest `num / den` with the given sign, or none when it is out of range. -/
def ofRatio (neg : Bool) (num den : Nat) : Option Binary64 :=
  if num = 0 ∨ den = 0 then some ⟨neg, 0, 0⟩
  else
    let b := max (logRatio 2 num den) (-1022)
    let sh := 52 - b
    let q := if sh ≥ 0 then roundDiv (num * Nat.pow 2 sh.toNat) den else roundDiv num (den * Nat.pow 2 (-sh).toNat)
    let (q, b) := if q ≥ Nat.pow 2 53 then (q / 2, b + 1) else (q, b)
    if b > 1023 then none
    else if q < Nat.pow 2 52 then some ⟨neg, 0, q⟩
    else some ⟨neg, (b + 1023).toNat, q - Nat.pow 2 52⟩

/-- The number nearest `digits * 10 ^ e`, or none when it is out of range. -/
def ofDecimal (neg : Bool) (digits : Nat) (e : Int) : Option Binary64 :=
  let w : Int := width 10 digits
  if digits = 0 then some ⟨neg, 0, 0⟩
  else if w + e > 310 then none
  else if w + e < -330 then some ⟨neg, 0, 0⟩
  else if e ≥ 0 then ofRatio neg (digits * Nat.pow 10 e.toNat) 1
  else ofRatio neg digits (Nat.pow 10 (-e).toNat)

/-- The digits of decimal text as a number, and how many there were. -/
def digitsOf (cs : List Char) : Nat × Nat :=
  cs.foldl (fun (n, k) c => (n * 10 + (c.toNat - 48), k + 1)) (0, 0)

/-- Reads decimal text: an optional sign, digits with an optional fraction, and an optional
exponent. None when the text is not of that form or the value is out of range. -/
def ofText (s : String) : Option Binary64 :=
  let cs := s.toList
  let (neg, cs) := match cs with
    | '-' :: rest => (true, rest)
    | '+' :: rest => (false, rest)
    | _ => (false, cs)
  let intPart := cs.takeWhile Char.isDigit
  let cs := cs.drop intPart.length
  let (fracPart, cs) := match cs with
    | '.' :: rest => let f := rest.takeWhile Char.isDigit; (f, rest.drop f.length)
    | _ => ([], cs)
  let exp : Option Int := match cs with
    | [] => some 0
    | c :: rest =>
      if c != 'e' && c != 'E' then none
      else
        let (eneg, ds) := match rest with
          | '-' :: r => (true, r)
          | '+' :: r => (false, r)
          | _ => (false, rest)
        if ds.isEmpty || !ds.all Char.isDigit then none
        else
          let v : Int := (digitsOf ds).1
          some (if eneg then -v else v)
  match exp with
  | none => none
  | some e =>
    if intPart.isEmpty && fracPart.isEmpty then none
    else ofDecimal neg (digitsOf (intPart ++ fracPart)).1 (e - fracPart.length)

/-- How `d * 10 ^ sc` compares with `n * 2 ^ q`, in natural numbers. -/
def compareScaled (d : Nat) (sc : Int) (n : Nat) (q : Int) : Ordering :=
  compare (d * Nat.pow 10 sc.toNat * Nat.pow 2 (-q).toNat) (n * Nat.pow 2 q.toNat * Nat.pow 10 (-sc).toNat)

/-- The reals that round to a finite positive magnitude `m * 2 ^ e`, scaled by four: the
magnitude is `4m * 2 ^ (e - 2)` and the reals run from `lo * 2 ^ (e - 2)` to
`hi * 2 ^ (e - 2)`. The gap below is half the gap above when `m` is the least fraction of an
exponent that has a smaller one below it. The ends belong to it when `m` is even, as ties go to
the even fraction. -/
structure Rounding where
  m : Nat
  q : Int
  lo : Nat
  hi : Nat
  closed : Bool

/-- The reals that round to a finite positive number. -/
def rounding (x : Binary64) : Rounding :=
  let (m, e) := x.parts
  let lo := if x.frac = 0 ∧ x.exp > 1 then 4 * m - 1 else 4 * m - 2
  ⟨m, e - 2, lo, 4 * m + 2, m % 2 == 0⟩

/-- Whether `d * 10 ^ sc` lies among the reals that round to the number. -/
def Rounding.contains (r : Rounding) (d : Nat) (sc : Int) : Bool :=
  let a := compareScaled d sc r.lo r.q
  let b := compareScaled d sc r.hi r.q
  (a == .gt || (r.closed && a == .eq)) && (b == .lt || (r.closed && b == .eq))

/-- The `p`-digit decimal that reads back to the number, if there is one: of the two
neighbours of the magnitude on the grid of `p` significant digits, the one inside, or the nearer
when both are, a tie going to the even digits. The answer is the digits and the power of ten of
the last one. -/
def Rounding.digitsAt (r : Rounding) (p : Nat) : Option (Nat × Int) :=
  let num := 4 * r.m * Nat.pow 2 r.q.toNat
  let den := Nat.pow 2 (-r.q).toNat
  let sc := logRatio 10 num den - p + 1
  let d := num * Nat.pow 10 (-sc).toNat / (den * Nat.pow 10 sc.toNat)
  match r.contains d sc, r.contains (d + 1) sc with
  | true, true =>
    match compareScaled (2 * d + 1) sc (8 * r.m) r.q with
    | .gt => some (d, sc)
    | .lt => some (d + 1, sc)
    | .eq => if d % 2 == 0 then some (d, sc) else some (d + 1, sc)
  | true, false => some (d, sc)
  | false, true => some (d + 1, sc)
  | false, false => none

/-- The first grid, from `p` significant digits up, that has a decimal reading back to the
number; seventeen digits always have one. -/
def Rounding.digitsFrom (r : Rounding) : Nat → Nat → Nat × Int
  | 0, p => (r.digitsAt p).getD (0, 0)
  | fuel + 1, p =>
    match r.digitsAt p with
    | some ds => ds
    | none => r.digitsFrom fuel (p + 1)

/-- Drops the trailing zeros of the digits, raising the power of ten. -/
def trim : Nat → Nat × Int → Nat × Int
  | 0, r => r
  | fuel + 1, (d, sc) => if d ≠ 0 ∧ d % 10 = 0 then trim fuel (d / 10, sc + 1) else (d, sc)

/-- The shortest decimal digits of a finite number's magnitude that read back to it, the
nearest of them when several do, and the power of ten of the last digit; zero is `(0, 0)`. -/
def shortest (x : Binary64) : Nat × Int :=
  if x.parts.1 = 0 then (0, 0)
  else trim 20 ((rounding x).digitsFrom 16 1)

/-- The digits of a natural number as text. -/
def digitText (d : Nat) : String := toString d

/-- Plain notation of `d * 10 ^ sc`. -/
def plain (d : Nat) (sc : Int) : String :=
  let ds := digitText d
  let n : Int := ds.length
  let x := n + sc
  if d = 0 then "0"
  else if x ≤ 0 then "0." ++ String.ofList (List.replicate (-x).toNat '0') ++ ds
  else if x ≥ n then ds ++ String.ofList (List.replicate sc.toNat '0')
  else String.ofList (ds.toList.take x.toNat) ++ "." ++ String.ofList (ds.toList.drop x.toNat)

/-- Exponent notation of `d * 10 ^ sc`: one digit before the point and the exponent with a
sign and at least `minExp` digits. -/
def scientific (d : Nat) (sc : Int) (minExp : Nat) : String :=
  let ds := (digitText d).toList
  let x : Int := ds.length + sc - 1
  let ex := digitText x.natAbs
  String.ofList (ds.take 1) ++ (if ds.length > 1 then "." ++ String.ofList (ds.drop 1) else "") ++
    "e" ++ (if x < 0 then "-" else "+") ++
    String.ofList (List.replicate (minExp - ex.length) '0') ++ ex

/-- The text of a number that is not finite. -/
def special (x : Binary64) : String :=
  if x.frac ≠ 0 then "NaN" else if x.neg then "-Inf" else "+Inf"

/-- The JSON text of a finite number: shortest digits, plain between `1e-6` and `1e21`. -/
def jsonText (x : Binary64) : String :=
  let (d, sc) := x.shortest
  let sign := if x.neg then "-" else ""
  let lead : Int := (digitText d).length + sc - 1
  if d ≠ 0 ∧ (lead < -6 ∨ lead ≥ 21) then sign ++ scientific d sc 1
  else sign ++ plain d sc

end Binary64

end BitTorrent
