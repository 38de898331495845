import BitTorrent.Text.Timestamp
import BitTorrent.Proofs.Text.Decimal
import BitTorrent.Proofs.Text.Bytes
import Mathlib.Tactic

/-!
# Timestamps written and read back

A timestamp written without its fraction reads back as itself with the fraction dropped
(`Timestamp.parse_format`), provided it is one the reader accepts at all (`Timestamp.Valid`: a
month, day, hour, minute and second within their ranges), its year has at most four digits and
its offset is a whole number of minutes below 25 hours. The bound on the offset is sharp: the
reader takes an offset of `24:60`, but it is written as `25:00`, which it refuses
(`Timestamp.parse_format_of_offset`).

The written text is a sequence of fixed-width digit groups (`Timestamp.pad_bytes`) separated by
single bytes, and the reader takes it field by field, each by its own lemma.
-/

namespace BitTorrent

namespace Timestamp

open Decimal Bytes

section Bytes

theorem utf8_colon : ":".toUTF8.toList = [58] := by decide +kernel

theorem utf8_dash : "-".toUTF8.toList = [45] := by decide +kernel

end Bytes

section Digits

/-- The last `w` decimal digits of `n`, most significant first. -/
def fixed : Nat → Nat → List UInt8
  | 0, _ => []
  | w + 1, n => fixed w (n / 10) ++ [digitByte (n % 10)]

@[simp]
theorem length_fixed (w n : Nat) : (fixed w n).length = w := by
  induction w generalizing n with
  | zero => rfl
  | succ w ih => simp [fixed, ih]

theorem fixed_zero (w : Nat) : fixed w 0 = List.replicate w (digitByte 0) := by
  induction w with
  | zero => rfl
  | succ w ih => simp [fixed, ih, List.replicate_succ']

theorem fixed_two (n : Nat) : fixed 2 n = [digitByte (n / 10 % 10), digitByte (n % 10)] := by
  simp [fixed]

/-- The digits of `n < 10 ^ (w + 1)` padded with zeros in front to `w + 1` of them. -/
theorem padded_numeral (w n : Nat) (h : n < 10 ^ (w + 1)) :
    List.replicate (w + 1 - (numeral n).length) (digitByte 0) ++ numeral n = fixed (w + 1) n := by
  induction w generalizing n with
  | zero =>
    have hn : n < 10 := by simpa using h
    simp [numeral_of_lt hn, fixed, Nat.mod_eq_of_lt hn]
  | succ w ih =>
    by_cases hn : n < 10
    · rw [numeral_of_lt hn, fixed, Nat.div_eq_of_lt hn, fixed_zero, Nat.mod_eq_of_lt hn]
      simp [List.replicate_succ']
    · have hq : n / 10 < 10 ^ (w + 1) := by
        rw [Nat.div_lt_iff_lt_mul (by decide), ← Nat.pow_succ]
        exact h
      rw [numeral_of_ge (by omega), fixed, ← ih (n / 10) hq, List.length_append,
        List.length_singleton, ← List.append_assoc,
        show w + 1 + 1 - ((numeral (n / 10)).length + 1) = w + 1 - (numeral (n / 10)).length by
          omega]

/-- A number of at most `w` digits is written as exactly `w` of them. -/
theorem pad_bytes {w n : Nat} (hw : 0 < w) (h : n < 10 ^ w) : (pad n w).toUTF8.toList = fixed w n := by
  obtain ⟨w, rfl⟩ := Nat.exists_eq_add_one_of_ne_zero (Nat.pos_iff_ne_zero.1 hw)
  have hascii : ∀ c ∈ List.replicate (w + 1 - (Nat.toDigits 10 n).length) '0' ++ Nat.toDigits 10 n,
      c.toNat < 128 := by
    intro c hc
    rcases List.mem_append.1 hc with hc | hc
    · rw [List.eq_of_mem_replicate hc]
      decide
    · have hdigit := Nat.isDigit_of_mem_toDigits (by decide) (by decide) hc
      simp only [Char.isDigit, Bool.and_eq_true, decide_eq_true_eq,
        UInt32.le_iff_toNat_le] at hdigit
      have : c.toNat = c.val.toNat := rfl
      simp at hdigit
      omega
  have hlen : (numeral n).length = (Nat.toDigits 10 n).length := by
    rw [numeral_eq, List.length_map]
  rw [pad, utf8_ofList hascii, List.map_append, List.map_replicate, ← numeral_eq, ← hlen,
    ← padded_numeral w n h]
  rfl

end Digits

section Reading

theorem digit_lt (n : Nat) : n % 10 < 10 :=
  Nat.mod_lt n (by decide)

theorem number_fixed (strict : Bool) {n : Nat} (hn : n < 100) (rest : List UInt8) :
    number strict (fixed 2 n ++ rest) = some (n, rest) := by
  simp [fixed_two, number, digit?_digitByte (digit_lt _)]
  omega

theorem readYear_fixed {n : Nat} (hn : n < 10000) (rest : List UInt8) :
    readYear (fixed 4 n ++ rest) = .ok (n, rest) := by
  have h4 : fixed 4 n = [digitByte (n / 10 / 10 / 10 % 10), digitByte (n / 10 / 10 % 10),
      digitByte (n / 10 % 10), digitByte (n % 10)] := by
    simp [fixed]
  rw [readYear, List.take_left' (length_fixed 4 n), List.drop_left' (length_fixed 4 n), h4]
  simp [digit?_digitByte (digit_lt _)]
  omega

theorem field_fixed (elem : String) (strict : Bool) (check : Nat → Bool) (what : String)
    {n : Nat} (hn : n < 100) (hc : check n = true) (rest : List UInt8) :
    field elem strict check what (fixed 2 n ++ rest) = .ok (n, rest) := by
  simp [field, number_fixed strict hn, hc]

theorem literal_cons {c : Char} {b : UInt8} (h : b.toNat = c.toNat) (rest : List UInt8) :
    literal c (b :: rest) = .ok rest := by
  simp [literal, h]

/-- No fraction is read before a zone. -/
theorem fraction_of {b : UInt8} (h46 : b ≠ 46) (h44 : b ≠ 44) (rest : List UInt8) :
    fraction (b :: rest) = (0, b :: rest) := by
  simp [fraction, h46, h44]

end Reading

section Zone

/-- The sign a nonzero offset is written with. -/
def signByte (offset : Int) : UInt8 :=
  if offset < 0 then 45 else 43

theorem signByte_cases (offset : Int) : signByte offset = 43 ∨ signByte offset = 45 := by
  unfold signByte
  split <;> simp

/-- The written zone of a nonzero offset: its sign, hours, a colon and minutes. -/
theorem zoneText_bytes {offset : Int} (h0 : offset ≠ 0) (hzone : offset.natAbs < 100 * 3600) :
    (zoneText offset).toUTF8.toList =
      signByte offset ::
        (fixed 2 (offset.natAbs / 60 / 60) ++ 58 :: fixed 2 (offset.natAbs / 60 % 60)) := by
  have hh : offset.natAbs / 60 / 60 < 10 ^ 2 := by omega
  have hm : offset.natAbs / 60 % 60 < 10 ^ 2 := by omega
  rw [zoneText, if_neg (by simpa using h0)]
  simp only [utf8_append, pad_bytes (by decide) hh, pad_bytes (by decide) hm, utf8_colon]
  by_cases hneg : offset < 0
  · rw [if_pos hneg, signByte, if_pos hneg, utf8_dash]
    rfl
  · have hplus : "+".toUTF8.toList = [43] := by decide +kernel
    rw [if_neg hneg, signByte, if_neg hneg, hplus]
    rfl

/-- A signed offset of `h ≤ 24` hours and `m ≤ 60` minutes, of two digits each, is read as
`± (60 * h + m)` minutes. -/
theorem zone_fixed {sign : UInt8} (hsign : sign = 43 ∨ sign = 45) {h m : Nat} (hh : h ≤ 24)
    (hm : m ≤ 60) (rest : List UInt8) :
    zone (sign :: (fixed 2 h ++ 58 :: (fixed 2 m ++ rest))) =
      .ok (if sign = 45 then -(((h * 60 + m) * 60 : Nat) : Int) else ((h * 60 + m) * 60 : Nat),
        rest) := by
  have hH := number_fixed true (n := h) (by omega) []
  have hM := number_fixed true (n := m) (by omega) []
  rw [fixed_two, List.append_nil] at hH hM
  have hh' : ¬ h > 24 := by omega
  have hm' : ¬ m > 60 := by omega
  rw [fixed_two, fixed_two]
  rcases hsign with rfl | rfl <;> simp [zone, hH, hM, hh', hm']

/-- Hours past 24 are refused, once the minutes are within their range. -/
theorem zone_of_hours {sign : UInt8} (hsign : sign = 43 ∨ sign = 45) {h m : Nat} (hh : 24 < h)
    (h100 : h < 100) (hm : m ≤ 60) (rest : List UInt8) :
    zone (sign :: (fixed 2 h ++ 58 :: (fixed 2 m ++ rest))) =
      .error (.range "time zone offset hour") := by
  have hH := number_fixed true (n := h) h100 []
  have hM := number_fixed true (n := m) (by omega) []
  rw [fixed_two, List.append_nil] at hH hM
  have hm' : ¬ m > 60 := by omega
  rw [fixed_two, fixed_two]
  rcases hsign with rfl | rfl <;> simp [zone, hH, hM, hh, hm']

theorem utf8_zulu : "Z".toUTF8.toList = [90] := by decide +kernel

/-- The zone of a whole number of minutes below 25 hours reads back as its offset. -/
theorem zone_zoneText {offset : Int} (hmin : offset % 60 = 0) (hzone : offset.natAbs < 25 * 3600)
    (rest : List UInt8) : zone ((zoneText offset).toUTF8.toList ++ rest) = .ok (offset, rest) := by
  by_cases h0 : offset = 0
  · rw [zoneText, if_pos (by simpa using h0), utf8_zulu, h0]
    rfl
  · rw [zoneText_bytes h0 (by omega), List.cons_append, List.append_assoc, List.cons_append,
      zone_fixed (signByte_cases offset) (by omega) (by omega), signByte]
    by_cases hneg : offset < 0
    · simp only [if_pos hneg, if_true, Except.ok.injEq, Prod.mk.injEq, and_true]
      omega
    · simp only [if_neg hneg, show (43 : UInt8) ≠ 45 by decide, if_false, Except.ok.injEq,
        Prod.mk.injEq, and_true]
      omega

/-- No fraction is read before a zone. -/
theorem fraction_zoneText {offset : Int} (hzone : offset.natAbs < 100 * 3600) :
    fraction (zoneText offset).toUTF8.toList = (0, (zoneText offset).toUTF8.toList) := by
  by_cases h0 : offset = 0
  · rw [zoneText, if_pos (by simpa using h0), utf8_zulu]
    rfl
  · rw [zoneText_bytes h0 hzone]
    rcases signByte_cases offset with h | h <;> rw [h] <;> exact fraction_of (by decide) (by decide) _

end Zone

/-- A timestamp the reader accepts: each field within the range it is checked against. -/
structure Valid (t : Timestamp) : Prop where
  month_pos : 0 < t.month
  month_le : t.month ≤ 12
  day_pos : 0 < t.day
  day_le : t.day ≤ daysIn t.month t.year
  hour_lt : t.hour < 24
  minute_lt : t.minute < 60
  second_lt : t.second < 60

theorem daysIn_le (m y : Nat) : daysIn m y ≤ 31 := by
  unfold daysIn
  split
  · split <;> omega
  all_goals omega

/-- The text of a timestamp without its fraction: digit groups of fixed widths between
separators, then the zone. -/
theorem format_bytes {t : Timestamp} (ht : t.Valid) (hyear : t.year < 10000) :
    (t.format false).toUTF8.toList =
      fixed 4 t.year ++ 45 :: (fixed 2 t.month ++ 45 :: (fixed 2 t.day ++ 84 ::
        (fixed 2 t.hour ++ 58 :: (fixed 2 t.minute ++ 58 :: (fixed 2 t.second ++
          (zoneText t.offset).toUTF8.toList))))) := by
  have hday := daysIn_le t.month t.year
  have hT : "T".toUTF8.toList = [84] := by decide +kernel
  have hnone : "".toUTF8.toList = [] := by decide +kernel
  have hY := pad_bytes (w := 4) (n := t.year) (by decide) (by omega)
  have hM := pad_bytes (w := 2) (n := t.month) (by decide) (by have := ht.month_le; omega)
  have hD := pad_bytes (w := 2) (n := t.day) (by decide) (by have := ht.day_le; omega)
  have hh := pad_bytes (w := 2) (n := t.hour) (by decide) (by have := ht.hour_lt; omega)
  have hm := pad_bytes (w := 2) (n := t.minute) (by decide) (by have := ht.minute_lt; omega)
  have hs := pad_bytes (w := 2) (n := t.second) (by decide) (by have := ht.second_lt; omega)
  simp only [format, utf8_append, hY, hM, hD, hh, hm, hs, utf8_dash, utf8_colon, hT,
    Bool.false_eq_true, if_false, hnone, List.append_assoc, List.cons_append, List.nil_append,
    List.append_nil]

/-- Reading a written timestamp comes down to reading its zone: every field before it is read
back as written. -/
theorem parse_format_eq {t : Timestamp} (ht : t.Valid) (hyear : t.year < 10000)
    (hzone : t.offset.natAbs < 100 * 3600) :
    parse (t.format false).toUTF8.toList =
      match zone (zoneText t.offset).toUTF8.toList with
      | .error e => .error e
      | .ok (offset, s) => if s.isEmpty then .ok { t with nanos := 0, offset } else .error (.extra s) := by
  have hday := daysIn_le t.month t.year
  have hY := readYear_fixed hyear
  have hM := field_fixed "01" true (fun m => 0 < m && m ≤ 12) "month" (n := t.month)
    (by have := ht.month_le; omega) (by simp [ht.month_pos, ht.month_le])
  have hD := field_fixed "02" true (fun _ => true) "day" (n := t.day)
    (by have := ht.day_le; omega) rfl
  have hh := field_fixed "15" false (· < 24) "hour" (n := t.hour)
    (by have := ht.hour_lt; omega) (by simp [ht.hour_lt])
  have hm := field_fixed "04" true (· < 60) "minute" (n := t.minute)
    (by have := ht.minute_lt; omega) (by simp [ht.minute_lt])
  have hs := field_fixed "05" true (· < 60) "second" (n := t.second)
    (by have := ht.second_lt; omega) (by simp [ht.second_lt])
  rw [format_bytes ht hyear]
  simp only [parse, hY, hM, hD, hh, hm, hs, literal_cons (c := '-') (b := 45) rfl,
    literal_cons (c := 'T') (b := 84) rfl, literal_cons (c := ':') (b := 58) rfl,
    fraction_zoneText hzone, bind, Except.bind]
  -- the day is within its month, so only what follows the zone can fail
  have hd1 : ¬ t.day < 1 := by have := ht.day_pos; omega
  have hd2 : ¬ t.day > daysIn t.month t.year := by have := ht.day_le; omega
  rcases zone (zoneText t.offset).toUTF8.toList with e | ⟨offset, s⟩
  · rfl
  · cases s <;> simp [hd1, hd2, pure, Except.pure, throw, throwThe, MonadExceptOf.throw]

/-- A timestamp written without its fraction reads back as itself with the fraction dropped,
when its year has at most four digits and its offset is a whole number of minutes below 25
hours. -/
theorem parse_format {t : Timestamp} (ht : t.Valid) (hyear : t.year < 10000)
    (hmin : t.offset % 60 = 0) (hzone : t.offset.natAbs < 25 * 3600) :
    parse (t.format false).toUTF8.toList = .ok { t with nanos := 0 } := by
  have hz := zone_zoneText hmin hzone []
  rw [List.append_nil] at hz
  rw [parse_format_eq ht hyear (by omega), hz]
  rfl

/-- The bound on the offset is sharp. An offset of 25 hours is taken by the reader as `24:60`
(`zone_fixed`), but it is written as `25:00`, which the reader refuses. -/
theorem parse_format_of_offset {t : Timestamp} (ht : t.Valid) (hyear : t.year < 10000)
    (hoff : t.offset.natAbs = 25 * 3600) :
    parse (t.format false).toUTF8.toList = .error (.range "time zone offset hour") := by
  have h0 : t.offset ≠ 0 := by omega
  have hzone := zone_of_hours (signByte_cases t.offset) (h := t.offset.natAbs / 60 / 60)
    (m := t.offset.natAbs / 60 % 60) (by omega) (by omega) (by omega) []
  rw [List.append_nil, ← zoneText_bytes h0 (by omega)] at hzone
  rw [parse_format_eq ht hyear (by omega), hzone]

end Timestamp

end BitTorrent
