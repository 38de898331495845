import BitTorrent.Text.Decimal
import Mathlib.Tactic

/-!
# Decimal numerals read back

The decimal text of a number is read back as that number by the reader of its width: an
unsigned numeral of `n < 2 ^ bits` (`Decimal.readUnsigned_numeral`) and a signed one of any `v`
of the signed range of `bits` bits (`Decimal.readSigned_intNumeral`).

The digits of `n` are those of `n / 10` followed by the digit of `n % 10` (`Nat.toDigits_of_base_le`),
and the reader of digits runs over a concatenation part by part (`Decimal.digits_append`), so the
proof is an induction on `n` through its last digit.
-/

namespace BitTorrent

namespace Decimal

/-- The byte of a decimal digit. -/
def digitByte (d : Nat) : UInt8 :=
  (Nat.digitChar d).toNat.toUInt8

theorem digitByte_eq {d : Nat} (hd : d < 10) : (digitByte d).toNat = 48 + d := by
  simp only [digitByte, Nat.toNat_digitChar_of_lt_ten hd, Nat.toUInt8_eq, UInt8.toNat_ofNat']
  omega

@[simp]
theorem digit?_digitByte {d : Nat} (hd : d < 10) : digit? (digitByte d) = some d := by
  have h := digitByte_eq hd
  have h48 : (48 : UInt8) ≤ digitByte d := by
    rw [UInt8.le_iff_toNat_le]
    simp only [h, UInt8.reduceToNat]
    omega
  have h57 : digitByte d ≤ 57 := by
    rw [UInt8.le_iff_toNat_le, h]
    simp only [UInt8.reduceToNat]
    omega
  simp [digit?, h48, h57, h]

theorem numeral_eq (n : Nat) : numeral n = (Nat.toDigits 10 n).map fun c => c.toNat.toUInt8 := by
  simp [numeral]

/-- The digits of a number: those of its tenth, then its last one. -/
theorem numeral_of_ge {n : Nat} (h : 10 ≤ n) : numeral n = numeral (n / 10) ++ [digitByte (n % 10)] := by
  simp [numeral_eq, Nat.toDigits_of_base_le (by decide : 1 < 10) h, digitByte]

theorem numeral_of_lt {n : Nat} (h : n < 10) : numeral n = [digitByte n] := by
  simp [numeral_eq, Nat.toDigits_of_lt_base h, digitByte]

theorem mem_numeral {n : Nat} {b : UInt8} (hb : b ∈ numeral n) : ∃ d < 10, b = digitByte d := by
  induction n using Nat.strong_induction_on with
  | _ n ih =>
    by_cases h : n < 10
    · rw [numeral_of_lt h, List.mem_singleton] at hb
      exact ⟨n, h, hb⟩
    · rw [numeral_of_ge (by omega), List.mem_append, List.mem_singleton] at hb
      rcases hb with hb | hb
      · exact ih (n / 10) (by omega) hb
      · exact ⟨n % 10, Nat.mod_lt _ (by decide), hb⟩

theorem numeral_ne_nil (n : Nat) : numeral n ≠ [] := by
  simp [numeral_eq]

/-- No digit is a sign, a colon or the end of an integer. -/
theorem digitByte_ne {d : Nat} (hd : d < 10) {b : UInt8} (hb : b.toNat < 48) :
    digitByte d ≠ b := by
  intro h
  have := digitByte_eq hd
  rw [h] at this
  omega

theorem digits_append (max acc : Nat) (xs ys : List UInt8) :
    digits max acc (xs ++ ys) = (digits max acc xs).bind fun n => digits max n ys := by
  induction xs generalizing acc with
  | nil => rfl
  | cons x xs ih =>
    simp only [List.cons_append, digits]
    split
    · rfl
    · split
      · rfl
      · split
        · rfl
        · exact ih _

/-- The digits of `n` read back as `n`, when `n` is at most the largest value allowed and that
fits 64 bits. -/
theorem digits_numeral {max : Nat} (hmax : max < 2 ^ 64) :
    ∀ n ≤ max, digits max 0 (numeral n) = .ok n := by
  intro n
  induction n using Nat.strong_induction_on with
  | _ n ih =>
    intro hn
    by_cases h : n < 10
    · rw [numeral_of_lt h]
      simp [digits, digit?_digitByte h, cutoff]
      omega
    · rw [numeral_of_ge (by omega), digits_append, ih (n / 10) (by omega) (by omega)]
      have hcut : ¬ n / 10 ≥ cutoff := by
        simp only [cutoff, Nat.pow_eq]
        omega
      simp only [Except.bind, digits, digit?_digitByte (Nat.mod_lt n (by decide)), hcut,
        if_false]
      rw [if_neg (by omega)]
      congr 1
      omega

theorem readUnsigned_numeral {bits n : Nat} (hbits : bits ≤ 64) (hn : n < 2 ^ bits) :
    readUnsigned bits (numeral n) = .ok n := by
  have hpow : 2 ^ bits ≤ 2 ^ 64 := Nat.pow_le_pow_right (by decide) hbits
  have hd : digits (2 ^ bits - 1) 0 (numeral n) = .ok n := digits_numeral (by omega) n (by omega)
  simp [readUnsigned, numeral_ne_nil, hd]

/-- Text that opens with neither sign is read as an unsigned numeral, below the bound. -/
theorem readSigned_of_unsigned {bits : Nat} {b : UInt8} {bs : List UInt8} {n : Nat}
    (h43 : b ≠ 43) (h45 : b ≠ 45) (hu : readUnsigned bits (b :: bs) = .ok n)
    (hn : n < 2 ^ (bits - 1)) : readSigned bits (b :: bs) = .ok n := by
  unfold readSigned
  simp only [List.isEmpty_cons, Bool.false_eq_true, if_false]
  -- the reading of the digits, then the sign the text opens with
  split
  · rename_i heq
    split at heq <;> simp_all
  · rename_i heq
    split at heq <;> simp_all
  · rename_i m heq
    split at heq
    · simp_all
    · simp_all
    · rw [hu] at heq
      cases heq
      simp [Nat.pow_eq, hn]

/-- A minus sign before an unsigned numeral of at most the bound gives its negative. -/
theorem readSigned_minus {bits : Nat} {s : List UInt8} {n : Nat}
    (hu : readUnsigned bits s = .ok n) (hn : n ≤ 2 ^ (bits - 1)) :
    readSigned bits (45 :: s) = .ok (-n) := by
  simp [readSigned, hu, Nat.pow_eq, Nat.not_lt.2 hn]

/-- The decimal text of a signed value of `bits` bits reads back as that value. -/
theorem readSigned_intNumeral {bits : Nat} {v : Int} (hbits : 0 < bits ∧ bits ≤ 64)
    (hlo : -2 ^ (bits - 1) ≤ v) (hhi : v < 2 ^ (bits - 1)) :
    readSigned bits (intNumeral v) = .ok v := by
  have hhalf : 2 ^ (bits - 1) * 2 = 2 ^ bits := by
    rw [← Nat.pow_succ]
    congr 1
    omega
  have hcast : ((2 ^ (bits - 1) : Nat) : Int) = 2 ^ (bits - 1) := by push_cast; rfl
  by_cases hneg : v < 0
  · -- a minus sign and the digits of the magnitude, at most the bound
    have hu := readUnsigned_numeral (n := v.natAbs) hbits.2 (by omega)
    rw [intNumeral, if_pos hneg, readSigned_minus hu (by omega)]
    congr 1
    omega
  · obtain ⟨b, bs, hb⟩ := List.exists_cons_of_ne_nil (numeral_ne_nil v.toNat)
    obtain ⟨d, hd, hbd⟩ := mem_numeral (hb ▸ List.mem_cons_self : b ∈ numeral v.toNat)
    have hu := readUnsigned_numeral (n := v.toNat) hbits.2 (by omega)
    rw [hb] at hu
    rw [intNumeral, if_neg hneg, hb, readSigned_of_unsigned (hbd ▸ digitByte_ne hd (by decide))
      (hbd ▸ digitByte_ne hd (by decide)) hu (by omega)]
    congr 1
    omega

end Decimal

end BitTorrent
