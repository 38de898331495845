import BitTorrent.Proofs.Piece.Blocks

/-!
# Slicing sections

A run of sections stands for the concatenation of their files' ranges. `Section.units` lists the
bytes a section covers, each as the one-byte section of the same file at its offset; the bytes
of a run of sections are those of its sections one after another.

Cutting takes exactly the requested bytes of that concatenation, in order, in sections that are
not empty (`Sections.units_cut`, `Sections.length_pos_of_mem_cut`). A slice cuts when its bound
check passes (`Sections.slice_eq_ok_iff`). The check adds `off` and `length` in 64-bit
arithmetic, so it matches the range check in exact integers only when neither that sum nor the
total length of the sections wraps (`Sections.slice_selects_range`). Past that, a range that
wraps is accepted (`Sections.slice_accepts_wrapped_range`).
-/

namespace BitTorrent

namespace Int64

theorem ofNat_toNat_toInt {x : Int64} (h : 0 ≤ x.toInt) : Int64.ofNat x.toInt.toNat = x := by
  apply Int64.toInt_inj.1
  have := Int64.toInt_lt x
  rw [Int64.toInt_ofNat_of_lt (by omega)]
  omega

end Int64

namespace Section

/-- The bytes a section covers, in order, each as the one-byte section of the same file at its
offset. -/
def units (s : Section) : List Section :=
  (List.range s.length.toInt.toNat).map fun k =>
    { s with offset := s.offset + Int64.ofNat k, length := 1 }

@[simp] theorem length_units (s : Section) : s.units.length = s.length.toInt.toNat := by
  simp [units]

/-- The `n` bytes of a section from `off` on are the section moved by `off` and cut to `n`. -/
theorem units_shift {s : Section} {off n : Int64} (hoff : 0 ≤ off.toInt) (hn : 0 ≤ n.toInt)
    (hle : off.toInt + n.toInt ≤ s.length.toInt) :
    ({ s with offset := s.offset + off, length := n } : Section).units =
      (s.units.drop off.toInt.toNat).take n.toInt.toNat := by
  apply List.ext_getElem
  · simp only [length_units, List.length_take, List.length_drop]
    omega
  · intro k h1 h2
    simp only [units, List.getElem_map, List.getElem_range, List.getElem_take, List.getElem_drop]
    rw [Int64.ofNat_add, Int64.ofNat_toNat_toInt hoff, Int64.add_assoc]

end Section

namespace Sections

/-- The length of the part a cut takes from a section it starts in. -/
theorem toInt_cutLength {s : Section} {off len : Int64} (hoff : 0 ≤ off.toInt)
    (hs : 0 ≤ s.length.toInt) :
    (if s.length - off > len then len else s.length - off).toInt =
      min len.toInt (s.length.toInt - off.toInt) := by
  have hleft : (s.length - off).toInt = s.length.toInt - off.toInt :=
    Int64.toInt_sub_of_nonneg hs hoff
  split
  · rename_i hgt
    rw [gt_iff_lt, Int64.lt_iff_toInt_lt, hleft] at hgt
    omega
  · rename_i hgt
    rw [gt_iff_lt, Int64.lt_iff_toInt_lt, hleft] at hgt
    omega

/-- What a cut takes from its first section: nothing when no bytes are asked for, nothing from
a section the range starts past, else the part from `off` on, up to `len` bytes. -/
theorem cut_cons_cases (s : Section) (rest : List Section) (len : Int64) {off : Int64}
    (hoff : 0 ≤ off.toInt) (hs : 0 ≤ s.length.toInt) :
    (len.toInt = 0 ∧ cut (s :: rest) off len = []) ∨
    (len.toInt ≠ 0 ∧ s.length.toInt ≤ off.toInt ∧
      cut (s :: rest) off len = cut rest (off - s.length) len) ∨
    (len.toInt ≠ 0 ∧ off.toInt < s.length.toInt ∧
      ∃ n : Int64, n.toInt = min len.toInt (s.length.toInt - off.toInt) ∧
        cut (s :: rest) off len =
          { s with offset := s.offset + off, length := n } :: cut rest 0 (len - n)) := by
  rw [cut]
  by_cases hz : len = 0
  · subst hz
    exact .inl ⟨Int64.toInt_zero, rfl⟩
  have hz' : len.toInt ≠ 0 := fun h => hz (Int64.toInt_inj.1 (h.trans Int64.toInt_zero.symm))
  rw [if_neg (by simpa using hz)]
  by_cases hge : off ≥ s.length
  · rw [if_pos hge]
    rw [ge_iff_le, Int64.le_iff_toInt_le] at hge
    exact .inr (.inl ⟨hz', hge, rfl⟩)
  · rw [if_neg hge]
    rw [ge_iff_le, Int64.le_iff_toInt_le, Int.not_le] at hge
    exact .inr (.inr ⟨hz', hge, _, toInt_cutLength hoff hs, rfl⟩)

/-- **A cut covers exactly the requested bytes**: the `len` bytes from `off` of the sections,
or as many of them as there are. -/
theorem units_cut : ∀ (ss : List Section), (∀ s ∈ ss, 0 ≤ s.length.toInt) →
    ∀ off len : Int64, 0 ≤ off.toInt → 0 ≤ len.toInt →
      (cut ss off len).flatMap Section.units =
        ((ss.flatMap Section.units).drop off.toInt.toNat).take len.toInt.toNat
  | [], _, _, _, _, _ => by simp [cut]
  | s :: rest, hss, off, len, hoff, hlen => by
    have hs := hss s List.mem_cons_self
    have hrest : ∀ t ∈ rest, 0 ≤ t.length.toInt := fun t ht => hss t (List.mem_cons_of_mem s ht)
    rcases cut_cons_cases s rest len hoff hs with
      ⟨hz, hcut⟩ | ⟨-, hge, hcut⟩ | ⟨-, hlt, n, hn, hcut⟩ <;> rw [hcut]
    · rw [hz]
      simp
    · -- the range starts past this section
      have hsub := Int64.toInt_sub_of_nonneg hoff hs
      have hdrop : s.units.drop off.toInt.toNat = [] :=
        List.drop_eq_nil_of_le (by rw [Section.length_units]; omega)
      rw [units_cut rest hrest _ len (by omega) hlen, List.flatMap_cons, List.drop_append, hdrop,
        List.nil_append, Section.length_units, hsub]
      congr 2
      omega
    · -- the range starts in this section, which gives its first part
      have hsub := Int64.toInt_sub_of_nonneg hlen (show 0 ≤ n.toInt by omega)
      rw [List.flatMap_cons, List.flatMap_cons, Section.units_shift hoff (by omega) (by omega),
        units_cut rest hrest 0 (len - n) (by simp) (by omega), List.drop_append_of_le_length
          (by rw [Section.length_units]; omega), List.take_append, Int64.toInt_zero,
        Int.toNat_zero, List.drop_zero, List.length_drop, Section.length_units, hsub]
      congr 1
      · rw [List.take_eq_take_iff, List.length_drop, Section.length_units]
        omega
      · congr 1
        omega

/-- No section of a cut is empty. -/
theorem length_pos_of_mem_cut : ∀ (ss : List Section), (∀ s ∈ ss, 0 ≤ s.length.toInt) →
    ∀ off len : Int64, 0 ≤ off.toInt → 0 ≤ len.toInt → ∀ t ∈ cut ss off len, 0 < t.length.toInt
  | [], _, _, _, _, _ => by simp [cut]
  | s :: rest, hss, off, len, hoff, hlen => by
    have hs := hss s List.mem_cons_self
    have hrest : ∀ t ∈ rest, 0 ≤ t.length.toInt := fun t ht => hss t (List.mem_cons_of_mem s ht)
    intro t ht
    rcases cut_cons_cases s rest len hoff hs with
      ⟨-, hcut⟩ | ⟨-, hge, hcut⟩ | ⟨hz, hlt, n, hn, hcut⟩ <;> rw [hcut] at ht
    · cases ht
    · exact length_pos_of_mem_cut rest hrest _ len
        (by rw [Int64.toInt_sub_of_nonneg hoff hs]; omega) hlen t ht
    · -- a cut goes on only while bytes are left to take
      rcases List.mem_cons.1 ht with rfl | ht
      · show 0 < n.toInt
        omega
      · exact length_pos_of_mem_cut rest hrest 0 (len - n) (by simp)
          (by rw [Int64.toInt_sub_of_nonneg hlen (by omega)]; omega) t ht

theorem sum_length_eq_length_units {ts : List Section} (h : ∀ t ∈ ts, 0 ≤ t.length.toInt) :
    (ts.map (·.length.toInt)).sum = (ts.flatMap Section.units).length := by
  rw [List.length_flatMap, ← List.natCast_sum_map_toNat ts _ h]
  simp only [Section.length_units]

/-- A slice is the cut, exactly when its 64-bit bound check passes. -/
theorem slice_eq_ok_iff {ss parts : List Section} {off len : Int64} :
    slice ss off len = .ok parts ↔ 0 ≤ off.toInt ∧ 0 ≤ len.toInt ∧
      (off + len).toInt ≤ (Sections.length ss).toInt ∧ parts = cut ss off len := by
  unfold slice
  split
  · rename_i hc
    simp only [Bool.or_eq_true, decide_eq_true_eq, Int64.lt_iff_toInt_lt, Int64.toInt_zero] at hc
    simp only [reduceCtorEq, false_iff, not_and]
    intro h1 h2 h3
    omega
  · rename_i hc
    simp only [Bool.or_eq_true, decide_eq_true_eq, Int64.lt_iff_toInt_lt, Int64.toInt_zero,
      not_or, not_lt] at hc
    simp only [Except.ok.injEq]
    constructor
    · rintro rfl
      exact ⟨hc.1.1, hc.1.2, hc.2, rfl⟩
    · rintro ⟨-, -, -, rfl⟩
      rfl

/-- **A slice selects exactly the requested range.** For sections of lengths not negative, and a
range whose end and the sections' total length fit 64 bits: the slice succeeds exactly when the
range lies within the sections, and then gives sections that are not empty, whose lengths add up
to the length asked, and that cover the same bytes of the same files as the range does. -/
theorem slice_selects_range {ss : List Section} (hss : ∀ s ∈ ss, 0 ≤ s.length.toInt)
    (htotal : (ss.map (·.length.toInt)).sum < 2 ^ 63) {off len : Int64}
    (hfit : off.toInt + len.toInt < 2 ^ 63) :
    ((∃ parts, slice ss off len = .ok parts) ↔
      0 ≤ off.toInt ∧ 0 ≤ len.toInt ∧ off.toInt + len.toInt ≤ (ss.map (·.length.toInt)).sum) ∧
    ∀ parts, slice ss off len = .ok parts →
      (∀ t ∈ parts, 0 < t.length.toInt) ∧ (parts.map (·.length.toInt)).sum = len.toInt ∧
      parts.flatMap Section.units =
        ((ss.flatMap Section.units).drop off.toInt.toNat).take len.toInt.toNat := by
  have hlength := length_toInt hss htotal
  have hadd : 0 ≤ off.toInt → 0 ≤ len.toInt → (off + len).toInt = off.toInt + len.toInt :=
    fun h1 h2 => Int64.toInt_add_of_lt h1 h2 hfit
  constructor
  · constructor
    · rintro ⟨parts, h⟩
      obtain ⟨h1, h2, h3, -⟩ := slice_eq_ok_iff.1 h
      exact ⟨h1, h2, by rw [← hadd h1 h2, ← hlength]; exact h3⟩
    · rintro ⟨h1, h2, h3⟩
      exact ⟨_, slice_eq_ok_iff.2 ⟨h1, h2, by rw [hadd h1 h2, hlength]; exact h3, rfl⟩⟩
  · intro parts h
    obtain ⟨h1, h2, h3, rfl⟩ := slice_eq_ok_iff.1 h
    have hpos := length_pos_of_mem_cut ss hss off len h1 h2
    have hunits := units_cut ss hss off len h1 h2
    refine ⟨hpos, ?_, hunits⟩
    have hU := sum_length_eq_length_units hss
    rw [hadd h1 h2, hlength] at h3
    rw [sum_length_eq_length_units fun t ht => (hpos t ht).le, hunits, List.length_take,
      List.length_drop]
    omega

/-- Two files of four and six bytes, as sections. -/
def fourThenSix : List Section :=
  [⟨0, [], 0, 4⟩, ⟨3, [], 0, 6⟩]

theorem slice_across_two_files :
    (∀ s ∈ fourThenSix, 0 ≤ s.length.toInt) ∧ (fourThenSix.map (·.length.toInt)).sum < 2 ^ 63 ∧
      (3 : Int64).toInt + (3 : Int64).toInt < 2 ^ 63 ∧
      ((∃ parts, slice fourThenSix 3 3 = .ok parts) ↔
        0 ≤ (3 : Int64).toInt ∧ 0 ≤ (3 : Int64).toInt ∧
          (3 : Int64).toInt + (3 : Int64).toInt ≤ (fourThenSix.map (·.length.toInt)).sum) ∧
      ∀ parts, slice fourThenSix 3 3 = .ok parts →
        (∀ t ∈ parts, 0 < t.length.toInt) ∧ (parts.map (·.length.toInt)).sum = (3 : Int64).toInt ∧
        parts.flatMap Section.units =
          ((fourThenSix.flatMap Section.units).drop (3 : Int64).toInt.toNat).take
            (3 : Int64).toInt.toNat :=
  ⟨by decide, by decide, by decide, slice_selects_range (by decide) (by decide) (by decide)⟩

example : slice fourThenSix 3 3 = .ok [⟨0, [], 3, 1⟩, ⟨3, [], 0, 2⟩] := by decide

/-- A range whose end wraps past `2 ^ 63 - 1` passes the bound check: one byte at
`2 ^ 63 - 1` of no sections at all slices to nothing, and reading it finds no byte and no
failure. -/
theorem slice_accepts_wrapped_range :
    slice [] 9223372036854775807 1 = .ok [] ∧
      ¬ ((9223372036854775807 : Int64).toInt + (1 : Int64).toInt ≤
        (([] : List Section).map (·.length.toInt)).sum) ∧
      readAt (fun _ => { data := [] }) [] 9223372036854775807 1 = ([], none) := by
  decide

end Sections

end BitTorrent
