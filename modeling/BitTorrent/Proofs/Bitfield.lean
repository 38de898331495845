import Mathlib
import BitTorrent.Bitfield

/-!
# Reading, setting and counting bits

A successful `Bitfield.set` makes its bit read as set and leaves every other bit as it was, and a
successful `Bitfield.test` reads a bit as `Bitfield.getD` does. The byte arithmetic comes down
to one fact: the masks of two different bits of one byte are disjoint (`byteMask_and`).

`Bitfield.all` compares the count of set bits in the stored bytes with the length. When the
spare bits after the last one are clear (`Bitfield.SpareClear`: true of a new bitfield and kept
by every set), and the byte count does not wrap, a bitfield is full exactly when each of its bits
is set (`all_eq_true_iff`).
-/

namespace BitTorrent

namespace Bitfield

/-! ## Masks within a byte -/

/-- The mask of bit `k` of a byte, bit 0 the most significant. -/
def byteMask (k : Fin 8) : UInt8 := 1 <<< (7 - k.val.toUInt8)

theorem byteMask_and : ∀ {a b : Fin 8}, a ≠ b → byteMask a &&& byteMask b = 0 := by
  decide

theorem byteMask_ne_zero : ∀ k : Fin 8, byteMask k ≠ 0 := by
  decide

theorem mask_eq (i : UInt32) :
    mask i = byteMask ⟨(i % 8).toNat, by simp [UInt32.toNat_mod]; omega⟩ := by
  simp only [mask, byteMask]
  congr 2

theorem or_and_self (v m : UInt8) : (v ||| m) &&& m = m := by
  apply UInt8.toBitVec_inj.1
  simp only [UInt8.toBitVec_and, UInt8.toBitVec_or]
  ext k hk
  by_cases hm : m.toBitVec[k] = true <;> simp [hm]

theorem or_and_of_and_eq_zero {v m n : UInt8} (h : m &&& n = 0) : (v ||| m) &&& n = v &&& n := by
  apply UInt8.toBitVec_inj.1
  have h' := congrArg UInt8.toBitVec h
  simp only [UInt8.toBitVec_and, UInt8.toBitVec_or, BitVec.and_or_distrib_right] at h' ⊢
  rw [h']
  simp

/-- Two different bits held by one byte have disjoint masks. -/
theorem mask_and_mask {i j : UInt32} (hbyte : (i / 8).toNat = (j / 8).toNat) (hne : j ≠ i) :
    mask i &&& mask j = 0 := by
  rw [mask_eq, mask_eq]
  apply byteMask_and
  intro h
  have hmod : i.toNat % 8 = j.toNat % 8 := by simpa [UInt32.toNat_mod] using h
  have hdiv : i.toNat / 8 = j.toNat / 8 := by simpa [UInt32.toNat_div] using hbyte
  exact hne (UInt32.toNat_inj.1 (by omega))

/-! ## Reading bits back -/

variable {bf b : Bitfield} {i j : UInt32}

theorem set_eq_ok (h : bf.set i = .ok b) :
    b = bf.modifyByte i (· ||| mask i) ∧ i < bf.length ∧ (i / 8).toNat < bf.bytes.size := by
  unfold set checkIndex at h
  split at h
  · rename_i hlt
    split at h
    · rename_i hsize
      simp only [bind, Except.bind, pure, Except.pure, Except.ok.injEq] at h
      exact ⟨h.symm, hlt, hsize⟩
    · simp [bind, Except.bind] at h
  · simp [bind, Except.bind] at h

theorem getD_of_test_eq_ok {v : Bool} (h : bf.test i = .ok v) : bf.getD i = v := by
  unfold test at h
  cases hc : bf.checkIndex i <;> simp [hc, bind, Except.bind, pure, Except.pure] at h
  exact h

/-- The bit just set reads as set. -/
theorem getD_set_self (h : bf.set i = .ok b) : b.getD i = true := by
  obtain ⟨rfl, hlt, hsize⟩ := set_eq_ok h
  have hv := Array.getElem?_eq_getElem hsize
  have hmask : ∀ k : Fin 8, (byteMask k != 0) = true := by decide
  simp only [getD, get?, modifyByte, if_pos hlt, Array.getElem?_modify, if_true, hv,
    Option.map_some, Option.getD_some, or_and_self]
  rw [mask_eq]
  exact hmask _

/-- Setting a bit leaves every other bit as it was. -/
theorem getD_set_of_ne (h : bf.set i = .ok b) (hne : j ≠ i) : b.getD j = bf.getD j := by
  obtain ⟨rfl, -, -⟩ := set_eq_ok h
  simp only [getD, get?, modifyByte, Array.getElem?_modify]
  by_cases hbyte : (i / 8).toNat = (j / 8).toNat
  · simp only [hbyte, ↓reduceIte]
    cases hv : bf.bytes[(j / 8).toNat]? <;>
      simp [or_and_of_and_eq_zero (mask_and_mask hbyte hne)]
  · simp only [hbyte, ↓reduceIte]

/-! ## Counting bits -/

/-- Bit `j` of a run of bytes, bit 0 the most significant bit of the first byte. -/
def bitOf (bs : List UInt8) (j : Nat) : Bool :=
  match bs[j / 8]? with
  | some v => v &&& byteMask ⟨j % 8, Nat.mod_lt _ (by decide)⟩ != 0
  | none => false

theorem bitOf_cons_add (v : UInt8) (bs : List UInt8) (j : Nat) :
    bitOf (v :: bs) (8 + j) = bitOf bs j := by
  have hdiv : (8 + j) / 8 = j / 8 + 1 := by omega
  have hmod : (8 + j) % 8 = j % 8 := by omega
  simp only [bitOf, hdiv, List.getElem?_cons_succ, hmod]

theorem bitOf_cons_of_lt (v : UInt8) (bs : List UInt8) {t : Nat} (ht : t < 8) :
    bitOf (v :: bs) t = bitOf [v] t := by
  have hdiv : t / 8 = 0 := by omega
  simp only [bitOf, hdiv, List.getElem?_cons_zero]

/-- The set bits of one byte, counted in either order. -/
theorem popCount_eq_bits : ∀ n : Fin 256,
    popCount n.toNat.toUInt8 = ((List.range 8).filter (bitOf [n.toNat.toUInt8])).length := by
  decide +kernel

theorem popCount_eq_length_filter (v : UInt8) :
    popCount v = ((List.range 8).filter (bitOf [v])).length := by
  simpa using popCount_eq_bits ⟨v.toNat, v.toNat_lt⟩

theorem foldl_add_popCount (bs : List UInt8) (a : Nat) :
    bs.foldl (fun n v => n + popCount v) a = a + (bs.map popCount).sum := by
  induction bs generalizing a with
  | nil => simp
  | cons v bs ih => simp [ih]; omega

/-- The bytes' set bits, counted byte by byte, are the set bits among their positions. -/
theorem sum_popCount (bs : List UInt8) :
    (bs.map popCount).sum = ((List.range (8 * bs.length)).filter (bitOf bs)).length := by
  induction bs with
  | nil => simp
  | cons v bs ih =>
    have hsplit : 8 * (bs.length + 1) = 8 + 8 * bs.length := by omega
    have hhead : (List.range 8).filter (bitOf (v :: bs)) = (List.range 8).filter (bitOf [v]) :=
      List.filter_congr fun t ht => bitOf_cons_of_lt v bs (List.mem_range.1 ht)
    have htail : (bitOf (v :: bs)) ∘ (fun j => 8 + j) = bitOf bs :=
      funext fun j => bitOf_cons_add v bs j
    rw [List.length_cons, hsplit, List.range_add, List.filter_append, List.length_append,
      List.filter_map, htail, List.length_map, ← ih, hhead, ← popCount_eq_length_filter,
      List.map_cons, List.sum_cons]

/-! ## Spare bits and full bitfields -/

/-- The bits after the last one are clear. -/
def SpareClear (bf : Bitfield) : Prop :=
  ∀ j, bf.length.toNat ≤ j → bitOf bf.bytes.toList j = false

theorem count_eq_sum (bf : Bitfield) : bf.count = (bf.bytes.toList.map popCount).sum := by
  simp only [count, ← Array.foldl_toList, foldl_add_popCount, Nat.zero_add]

theorem length_le_bytes (hsmall : bf.length.toNat + 7 < 2 ^ 32) :
    bf.length.toNat ≤ 8 * bf.bytes.size := by
  rw [bf.size_eq, byteCount, UInt32.toNat_div, UInt32.toNat_add]
  simp only [UInt32.reduceToNat]
  rw [Nat.mod_eq_of_lt hsmall]
  omega

/-- With the spare bits clear, the count is the number of set bits among the first `length`. -/
theorem count_eq_length_filter (hsc : bf.SpareClear) (hsmall : bf.length.toNat + 7 < 2 ^ 32) :
    bf.count = ((List.range bf.length.toNat).filter (bitOf bf.bytes.toList)).length := by
  rw [count_eq_sum, sum_popCount, show bf.bytes.toList.length = bf.bytes.size from Array.length_toList]
  obtain ⟨m, hm⟩ := Nat.exists_eq_add_of_le (length_le_bytes hsmall)
  have hspare : ((List.range m).map (bf.length.toNat + ·)).filter (bitOf bf.bytes.toList) = [] := by
    rw [List.filter_eq_nil_iff]
    intro a ha
    obtain ⟨x, -, rfl⟩ := List.mem_map.1 ha
    simp [hsc _ (Nat.le_add_right _ x)]
  rw [hm, List.range_add, List.filter_append, List.length_append, hspare, List.length_nil,
    Nat.add_zero]

theorem getD_eq_bitOf (hi : i < bf.length) : bf.getD i = bitOf bf.bytes.toList i.toNat := by
  have hdiv : (i / 8).toNat = i.toNat / 8 := by simp [UInt32.toNat_div]
  simp only [getD, get?, if_pos hi, bitOf, Array.getElem?_toList, hdiv, mask_eq]
  cases bf.bytes[i.toNat / 8]? with
  | none => rfl
  | some v => simp [UInt32.toNat_mod]

/-- With the spare bits clear, a bitfield is full exactly when every bit is set. -/
theorem all_eq_true_iff (hsc : bf.SpareClear) (hsmall : bf.length.toNat + 7 < 2 ^ 32) :
    bf.all = true ↔ ∀ i : UInt32, i < bf.length → bf.getD i = true := by
  rw [all, beq_iff_eq, count_eq_length_filter hsc hsmall]
  conv => lhs; rhs; rw [← List.length_range (n := bf.length.toNat)]
  rw [List.length_filter_eq_length_iff]
  constructor
  · intro h i hi
    rw [getD_eq_bitOf hi]
    exact h _ (List.mem_range.2 (UInt32.lt_iff_toNat_lt.1 hi))
  · intro h j hj
    have hj' := List.mem_range.1 hj
    -- a position below the length is the position of a bit index
    have hj32 : j.toUInt32.toNat = j := by
      rw [Nat.toUInt32_eq, UInt32.toNat_ofNat_of_lt' (Nat.lt_trans hj' bf.length.toNat_lt_size)]
    have hlt : j.toUInt32 < bf.length := by
      rw [UInt32.lt_iff_toNat_lt, hj32]
      exact hj'
    have := h _ hlt
    rwa [getD_eq_bitOf hlt, hj32] at this

theorem spareClear_new (n : UInt32) : (new n).SpareClear := by
  intro j _
  simp only [new, bitOf, Array.toList_replicate, List.getElem?_replicate]
  by_cases h : j / 8 < byteCount n <;> simp [h]

/-- Setting bit `i` sets its position and leaves every other position as it was. -/
theorem bitOf_set (h : bf.set i = .ok b) (j : Nat) :
    bitOf b.bytes.toList j = (bitOf bf.bytes.toList j || j == i.toNat) := by
  obtain ⟨rfl, -, hsize⟩ := set_eq_ok h
  have hdiv : (i / 8).toNat = i.toNat / 8 := by simp [UInt32.toNat_div]
  have hmask : mask i = byteMask ⟨i.toNat % 8, Nat.mod_lt _ (by decide)⟩ := by
    rw [mask_eq]; congr 2
  simp only [modifyByte, bitOf, Array.toList_modify, List.getElem?_modify, hdiv]
  cases hv : bf.bytes.toList[j / 8]? with
  | none =>
    -- the byte of bit `i` is stored, so `j` is not `i`
    have hne : j ≠ i.toNat := by
      rintro rfl
      rw [Array.getElem?_toList, ← hdiv, Array.getElem?_eq_getElem hsize] at hv
      cases hv
    simp [hne]
  | some v =>
    by_cases hbyte : i.toNat / 8 = j / 8
    · by_cases hji : j = i.toNat
      · -- the bit set reads as set
        subst hji
        simp [hmask, or_and_self, byteMask_ne_zero]
      · -- another bit of the same byte keeps its value
        have hmod : i.toNat % 8 ≠ j % 8 := fun h => hji (by omega)
        have hdis := byteMask_and (a := ⟨i.toNat % 8, Nat.mod_lt _ (by decide)⟩)
          (b := ⟨j % 8, Nat.mod_lt _ (by decide)⟩) (fun h => hmod (Fin.mk.inj h))
        simp [hbyte, hmask, or_and_of_and_eq_zero hdis, hji]
    · have hne : j ≠ i.toNat := fun h => hbyte (h ▸ rfl)
      simp [hbyte, hne]

theorem SpareClear.set (hsc : bf.SpareClear) (h : bf.set i = .ok b) : b.SpareClear := by
  intro k hk
  have hlen : b.length = bf.length := length_set h
  have hlt := UInt32.lt_iff_toNat_lt.1 (set_eq_ok h).2.1
  have hne : k ≠ i.toNat := by rw [hlen] at hk; omega
  rw [bitOf_set h, hsc k (hlen ▸ hk)]
  simp [hne]

theorem length_insert (bf : Bitfield) (i : UInt32) : (bf.insert i).length = bf.length := by
  unfold Bitfield.insert
  split
  · exact length_set ‹_›
  · rfl

theorem SpareClear.insert (hsc : bf.SpareClear) (i : UInt32) : (bf.insert i).SpareClear := by
  unfold Bitfield.insert
  split
  · exact hsc.set ‹_›
  · exact hsc

/-- A bit of a bitfield whose bytes do not wrap can be set. -/
theorem set_ok_of_lt (hi : i < bf.length) (hsmall : bf.length.toNat + 7 < 2 ^ 32) :
    bf.set i = .ok (bf.modifyByte i (· ||| mask i)) := by
  have hbytes := length_le_bytes hsmall
  have hi' := UInt32.lt_iff_toNat_lt.1 hi
  have hsize : i.toNat / 8 < bf.bytes.size := by omega
  simp [Bitfield.set, checkIndex, hi, hsize, bind, Except.bind, pure, Except.pure]

/-- A bit of a bitfield whose bytes do not wrap can be read. -/
theorem test_ok_of_lt (hi : i < bf.length) (hsmall : bf.length.toNat + 7 < 2 ^ 32) :
    bf.test i = .ok (bf.getD i) := by
  have hbytes := length_le_bytes hsmall
  have hi' := UInt32.lt_iff_toNat_lt.1 hi
  have hsize : i.toNat / 8 < bf.bytes.size := by omega
  simp [Bitfield.test, checkIndex, hi, hsize, bind, Except.bind, pure, Except.pure]

theorem getD_insert_self (hi : i < bf.length) (hsmall : bf.length.toNat + 7 < 2 ^ 32) :
    (bf.insert i).getD i = true := by
  have h := set_ok_of_lt hi hsmall
  simp only [Bitfield.insert, h]
  exact getD_set_self h

theorem getD_insert_of_ne (hne : j ≠ i) : (bf.insert i).getD j = bf.getD j := by
  unfold Bitfield.insert
  split
  · exact getD_set_of_ne ‹_› hne
  · rfl

/-- In a full bitfield whose bytes do not wrap and whose spare bits are clear, every bit is
set. -/
theorem getD_of_all (hsc : bf.SpareClear) (hsmall : bf.length.toNat + 7 < 2 ^ 32)
    (hall : bf.all = true) (hi : i < bf.length) : bf.getD i = true :=
  (all_eq_true_iff hsc hsmall).1 hall i hi

end Bitfield

end BitTorrent
