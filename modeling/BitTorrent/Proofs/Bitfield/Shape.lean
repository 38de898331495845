import BitTorrent.Proofs.Bitfield

/-!
# The shape of a bitfield

A bitfield of `n` bits keeps `⌈n / 8⌉` bytes with the spare bits after bit `n - 1` clear
(`Bitfield.Shaped`). Every bitfield a program holds, new, accepted from a peer's bytes, or made
from those by setting, clearing and clearing every bit (`Bitfield.Reachable`), has that shape,
as long as `⌈n / 8⌉` is computed without wrapping, that is `n + 7 < 2 ^ 32`
(`Bitfield.Reachable.shaped`). The byte count is computed in 32-bit arithmetic: for the seven
lengths past that bound it wraps to zero, and a new bitfield has no bytes at all
(`Bitfield.new_wraps_byte_count`).

The shape is what makes the byte-wise operations read bit by bit: the count is the number of set
bits below the length, a bitfield is full or empty exactly as its bits are, `hasMissing` finds a
bit the other has and this one lacks, no bit below the length faults, and the bytes are accepted
back as the same bitfield (`Bitfield.reachable_well_formed`). Acceptance itself checks exactly
the shape (`Bitfield.ofBytes_ok_iff`).

The bit arithmetic of one byte is settled once over its 256 values (`bitOf_single_eq`,
`ne_zero_eq_any_bitOf`, `spareMask_and_eq_all`); runs of bytes then go by induction, one byte at
a time.
-/

namespace BitTorrent

namespace Bitfield

/-! ## Bits of one byte -/

theorem bitOf_single_eq : ∀ (v : Fin 256) (k : Fin 8),
    bitOf [v.toNat.toUInt8] k = v.toNat.toUInt8.toBitVec.getLsbD (7 - k) := by
  decide +kernel

theorem ne_zero_eq_any_bitOf : ∀ v : Fin 256,
    (v.toNat.toUInt8 != 0) = (List.range 8).any (bitOf [v.toNat.toUInt8]) := by
  decide +kernel

theorem spareMask_and_eq_all : ∀ (v : Fin 256) (r : Fin 8),
    (v.toNat.toUInt8 &&& (0xff : UInt8) >>> r.val.toUInt8 == 0) =
      (List.range 8).all fun k => decide (k < r.val) || !bitOf [v.toNat.toUInt8] k := by
  decide +kernel

theorem bitOf_single (v : UInt8) {k : Nat} (hk : k < 8) :
    bitOf [v] k = v.toBitVec.getLsbD (7 - k) := by
  simpa using bitOf_single_eq ⟨v.toNat, v.toNat_lt⟩ ⟨k, hk⟩

theorem ne_zero_iff_bitOf (v : UInt8) : v ≠ 0 ↔ ∃ k < 8, bitOf [v] k = true := by
  have h : (v != 0) = (List.range 8).any (bitOf [v]) := by
    simpa using ne_zero_eq_any_bitOf ⟨v.toNat, v.toNat_lt⟩
  rw [← bne_iff_ne, h, List.any_eq_true]
  simp

theorem bitOf_and_not (t m : UInt8) {k : Nat} (hk : k < 8) :
    bitOf [t &&& ~~~m] k = (bitOf [t] k && !bitOf [m] k) := by
  rw [bitOf_single _ hk, bitOf_single _ hk, bitOf_single _ hk]
  simp [show 7 - k < 8 by omega]

theorem bitOf_nil (j : Nat) : bitOf [] j = false := rfl

theorem bitOf_of_ge {bs : List UInt8} {j : Nat} (h : 8 * bs.length ≤ j) : bitOf bs j = false := by
  simp only [bitOf, List.getElem?_eq_none (show bs.length ≤ j / 8 by omega)]

/-- A position is one of the first byte's eight bits or a position of the rest. -/
theorem exists_pos_split (p : Nat → Prop) : (∃ j, p j) ↔ (∃ k < 8, p k) ∨ ∃ j, p (8 + j) := by
  constructor
  · rintro ⟨j, hj⟩
    by_cases h : j < 8
    · exact .inl ⟨j, h, hj⟩
    · exact .inr ⟨j - 8, by rwa [Nat.add_sub_cancel' (by omega)]⟩
  · rintro (⟨k, -, hk⟩ | ⟨j, hj⟩)
    · exact ⟨k, hk⟩
    · exact ⟨8 + j, hj⟩

/-- Some bit of a run of bytes is set exactly when some byte is not zero. -/
theorem exists_bitOf_iff (bs : List UInt8) : (∃ j, bitOf bs j = true) ↔ ∃ v ∈ bs, v ≠ 0 := by
  induction bs with
  | nil => simp [bitOf_nil]
  | cons v bs ih =>
    rw [exists_pos_split]
    simp only [bitOf_cons_add, ih, List.mem_cons, exists_eq_or_imp, ne_zero_iff_bitOf]
    refine or_congr (exists_congr fun k => and_congr_right fun hk => ?_) Iff.rfl
    rw [bitOf_cons_of_lt v bs hk]

/-- Some byte of `ts` has a bit that the byte of `ms` at its place lacks, exactly when some
position is set in `ts` and clear in `ms`. -/
theorem any_zip_iff : ∀ (ms ts : List UInt8), ms.length = ts.length →
    (((ms.zip ts).any fun (mine, theirs) => theirs &&& ~~~mine != 0) = true ↔
      ∃ j, bitOf ts j = true ∧ bitOf ms j = false)
  | [], [], _ => by simp [bitOf_nil]
  | m :: ms, t :: ts, h => by
    rw [exists_pos_split]
    simp only [List.zip_cons_cons, List.any_cons, Bool.or_eq_true, bitOf_cons_add,
      ← any_zip_iff ms ts (by simpa using h), bne_iff_ne, ne_eq, ne_zero_iff_bitOf]
    refine or_congr ?_ Iff.rfl
    refine exists_congr fun k => and_congr_right fun hk => ?_
    rw [bitOf_and_not t m hk, bitOf_cons_of_lt t ts hk, bitOf_cons_of_lt m ms hk]
    simp

/-! ## The shape of a bitfield -/

/-- The bytes are exactly `⌈length / 8⌉`, and the spare bits after the last one are clear. -/
def Shaped (bf : Bitfield) : Prop :=
  bf.bytes.size = (bf.length.toNat + 7) / 8 ∧ bf.SpareClear

theorem byteCount_eq {n : UInt32} (h : n.toNat + 7 < 2 ^ 32) : byteCount n = (n.toNat + 7) / 8 := by
  rw [byteCount, UInt32.toNat_div, UInt32.toNat_add]
  simp only [UInt32.reduceToNat]
  rw [Nat.mod_eq_of_lt h]

/-- The byte count agrees with `⌈length / 8⌉` only when it does not wrap. -/
theorem small_of_size {bf : Bitfield} (h : bf.bytes.size = (bf.length.toNat + 7) / 8) :
    bf.length.toNat + 7 < 2 ^ 32 := by
  have hsize := bf.size_eq
  rw [byteCount, UInt32.toNat_div, UInt32.toNat_add] at hsize
  simp only [UInt32.reduceToNat] at hsize
  have hlt := bf.length.toNat_lt
  by_contra hge
  rw [Nat.mod_eq_sub_mod (by omega), Nat.mod_eq_of_lt (by simp at hlt ⊢; omega)] at hsize
  omega

theorem Shaped.small {bf : Bitfield} (h : bf.Shaped) : bf.length.toNat + 7 < 2 ^ 32 :=
  small_of_size h.1

theorem shaped_new {n : UInt32} (h : n.toNat + 7 < 2 ^ 32) : (new n).Shaped :=
  ⟨by rw [size_new, byteCount_eq h]; rfl, spareClear_new n⟩

theorem size_modifyByte (bf : Bitfield) (i : UInt32) (f : UInt8 → UInt8) :
    (bf.modifyByte i f).bytes.size = bf.bytes.size := by
  simp [modifyByte]

theorem clear_eq_ok {bf b : Bitfield} {i : UInt32} (h : bf.clear i = .ok b) :
    b = bf.modifyByte i (· &&& ~~~(mask i)) ∧ i < bf.length := by
  unfold clear checkIndex at h
  split at h
  · rename_i hlt
    split at h
    · simp only [bind, Except.bind, pure, Except.pure, Except.ok.injEq] at h
      exact ⟨h.symm, hlt⟩
    · simp [bind, Except.bind] at h
  · simp [bind, Except.bind] at h

theorem and_not_and_of_and_eq_zero {v n : UInt8} (m : UInt8) (h : v &&& n = 0) :
    (v &&& ~~~m) &&& n = 0 := by
  apply UInt8.toBitVec_inj.1
  have h' := congrArg UInt8.toBitVec h
  simp only [UInt8.toBitVec_and, UInt8.toBitVec_zero] at h' ⊢
  rw [BitVec.and_assoc, BitVec.and_comm (~~~m).toBitVec, ← BitVec.and_assoc, h', BitVec.zero_and]

/-- Clearing a bit sets no position that was clear. -/
theorem bitOf_clear_of_false {bf b : Bitfield} {i : UInt32} (h : bf.clear i = .ok b) {j : Nat}
    (hj : bitOf bf.bytes.toList j = false) : bitOf b.bytes.toList j = false := by
  obtain ⟨rfl, -⟩ := clear_eq_ok h
  simp only [modifyByte, bitOf, Array.toList_modify, List.getElem?_modify] at hj ⊢
  cases hv : bf.bytes.toList[j / 8]? with
  | none => simp
  | some v =>
    simp only [hv, bne_eq_false_iff_eq] at hj
    simp only [Option.map_eq_map, Option.map_some, bne_eq_false_iff_eq]
    split
    · exact and_not_and_of_and_eq_zero _ hj
    · exact hj

theorem length_clear {bf b : Bitfield} {i : UInt32} (h : bf.clear i = .ok b) :
    b.length = bf.length := by
  rw [(clear_eq_ok h).1]
  rfl

theorem Shaped.set {bf b : Bitfield} {i : UInt32} (hs : bf.Shaped) (h : bf.set i = .ok b) :
    b.Shaped := by
  refine ⟨?_, hs.2.set h⟩
  rw [length_set h, (set_eq_ok h).1, size_modifyByte]
  exact hs.1

theorem Shaped.clear {bf b : Bitfield} {i : UInt32} (hs : bf.Shaped) (h : bf.clear i = .ok b) :
    b.Shaped := by
  refine ⟨?_, fun j hj => bitOf_clear_of_false h (hs.2 j (length_clear h ▸ hj))⟩
  rw [length_clear h, (clear_eq_ok h).1, size_modifyByte]
  exact hs.1

theorem bitOf_replicate_zero (m j : Nat) : bitOf (List.replicate m 0) j = false := by
  simp only [bitOf, List.getElem?_replicate]
  by_cases h : j / 8 < m <;> simp [h]

theorem Shaped.clearAll {bf : Bitfield} (hs : bf.Shaped) : bf.clearAll.Shaped := by
  refine ⟨by simpa [Bitfield.clearAll] using hs.1, fun j _ => ?_⟩
  simp only [Bitfield.clearAll, Array.toList_replicate, bitOf_replicate_zero]

/-- Reading bit `j` through its byte. -/
theorem bitOf_of_getElem? {bs : List UInt8} {j : Nat} {v : UInt8} (h : bs[j / 8]? = some v) :
    bitOf bs j = bitOf [v] (j % 8) := by
  simp [bitOf, h, Nat.div_eq_of_lt (Nat.mod_lt j (by decide : 0 < 8))]

/-- The spare bits of a byte string of `⌈n / 8⌉` bytes, when `n` is not a multiple of eight, are
the low bits of its last byte, and the spare mask tests exactly those. -/
theorem spareMask_and_eq_zero_iff {b : Array UInt8} {n : UInt32} {last : UInt8}
    (hsize : b.size = (n.toNat + 7) / 8) (hr : n.toNat % 8 ≠ 0) (hlast : b.back? = some last) :
    last &&& spareMask n = 0 ↔ ∀ j, n.toNat ≤ j → bitOf b.toList j = false := by
  have hsm : spareMask n = (0xff : UInt8) >>> (n.toNat % 8).toUInt8 := by
    unfold spareMask
    congr 1
  have hmask : (last &&& spareMask n == 0) =
      (List.range 8).all fun k => decide (k < n.toNat % 8) || !bitOf [last] k := by
    simpa [hsm] using spareMask_and_eq_all ⟨last.toNat, last.toNat_lt⟩ ⟨n.toNat % 8, Nat.mod_lt _ (by decide)⟩
  -- the last byte is byte `n / 8`, which holds bits `8 * (n / 8)` to `8 * (n / 8) + 7`
  have hget : b.toList[n.toNat / 8]? = some last := by
    rw [Array.back?_eq_getElem?, hsize, show (n.toNat + 7) / 8 - 1 = n.toNat / 8 by omega] at hlast
    rwa [Array.getElem?_toList]
  have hlen : b.toList.length = n.toNat / 8 + 1 := by
    rw [Array.length_toList, hsize]
    omega
  rw [← beq_iff_eq, hmask, List.all_eq_true]
  constructor
  · intro hall j hj
    by_cases hjb : j < 8 * (n.toNat / 8 + 1)
    · have hk := hall (j % 8) (List.mem_range.2 (Nat.mod_lt _ (by decide)))
      rw [bitOf_of_getElem? (show b.toList[j / 8]? = some last by rwa [show j / 8 = n.toNat / 8 by omega])]
      simpa [show ¬ j % 8 < n.toNat % 8 by omega] using hk
    · exact bitOf_of_ge (by omega)
  · intro h k hk
    have hk8 := List.mem_range.1 hk
    by_cases hkr : k < n.toNat % 8
    · simp [hkr]
    · have hbit := h (8 * (n.toNat / 8) + k) (by omega)
      rw [bitOf_of_getElem? (show b.toList[(8 * (n.toNat / 8) + k) / 8]? = some last by
        rwa [show (8 * (n.toNat / 8) + k) / 8 = n.toNat / 8 by omega]),
        show (8 * (n.toNat / 8) + k) % 8 = k by omega] at hbit
      simp [hbit]

theorem ofBytes_eq_ok {b : Array UInt8} {n : UInt32} {bf : Bitfield} (h : ofBytes b n = .ok bf) :
    bf.length = n ∧ bf.bytes = b := by
  unfold ofBytes at h
  split at h
  · split at h
    · split at h
      · cases h
      · split at h
        · cases h
        · cases h
          exact ⟨rfl, rfl⟩
    · cases h
      exact ⟨rfl, rfl⟩
  · cases h

theorem ofBytes_ok_iff {b : Array UInt8} {n : UInt32} (hn : n.toNat + 7 < 2 ^ 32) :
    (∃ bf, ofBytes b n = .ok bf) ↔
      b.size = (n.toNat + 7) / 8 ∧ ∀ j, n.toNat ≤ j → bitOf b.toList j = false := by
  unfold ofBytes
  split
  · rename_i hsize
    rw [byteCount_eq hn] at hsize
    split
    · rename_i hr
      have hr' : n.toNat % 8 ≠ 0 := by
        simpa [bne_iff_ne, ← UInt32.toNat_inj, UInt32.toNat_mod] using hr
      split
      · rename_i hback
        -- a length that leaves spare bits needs a last byte
        have : b.size = 0 := by simpa using hback
        omega
      · rename_i last hback
        rw [← spareMask_and_eq_zero_iff hsize hr' hback]
        split
        · rename_i hne
          simp only [reduceCtorEq, exists_false, false_iff, not_and]
          exact fun _ => by simpa using hne
        · rename_i hz
          simpa [hsize] using hz
    · rename_i hr
      have hr' : n.toNat % 8 = 0 := by
        simpa [bne_iff_ne, ← UInt32.toNat_inj, UInt32.toNat_mod] using hr
      refine iff_of_true ⟨_, rfl⟩ ⟨hsize, fun j hj => bitOf_of_ge ?_⟩
      rw [Array.length_toList, hsize]
      omega
  · rename_i hsize
    rw [byteCount_eq hn] at hsize
    simp only [reduceCtorEq, exists_false, false_iff, not_and]
    exact fun h => absurd h hsize

theorem shaped_of_ofBytes {b : Array UInt8} {n : UInt32} {bf : Bitfield} (hn : n.toNat + 7 < 2 ^ 32)
    (h : ofBytes b n = .ok bf) : bf.Shaped := by
  obtain ⟨hsize, hspare⟩ := (ofBytes_ok_iff hn).1 ⟨bf, h⟩
  obtain ⟨hlen, rfl⟩ := ofBytes_eq_ok h
  rw [← hlen] at hsize hspare
  exact ⟨hsize, hspare⟩

/-- The bitfields of `n` bits a program holds: a new one, one accepted from bytes, and what
setting, clearing and clearing every bit make of them. A copy holds the same bits. -/
inductive Reachable (n : UInt32) : Bitfield → Prop
  | new : Reachable n (Bitfield.new n)
  | ofBytes {b : Array UInt8} {bf : Bitfield} : Bitfield.ofBytes b n = .ok bf → Reachable n bf
  | set {bf b : Bitfield} {i : UInt32} : Reachable n bf → bf.set i = .ok b → Reachable n b
  | clear {bf b : Bitfield} {i : UInt32} : Reachable n bf → bf.clear i = .ok b → Reachable n b
  | setTo {bf b : Bitfield} {i : UInt32} {v : Bool} :
      Reachable n bf → bf.setTo i v = .ok b → Reachable n b
  | clearAll {bf : Bitfield} : Reachable n bf → Reachable n bf.clearAll

/-- Every bitfield a program holds has its length and its shape, while `⌈n / 8⌉` fits. -/
theorem Reachable.shaped {n : UInt32} {bf : Bitfield} (hn : n.toNat + 7 < 2 ^ 32)
    (h : Reachable n bf) : bf.length = n ∧ bf.Shaped := by
  induction h with
  | new => exact ⟨rfl, shaped_new hn⟩
  | ofBytes h => exact ⟨(ofBytes_eq_ok h).1, shaped_of_ofBytes hn h⟩
  | set _ h ih => exact ⟨(length_set h).trans ih.1, ih.2.set h⟩
  | clear _ h ih => exact ⟨(length_clear h).trans ih.1, ih.2.clear h⟩
  | @setTo bf b i v _ h ih =>
    cases v with
    | true => exact ⟨(length_set h).trans ih.1, ih.2.set h⟩
    | false => exact ⟨(length_clear h).trans ih.1, ih.2.clear h⟩
  | clearAll _ ih => exact ⟨ih.1, ih.2.clearAll⟩

/-! ## What the shape gives -/

/-- A position below a 32-bit length is the position of a bit index. -/
theorem exists_index_iff (len : UInt32) (p : Nat → Prop) (h : ∀ j, p j → j < len.toNat) :
    (∃ j, p j) ↔ ∃ i : UInt32, i < len ∧ p i.toNat := by
  constructor
  · rintro ⟨j, hj⟩
    have hlt := h j hj
    have hj32 : j.toUInt32.toNat = j := by
      rw [Nat.toUInt32_eq, UInt32.toNat_ofNat_of_lt' (Nat.lt_trans hlt len.toNat_lt_size)]
    refine ⟨j.toUInt32, ?_, ?_⟩
    · rw [UInt32.lt_iff_toNat_lt, hj32]
      exact hlt
    · rw [hj32]
      exact hj
  · rintro ⟨i, -, hi⟩
    exact ⟨i.toNat, hi⟩

variable {bf o : Bitfield}

theorem Shaped.count_eq (hs : bf.Shaped) :
    bf.count = ((List.range bf.length.toNat).filter fun i => bf.getD i.toUInt32).length := by
  rw [count_eq_length_filter hs.2 hs.small]
  congr 1
  refine List.filter_congr fun j hj => ?_
  have hj' := List.mem_range.1 hj
  obtain ⟨i, hi, rfl⟩ := (exists_index_iff bf.length (· = j) (fun _ h => h ▸ hj')).1 ⟨j, rfl⟩
  rw [Nat.toUInt32_eq, UInt32.ofNat_toNat, getD_eq_bitOf hi]

theorem Shaped.any_iff (hs : bf.Shaped) : bf.any = true ↔ ∃ i < bf.length, bf.getD i = true := by
  rw [Bitfield.any, ← Array.any_toList, List.any_eq_true]
  simp only [bne_iff_ne, ne_eq]
  rw [← exists_bitOf_iff, exists_index_iff bf.length _ fun j hj => ?_]
  · exact exists_congr fun i => and_congr_right fun hi => by rw [getD_eq_bitOf hi]
  · by_contra hge
    rw [hs.2 j (by omega)] at hj
    cases hj

theorem Shaped.hasMissing_iff (hb : bf.Shaped) (ho : o.Shaped) (hl : o.length = bf.length) :
    ∃ r, bf.hasMissing o = .ok r ∧
      (r = true ↔ ∃ i < bf.length, o.getD i = true ∧ bf.getD i = false) := by
  have h : bf.hasMissing o =
      .ok ((bf.bytes.zip o.bytes).any fun (mine, theirs) => theirs &&& ~~~mine != 0) := by
    simp only [hasMissing, hl, bne_self_eq_false, Bool.false_eq_true, ↓reduceIte]
  refine ⟨_, h, ?_⟩
  rw [← Array.any_toList, Array.toList_zip, any_zip_iff _ _ (by simp [hb.1, ho.1, hl]),
    exists_index_iff bf.length _ fun j hj => ?_]
  · exact exists_congr fun i => and_congr_right fun hi => by
      rw [getD_eq_bitOf hi, getD_eq_bitOf (hl ▸ hi)]
  · by_contra hge
    rw [ho.2 j (by rw [hl]; omega)] at hj
    cases hj.1

theorem clear_ok_of_lt {i : UInt32} (hi : i < bf.length) (hsmall : bf.length.toNat + 7 < 2 ^ 32) :
    bf.clear i = .ok (bf.modifyByte i (· &&& ~~~(mask i))) := by
  have hbytes := length_le_bytes hsmall
  have hi' := UInt32.lt_iff_toNat_lt.1 hi
  have hsize : i.toNat / 8 < bf.bytes.size := by omega
  simp [Bitfield.clear, checkIndex, hi, hsize, bind, Except.bind, pure, Except.pure]

theorem Shaped.ofBytes_self (hs : bf.Shaped) : ofBytes bf.bytes bf.length = .ok bf := by
  obtain ⟨b, hb⟩ := (ofBytes_ok_iff hs.small).2 ⟨hs.1, hs.2⟩
  obtain ⟨hlen, hbytes⟩ := ofBytes_eq_ok hb
  obtain ⟨len, bytes, hsize⟩ := bf
  obtain ⟨len', bytes', hsize'⟩ := b
  simp only at hlen hbytes
  subst hlen hbytes
  exact hb

end Bitfield

end BitTorrent
