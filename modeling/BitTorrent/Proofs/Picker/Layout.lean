import BitTorrent.Picker.Select
import BitTorrent.Picker.Update

/-!
# The slots of a partial piece

The slots of a partial piece stand for the blocks of its piece, in order: slot `k` holds the
block that starts `k` block sizes into the piece. No block offset wraps a 32-bit word, so the
lookup by offset and length (`PartialPiece.slotAt?`) finds exactly these blocks back, and a
request names one slot (`slotAt?_block`, `block_of_slotAt?`).

The bookkeeping of one slot is `Slot.Sound`: its requesters are distinct, it has some exactly
when it is requested, and only a received block names the peer that sent it. A partial piece
is sound when its slots are the blocks of its length, every slot is sound, and some block is out
of the free state. Both rules for taking blocks for a peer (`Picker.takeFree`,
`Picker.takeDuplicate`) keep the blocks and the soundness of the slots, never make a busy piece
idle, and take no more blocks than they are asked for (`TakeRule`).
-/

namespace BitTorrent

/-! ## Blocks of a piece -/

namespace Block

/-- A piece has at most `2 ^ 18` blocks, so block offsets stay below `2 ^ 32`. -/
theorem count_toNat_le (len : UInt32) : (count len).toNat ≤ 262144 := by
  have := len.toNat_lt
  unfold count blockSize
  split <;> simp [UInt32.toNat_add, UInt32.toNat_div] <;> omega

theorem count_pos {len : UInt32} (h : 0 < len) : 0 < (count len).toNat := by
  have := len.toNat_lt
  have hlen : 0 < len.toNat := h
  unfold count blockSize
  split
  · simp [UInt32.toNat_add, UInt32.toNat_div]
    omega
  · rename_i hmod
    simp only [bne_iff_ne, ne_eq, Decidable.not_not] at hmod
    have hmod' : len.toNat % 16384 = 0 := by
      simpa [UInt32.toNat_mod] using congrArg UInt32.toNat hmod
    simp [UInt32.toNat_div]
    omega

theorem length_all (len : UInt32) : (all len).length = (count len).toNat := by
  simp [all]

theorem getElem?_all {len : UInt32} {k : Nat} {b : Block} :
    (all len)[k]? = some b ↔ k < (count len).toNat ∧ nth len k.toUInt32 = b := by
  rw [all, List.getElem?_map]
  by_cases hk : k < (count len).toNat
  · simp [hk]
  · rw [List.getElem?_eq_none (by simpa using hk)]
    simp [hk]

/-- Block `k` starts `k` block sizes into the piece. -/
theorem begin_nth_toNat {len : UInt32} {k : Nat} (hk : k < (count len).toNat) :
    (nth len k.toUInt32).begin.toNat = k * 16384 := by
  have := count_toNat_le len
  simp [nth, blockSize, UInt32.toNat_mul]
  omega

end Block

/-! ## Sound slots -/

namespace Slot

variable {P : Type}

/-- The bookkeeping of one block: its requesters are distinct, it has some exactly when it is
requested, and only a received block names the peer that sent it. -/
structure Sound (s : Slot P) : Prop where
  nodup : s.requested.Nodup
  requested_ne_nil : s.requested ≠ [] ↔ s.state = .requested
  sender_isSome : s.sender.isSome → s.state = .received

namespace Sound

variable {s : Slot P}

theorem requested_eq_nil (h : s.Sound) (hs : s.state ≠ .requested) : s.requested = [] := by
  cases hr : s.requested with
  | nil => rfl
  | cons p ps => exact absurd (h.requested_ne_nil.1 (by simp [hr])) hs

theorem sender_eq_none (h : s.Sound) (hs : s.state ≠ .received) : s.sender = none := by
  cases hsd : s.sender with
  | none => rfl
  | some p => exact absurd (h.sender_isSome (by simp [hsd])) hs

/-- A peer is only ever listed on a requested block. -/
theorem state_of_mem (h : s.Sound) {pe : P} (hp : pe ∈ s.requested) : s.state = .requested :=
  h.requested_ne_nil.1 (List.ne_nil_of_mem hp)

end Sound

/-- A block nobody asked for yet is sound. -/
theorem sound_of_block (b : Block) : ({ block := b } : Slot P).Sound :=
  ⟨List.nodup_nil, by simp, by simp⟩

end Slot

/-! ## Sound partial pieces -/

namespace PartialPiece

variable {P : Type}

theorem idle_eq_false_iff {pp : PartialPiece P} :
    pp.idle = false ↔ ∃ s ∈ pp.slots.toList, s.state ≠ .free := by
  have hcount : pp.count .free = pp.slots.size ↔ ∀ s ∈ pp.slots.toList, s.state = .free := by
    rw [count, ← Array.length_toList, List.countP_eq_length]
    simp
  simp only [idle, beq_eq_false_iff_ne, ne_eq, hcount]
  simp

/-- The slots are the blocks of a piece of the piece's length, every slot is sound, and some
block is out of the free state. -/
structure Sound (pp : PartialPiece P) : Prop where
  blocks : pp.slots.toList.map (·.block) = Block.all pp.length
  slots : ∀ s ∈ pp.slots.toList, s.Sound
  busy : pp.idle = false

theorem block_of_getElem? {pp : PartialPiece P}
    (hb : pp.slots.toList.map (·.block) = Block.all pp.length) {k : Nat} {s : Slot P}
    (hs : pp.slots[k]? = some s) :
    k < (Block.count pp.length).toNat ∧ Block.nth pp.length k.toUInt32 = s.block := by
  rw [← Block.getElem?_all, ← hb, List.getElem?_map, Array.getElem?_toList, hs]
  rfl

/-- The lookup by offset and length finds every slot back. -/
theorem slotAt?_block {pp : PartialPiece P}
    (hb : pp.slots.toList.map (·.block) = Block.all pp.length) {k : Nat} {s : Slot P}
    (hs : pp.slots[k]? = some s) : pp.slotAt? s.block.begin s.block.length = some k := by
  obtain ⟨hk, hblock⟩ := block_of_getElem? hb hs
  have hbegin : s.block.begin.toNat = k * 16384 := hblock ▸ Block.begin_nth_toNat hk
  have hmod : s.block.begin % blockSize = 0 := by
    apply UInt32.toNat_inj.1
    simp [UInt32.toNat_mod, hbegin, blockSize]
  have hdiv : (s.block.begin / blockSize).toNat = k := by
    simp [UInt32.toNat_div, hbegin, blockSize]
  simp [slotAt?, hmod, hdiv, hs]

/-- What the lookup by offset and length finds is a slot with that offset and length. -/
theorem block_of_slotAt? {pp : PartialPiece P}
    (hb : pp.slots.toList.map (·.block) = Block.all pp.length) {b l : UInt32} {k : Nat}
    (h : pp.slotAt? b l = some k) :
    ∃ s, pp.slots[k]? = some s ∧ s.block.begin = b ∧ s.block.length = l := by
  unfold slotAt? at h
  split at h
  · cases h
  · rename_i hmod
    dsimp only at h
    split at h
    · rename_i s hs
      split at h
      · rename_i hl
        cases h
        refine ⟨s, hs, ?_, by simpa using hl⟩
        obtain ⟨hk, hblock⟩ := block_of_getElem? hb hs
        have hbegin := hblock ▸ Block.begin_nth_toNat hk
        simp only [bne_iff_ne, ne_eq, Decidable.not_not] at hmod
        have hmod' : b.toNat % 16384 = 0 := by
          simpa [UInt32.toNat_mod, blockSize] using congrArg UInt32.toNat hmod
        have hdiv : (b / blockSize).toNat = b.toNat / 16384 := by
          simp [UInt32.toNat_div, blockSize]
        apply UInt32.toNat_inj.1
        rw [hbegin, hdiv]
        omega
      · cases h
    · cases h

/-- A fresh piece lays out the blocks of its length, all free and sound. -/
theorem fresh_blocks (index length : UInt32) :
    (fresh index length : PartialPiece P).slots.toList.map (·.block) = Block.all length := by
  simp [fresh, Function.comp_def]

theorem fresh_slots (index length : UInt32) :
    ∀ s ∈ (fresh index length : PartialPiece P).slots.toList, s.Sound ∧ s.state = .free := by
  intro s hs
  simp only [fresh, List.mem_map] at hs
  obtain ⟨b, -, rfl⟩ := hs
  exact ⟨Slot.sound_of_block b, rfl⟩


theorem idle_set_eq_false {pp : PartialPiece P} {i : Nat} {t : Slot P} (hi : i < pp.slots.size)
    (ht : t.state ≠ .free) : ({ pp with slots := pp.slots.set! i t } : PartialPiece P).idle = false :=
  idle_eq_false_iff.2
    ⟨t, by simpa [Array.set!_eq_setIfInBounds, Array.toList_setIfInBounds] using
      List.mem_set (by simpa using hi) t, ht⟩

/-- Putting a sound slot for the same block in place of slot `i` keeps the slots the blocks of
the piece and all sound; the piece is sound when some block stays busy. -/
theorem sound_set {pp : PartialPiece P} (hb : pp.slots.toList.map (·.block) = Block.all pp.length)
    (hslots : ∀ s ∈ pp.slots.toList, s.Sound) {i : Nat} {s t : Slot P}
    (hs : pp.slots[i]? = some s) (hblock : t.block = s.block) (ht : t.Sound)
    (hbusy : ({ pp with slots := pp.slots.set! i t } : PartialPiece P).idle = false) :
    ({ pp with slots := pp.slots.set! i t } : PartialPiece P).Sound := by
  refine ⟨?_, fun u hu => ?_, hbusy⟩
  · rw [← hb]
    simp only [Array.set!_eq_setIfInBounds, Array.toList_setIfInBounds, List.map_set]
    apply List.ext_getElem?
    intro j
    rw [List.getElem?_set]
    split
    · rename_i hij
      subst hij
      have hi : i < pp.slots.size := (Array.getElem?_eq_some_iff.1 hs).1
      have hget : pp.slots[i] = s := by simpa [Array.getElem?_eq_getElem hi] using hs
      simp [hblock, hi, hget]
    · rfl
  · simp only [Array.set!_eq_setIfInBounds, Array.toList_setIfInBounds] at hu
    rcases List.mem_or_eq_of_mem_set hu with hu | rfl
    · exact hslots u hu
    · exact ht

theorem fresh_idle (index length : UInt32) : (fresh index length : PartialPiece P).idle = true := by
  simp [idle, count, fresh]

end PartialPiece

/-! ## Taking blocks for a peer -/

namespace Picker

variable {P : Type}

/-- What a rule for taking blocks of a piece keeps, for a budget of `k` blocks: the blocks, the
soundness of every slot, some block out of the free state, which blocks are received, and at
most `k` requests. -/
structure TakeRule (take : Nat → List (Slot P) → List (Slot P) × List Request) : Prop where
  blocks : ∀ k ss, (take k ss).1.map (·.block) = ss.map (·.block)
  sound : ∀ k ss, (∀ s ∈ ss, s.Sound) → ∀ s ∈ (take k ss).1, s.Sound
  busy : ∀ k ss, (∃ s ∈ ss, s.state ≠ .free) → ∃ s ∈ (take k ss).1, s.state ≠ .free
  received : ∀ k ss,
    (take k ss).1.map (·.state == .received) = ss.map (·.state == .received)
  count : ∀ k ss, (take k ss).2.length ≤ k

/-- A free block taken for `pe` is requested from `pe` alone. -/
theorem sound_take_free {s : Slot P} (h : s.Sound) (hs : s.state = .free) (pe : P) :
    ({ s with state := .requested, requested := s.requested ++ [pe] } : Slot P).Sound := by
  have hnil := h.requested_eq_nil (by simp [hs])
  have hnone := h.sender_eq_none (by simp [hs])
  exact ⟨by simp [hnil], by simp [hnil], by simp [hnone]⟩

/-- A requested block taken again for a peer not yet asked keeps distinct requesters. -/
theorem sound_take_duplicate {s : Slot P} (h : s.Sound) (hs : s.state = .requested) {pe : P}
    (hpe : pe ∉ s.requested) : ({ s with requested := s.requested ++ [pe] } : Slot P).Sound := by
  refine ⟨?_, by simp [hs], fun hsd => h.sender_isSome hsd⟩
  exact List.nodup_append.2 ⟨h.nodup, List.nodup_cons.2 ⟨List.not_mem_nil, List.nodup_nil⟩,
    fun a ha b hb => by rw [List.mem_singleton] at hb; exact hb ▸ fun h => hpe (h ▸ ha)⟩

theorem takeFree_rule (pe : P) (index : UInt32) : TakeRule (takeFree pe index) where
  blocks k ss := by
    fun_induction takeFree pe index k ss <;> simp_all
  sound k ss := by
    fun_induction takeFree pe index k ss with
    | case1 ss => exact fun h => h
    | case2 => simp
    | case3 k s ss hfree ss' rs hcall ih =>
      intro h t ht
      rw [hcall] at ih
      simp only [List.mem_cons] at ht
      rcases ht with rfl | ht
      · exact sound_take_free (h s (by simp)) (by simpa using hfree) pe
      · exact ih (fun t ht => h t (by simp [ht])) t ht
    | case4 k s ss hfree ss' rs hcall ih =>
      intro h t ht
      rw [hcall] at ih
      simp only [List.mem_cons] at ht
      rcases ht with rfl | ht
      · exact h t (by simp)
      · exact ih (fun t ht => h t (by simp [ht])) t ht
  busy k ss := by
    fun_induction takeFree pe index k ss with
    | case1 ss => exact fun h => h
    | case2 => simp
    | case3 => exact fun _ => ⟨_, List.mem_cons_self, by simp⟩
    | case4 k s ss hfree => exact fun _ => ⟨s, List.mem_cons_self, by simpa using hfree⟩
  received k ss := by
    fun_induction takeFree pe index k ss with
    | case1 ss => rfl
    | case2 => rfl
    | case3 k s ss hfree ss' rs hcall ih =>
      -- a free block becomes requested: received before neither nor after
      rw [hcall] at ih
      have hs : s.state = .free := by simpa using hfree
      simp only [List.map_cons, ih, hs]
      rfl
    | case4 k s ss hfree ss' rs hcall ih =>
      rw [hcall] at ih
      simp only [List.map_cons, ih]
  count k ss := by
    fun_induction takeFree pe index k ss <;> simp_all

/-- A fresh piece asked for at least one block gets a block out of the free state. -/
theorem takeFree_busy_of_free {pe : P} {index : UInt32} {k : Nat} (hk : 0 < k) {s : Slot P}
    {ss : List (Slot P)} (hs : s.state = .free) :
    ∃ t ∈ (takeFree pe index k (s :: ss)).1, t.state ≠ .free := by
  obtain ⟨k, rfl⟩ := Nat.exists_eq_add_of_lt hk
  simp [takeFree, hs]

variable [DecidableEq P]

theorem takeDuplicate_states (pe : P) (index : UInt32) (k : Nat) (ss : List (Slot P)) :
    (takeDuplicate pe index k ss).1.map (·.state) = ss.map (·.state) := by
  fun_induction takeDuplicate pe index k ss <;> simp_all

theorem takeDuplicate_rule (pe : P) (index : UInt32) : TakeRule (takeDuplicate pe index) where
  blocks k ss := by
    fun_induction takeDuplicate pe index k ss <;> simp_all
  sound k ss := by
    fun_induction takeDuplicate pe index k ss with
    | case1 ss => exact fun h => h
    | case2 => simp
    | case3 k s ss hdup ss' rs hcall ih =>
      intro h t ht
      rw [hcall] at ih
      simp only [Bool.and_eq_true, beq_iff_eq, Bool.not_eq_true', decide_eq_false_iff_not] at hdup
      simp only [List.mem_cons] at ht
      rcases ht with rfl | ht
      · exact sound_take_duplicate (h s (by simp)) hdup.1 hdup.2
      · exact ih (fun t ht => h t (by simp [ht])) t ht
    | case4 k s ss hdup ss' rs hcall ih =>
      intro h t ht
      rw [hcall] at ih
      simp only [List.mem_cons] at ht
      rcases ht with rfl | ht
      · exact h t (by simp)
      · exact ih (fun t ht => h t (by simp [ht])) t ht
  busy k ss := by
    intro ⟨s, hs, hfree⟩
    have hmem : s.state ∈ (takeDuplicate pe index k ss).1.map (·.state) := by
      rw [takeDuplicate_states]
      exact List.mem_map_of_mem hs
    obtain ⟨t, ht, hst⟩ := List.mem_map.1 hmem
    exact ⟨t, ht, hst ▸ hfree⟩
  received k ss := by
    have h := congrArg (List.map (· == BlockState.received)) (takeDuplicate_states pe index k ss)
    simp only [List.map_map] at h
    exact h
  count k ss := by
    fun_induction takeDuplicate pe index k ss <;> simp_all

end Picker

end BitTorrent
