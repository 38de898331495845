import BitTorrent.Proofs.Picker.Answer
import BitTorrent.Proofs.Picker.Release

/-!
# Granting blocks to a peer

A selection for peer `pe` changes the picker in one way only: it grants `pe` blocks. A block is
granted (`Slot.grant`) when it is free, or requested from other peers only, and becomes
requested, with `pe` added to its requesters. `Grants pe parole pk pk'` says that `pk'` is `pk`
with some blocks granted: every partial piece stays partial with each block as it was or granted
(`PartialPiece.GrantedFrom`), every piece partial only in `pk'` is a piece started for `pe`
(`Picker.started`, reserved for it on parole) with some blocks granted, and nothing else of the
picker changes. The relation is reflexive and transitive, so the rounds of the three tiers of a
selection compose.

What follows from it: a block of `pk'` is a block of `pk` as it was or granted, or a fresh block
of a piece started since (`Grants.slot?`); a piece without free blocks keeps none
(`Grants.exhausted`); and a block requested from other peers only in `pk'` was so in `pk`
(`Grants.slot?_of_requested`).

The block-level lemmas read `takeFree` and `takeDuplicate`: the blocks taken are the first free
ones, or the first requested from other peers only, in block order, and the requests of `pe`
grow by exactly the blocks taken (`perm_takeFree`, `perm_takeDuplicate`,
`requestsOf_update_perm`, `requestsOf_insert_perm`).
-/

namespace BitTorrent

namespace Slot

variable {P : Type}

/-- Block `s` granted to `pe`: requested, from `pe` after the peers it was requested from. -/
def grant (pe : P) (s : Slot P) : Slot P :=
  { s with state := .requested, requested := s.requested ++ [pe] }

/-- Block `t` is block `s`, or `s` granted to `pe` when it was free or requested from other
peers only. -/
def GrantedFrom (pe : P) (s t : Slot P) : Prop :=
  t = s ∨ ((s.state = .free ∨ s.state = .requested) ∧ pe ∉ s.requested ∧ t = s.grant pe)

@[simp] theorem block_grant (pe : P) (s : Slot P) : (s.grant pe).block = s.block := rfl

@[simp] theorem state_grant (pe : P) (s : Slot P) : (s.grant pe).state = .requested := rfl

@[simp] theorem requested_grant (pe : P) (s : Slot P) :
    (s.grant pe).requested = s.requested ++ [pe] := rfl

theorem GrantedFrom.refl (pe : P) (s : Slot P) : GrantedFrom pe s s := .inl rfl

theorem GrantedFrom.block {pe : P} {s t : Slot P} (h : GrantedFrom pe s t) : t.block = s.block := by
  rcases h with rfl | ⟨-, -, rfl⟩ <;> rfl

/-- A block granted to `pe` is not granted again: granting is done once. -/
theorem GrantedFrom.trans {pe : P} {s t u : Slot P} (h₁ : GrantedFrom pe s t)
    (h₂ : GrantedFrom pe t u) : GrantedFrom pe s u := by
  rcases h₁ with rfl | ⟨hst, hpe, rfl⟩
  · exact h₂
  · rcases h₂ with rfl | ⟨-, hpe', -⟩
    · exact .inr ⟨hst, hpe, rfl⟩
    · exact absurd (by simp) hpe'

theorem GrantedFrom.eq_of_not_mem {pe : P} {s t : Slot P} (h : GrantedFrom pe s t)
    (ht : pe ∉ t.requested) : t = s := by
  rcases h with rfl | ⟨-, -, rfl⟩
  · rfl
  · exact absurd (by simp) ht

theorem GrantedFrom.eq_of_free {pe : P} {s t : Slot P} (h : GrantedFrom pe s t)
    (ht : t.state = .free) : t = s := by
  rcases h with rfl | ⟨-, -, rfl⟩
  · rfl
  · cases ht

end Slot

theorem List.Forall₂.exists_of_mem_right {α β : Type} {R : α → β → Prop} {l₁ : List α} {l₂ : List β}
    (h : List.Forall₂ R l₁ l₂) {b : β} (hb : b ∈ l₂) : ∃ a ∈ l₁, R a b := by
  induction h with
  | nil => cases hb
  | cons hab _ ih =>
    rcases List.mem_cons.1 hb with rfl | hb
    · exact ⟨_, List.mem_cons_self, hab⟩
    · obtain ⟨a, ha, hr⟩ := ih hb
      exact ⟨a, List.mem_cons_of_mem _ ha, hr⟩

theorem List.Forall₂.getElem?_right {α β : Type} {R : α → β → Prop} {l₁ : List α} {l₂ : List β}
    (h : List.Forall₂ R l₁ l₂) {k : Nat} {b : β} (hb : l₂[k]? = some b) :
    ∃ a, l₁[k]? = some a ∧ R a b := by
  induction h generalizing k with
  | nil => cases hb
  | cons hab _ ih =>
    cases k with
    | zero =>
      cases hb
      exact ⟨_, rfl, hab⟩
    | succ k => exact ih hb

theorem List.Forall₂.trans_of {α : Type} {R : α → α → Prop} (htrans : ∀ a b c, R a b → R b c → R a c) :
    ∀ {l₁ l₂ l₃ : List α}, List.Forall₂ R l₁ l₂ → List.Forall₂ R l₂ l₃ → List.Forall₂ R l₁ l₃
  | [], [], [], .nil, .nil => .nil
  | _ :: _, _ :: _, _ :: _, .cons h₁ t₁, .cons h₂ t₂ =>
    .cons (htrans _ _ _ h₁ h₂) (List.Forall₂.trans_of htrans t₁ t₂)

namespace Picker

variable {P : Type}

/-! ## Taking blocks of one piece -/

/-- The free blocks taken are the first `k` free blocks, in block order. -/
theorem takeFree_snd (pe : P) (index : UInt32) (k : Nat) (ss : List (Slot P)) :
    (takeFree pe index k ss).2 =
      ((ss.filter (·.state == .free)).take k).map (·.toRequest index) := by
  fun_induction takeFree pe index k ss <;> simp_all

section

variable [DecidableEq P]

/-- The blocks taken as duplicates are the first `k` blocks requested from other peers only. -/
theorem takeDuplicate_snd (pe : P) (index : UInt32) (k : Nat) (ss : List (Slot P)) :
    (takeDuplicate pe index k ss).2 =
      ((ss.filter fun s => s.state == .requested && !(pe ∈ s.requested)).take k).map
        (·.toRequest index) := by
  fun_induction takeDuplicate pe index k ss <;> simp_all

end

theorem forall₂_takeFree (pe : P) (index : UInt32) (k : Nat) (ss : List (Slot P))
    (hss : ∀ s ∈ ss, s.state = .free → pe ∉ s.requested) :
    List.Forall₂ (Slot.GrantedFrom pe) ss (takeFree pe index k ss).1 := by
  fun_induction takeFree pe index k ss with
  | case1 ss => exact List.forall₂_same.2 fun s _ => Slot.GrantedFrom.refl pe s
  | case2 => exact .nil
  | case3 k s ss hfree ss' rs hcall ih =>
    rw [hcall] at ih
    have hs : s.state = .free := by simpa using hfree
    exact .cons (.inr ⟨.inl hs, hss s List.mem_cons_self hs, rfl⟩)
      (ih fun t ht => hss t (List.mem_cons_of_mem s ht))
  | case4 k s ss hfree ss' rs hcall ih =>
    rw [hcall] at ih
    exact .cons (Slot.GrantedFrom.refl pe s) (ih fun t ht => hss t (List.mem_cons_of_mem s ht))

/-- Fewer free blocks taken than asked for leave none free. -/
theorem takeFree_exhausts (pe : P) (index : UInt32) (k : Nat) (ss : List (Slot P))
    (hk : (takeFree pe index k ss).2.length < k) :
    ∀ t ∈ (takeFree pe index k ss).1, t.state ≠ .free := by
  fun_induction takeFree pe index k ss with
  | case1 ss => simp at hk
  | case2 => simp
  | case3 k s ss hfree ss' rs hcall ih =>
    rw [hcall] at ih
    simp only [List.length_cons] at hk
    intro t ht
    rcases List.mem_cons.1 ht with rfl | ht
    · simp
    · exact ih (by dsimp only; omega) t ht
  | case4 k s ss hfree ss' rs hcall ih =>
    rw [hcall] at ih
    intro t ht
    rcases List.mem_cons.1 ht with rfl | ht
    · simpa using hfree
    · exact ih hk t ht

variable [DecidableEq P]

theorem forall₂_takeDuplicate (pe : P) (index : UInt32) (k : Nat) (ss : List (Slot P)) :
    List.Forall₂ (Slot.GrantedFrom pe) ss (takeDuplicate pe index k ss).1 := by
  fun_induction takeDuplicate pe index k ss with
  | case1 ss => exact List.forall₂_same.2 fun s _ => Slot.GrantedFrom.refl pe s
  | case2 => exact .nil
  | case3 k s ss hdup ss' rs hcall ih =>
    rw [hcall] at ih
    simp only [Bool.and_eq_true, beq_iff_eq, Bool.not_eq_true', decide_eq_false_iff_not] at hdup
    -- a requested block keeps its state when granted again
    have hgrant : ({ s with requested := s.requested ++ [pe] } : Slot P) = s.grant pe := by
      cases s
      simp_all [Slot.grant]
    exact .cons (.inr ⟨.inr hdup.1, hdup.2, hgrant⟩) ih
  | case4 k s ss hdup ss' rs hcall ih =>
    rw [hcall] at ih
    exact .cons (Slot.GrantedFrom.refl pe s) ih

/-- The requests of `pe` among the blocks after taking free ones: those before, then the ones
taken. -/
theorem perm_takeFree (pe : P) (index : UInt32) (k : Nat) (ss : List (Slot P))
    (hss : ∀ s ∈ ss, s.state = .free → pe ∉ s.requested) :
    (((takeFree pe index k ss).1.filter (pe ∈ ·.requested)).map (·.toRequest index)).Perm
      ((ss.filter (pe ∈ ·.requested)).map (·.toRequest index) ++ (takeFree pe index k ss).2) := by
  fun_induction takeFree pe index k ss with
  | case1 ss => simp
  | case2 => simp
  | case3 k s ss hfree ss' rs hcall ih =>
    rw [hcall] at ih
    have hs : s.state = .free := by simpa using hfree
    have hpe := hss s List.mem_cons_self hs
    have ih := ih fun t ht => hss t (List.mem_cons_of_mem s ht)
    simp only [List.filter_cons, List.mem_append, List.mem_singleton, or_true, decide_true,
      ↓reduceIte, List.map_cons, hpe, decide_false, Bool.false_eq_true]
    exact (ih.cons _).trans List.perm_middle.symm
  | case4 k s ss hfree ss' rs hcall ih =>
    rw [hcall] at ih
    have ih := ih fun t ht => hss t (List.mem_cons_of_mem s ht)
    simp only [List.filter_cons]
    split
    · exact ih.cons _
    · exact ih

theorem perm_takeDuplicate (pe : P) (index : UInt32) (k : Nat) (ss : List (Slot P)) :
    (((takeDuplicate pe index k ss).1.filter (pe ∈ ·.requested)).map (·.toRequest index)).Perm
      ((ss.filter (pe ∈ ·.requested)).map (·.toRequest index) ++ (takeDuplicate pe index k ss).2) := by
  fun_induction takeDuplicate pe index k ss with
  | case1 ss => simp
  | case2 => simp
  | case3 k s ss hdup ss' rs hcall ih =>
    rw [hcall] at ih
    simp only [Bool.and_eq_true, beq_iff_eq, Bool.not_eq_true', decide_eq_false_iff_not] at hdup
    simp only [List.filter_cons, List.mem_append, List.mem_singleton, or_true, decide_true,
      ↓reduceIte, List.map_cons, hdup.2, decide_false, Bool.false_eq_true]
    exact (ih.cons _).trans List.perm_middle.symm
  | case4 k s ss hdup ss' rs hcall ih =>
    rw [hcall] at ih
    simp only [List.filter_cons]
    split
    · exact ih.cons _
    · exact ih

end Picker

namespace PartialPiece

variable {P : Type}

/-- Piece `pp'` is piece `pp` with some blocks granted to `pe`. -/
def GrantedFrom (pe : P) (pp pp' : PartialPiece P) : Prop :=
  pp'.index = pp.index ∧ pp'.length = pp.length ∧ pp'.exclusive = pp.exclusive ∧
    List.Forall₂ (Slot.GrantedFrom pe) pp.slots.toList pp'.slots.toList

theorem GrantedFrom.refl (pe : P) (pp : PartialPiece P) : pp.GrantedFrom pe pp :=
  ⟨rfl, rfl, rfl, List.forall₂_same.2 fun s _ => Slot.GrantedFrom.refl pe s⟩

theorem GrantedFrom.trans {pe : P} {pp₁ pp₂ pp₃ : PartialPiece P} (h₁ : pp₁.GrantedFrom pe pp₂)
    (h₂ : pp₂.GrantedFrom pe pp₃) : pp₁.GrantedFrom pe pp₃ :=
  ⟨h₂.1.trans h₁.1, h₂.2.1.trans h₁.2.1, h₂.2.2.1.trans h₁.2.2.1,
    List.Forall₂.trans_of (fun _ _ _ => Slot.GrantedFrom.trans) h₁.2.2.2 h₂.2.2.2⟩

/-- Granting blocks of a piece keeps which block each slot holds. -/
theorem GrantedFrom.blocks {pe : P} {pp pp' : PartialPiece P} (h : pp.GrantedFrom pe pp') :
    pp'.slots.toList.map (·.block) = pp.slots.toList.map (·.block) := by
  have key : ∀ {l₁ l₂ : List (Slot P)}, List.Forall₂ (Slot.GrantedFrom pe) l₁ l₂ →
      l₂.map (·.block) = l₁.map (·.block) := by
    intro l₁ l₂ hl
    induction hl with
    | nil => rfl
    | cons hst _ ih => simp [hst.block, ih]
  exact key h.2.2.2

end PartialPiece

namespace Picker

variable {P : Type}

/-- The piece a selection starts at `i` for `pe`: fresh, and reserved for `pe` on parole. -/
def started (pk : Picker P) (pe : P) (parole : Bool) (i : UInt32) : PartialPiece P :=
  let pp := PartialPiece.fresh i (pk.pieceLength i)
  if parole then { pp with exclusive := some pe } else pp

@[simp] theorem index_started (pk : Picker P) (pe : P) (parole : Bool) (i : UInt32) :
    (pk.started pe parole i).index = i := by
  unfold started
  split <;> rfl

theorem slots_started (pk : Picker P) (pe : P) (parole : Bool) (i : UInt32) :
    (pk.started pe parole i).slots =
      (PartialPiece.fresh i (pk.pieceLength i) : PartialPiece P).slots := by
  unfold started
  split <;> rfl

theorem exclusive_started (pk : Picker P) (pe : P) (parole : Bool) (i : UInt32) :
    (pk.started pe parole i).exclusive = if parole then some pe else none := by
  unfold started
  split <;> rfl

/-- The blocks of a piece just started are free and requested from no one. -/
theorem fresh_of_mem_started {pk : Picker P} {pe : P} {parole : Bool} {i : UInt32} {s : Slot P}
    (hs : s ∈ (pk.started pe parole i).slots.toList) : s.state = .free ∧ s.requested = [] := by
  rw [slots_started] at hs
  obtain ⟨hsound, hfree⟩ := PartialPiece.fresh_slots (P := P) i _ s hs
  exact ⟨hfree, hsound.requested_eq_nil (by simp [hfree])⟩

/-- What a selection for `pe` does to the picker: the pieces and the ranking stay, every partial
piece stays partial with some of its blocks granted to `pe`, and a piece partial only afterwards
is one started for `pe` with some of its blocks granted. -/
structure Grants (pe : P) (parole : Bool) (pk pk' : Picker P) : Prop where
  numPieces : pk'.numPieces = pk.numPieces
  pieceLength : pk'.pieceLength = pk.pieceLength
  verified : pk'.verified = pk.verified
  ranker : pk'.ranker = pk.ranker
  availability : pk'.availability = pk.availability
  old : ∀ i pp, pk.partial? i = some pp → ∃ pp', pk'.partial? i = some pp' ∧ pp.GrantedFrom pe pp'
  new : ∀ i pp', pk'.partial? i = some pp' → pk.partial? i = none →
    (pk.started pe parole i).GrantedFrom pe pp'

theorem Grants.refl (pe : P) (parole : Bool) (pk : Picker P) : Grants pe parole pk pk :=
  ⟨rfl, rfl, rfl, rfl, rfl, fun _ pp hp => ⟨pp, hp, PartialPiece.GrantedFrom.refl pe pp⟩,
    fun _ _ hp hnone => by rw [hp] at hnone; cases hnone⟩

theorem Grants.trans {pe : P} {parole : Bool} {pk₁ pk₂ pk₃ : Picker P}
    (h₁ : Grants pe parole pk₁ pk₂) (h₂ : Grants pe parole pk₂ pk₃) : Grants pe parole pk₁ pk₃ := by
  refine ⟨h₂.numPieces.trans h₁.numPieces, h₂.pieceLength.trans h₁.pieceLength,
    h₂.verified.trans h₁.verified, h₂.ranker.trans h₁.ranker,
    h₂.availability.trans h₁.availability, fun i pp hp => ?_, fun i pp₃ hp₃ hnone => ?_⟩
  · obtain ⟨pp₂, hp₂, hg₁⟩ := h₁.old i pp hp
    obtain ⟨pp₃, hp₃, hg₂⟩ := h₂.old i pp₂ hp₂
    exact ⟨pp₃, hp₃, hg₁.trans hg₂⟩
  · cases hp₂ : pk₂.partial? i with
    | some pp₂ =>
      -- started in the first stretch, granted more in the second
      obtain ⟨pp₃', hp₃', hg₂⟩ := h₂.old i pp₂ hp₂
      rw [hp₃] at hp₃'
      cases hp₃'
      exact (h₁.new i pp₂ hp₂ hnone).trans hg₂
    | none =>
      have hg := h₂.new i pp₃ hp₃ hp₂
      have hstart : pk₂.started pe parole i = pk₁.started pe parole i := by
        simp only [started, h₁.pieceLength]
      rwa [hstart] at hg

theorem grants_endGame (pe : P) (parole : Bool) (pk : Picker P) (b : Bool) :
    Grants pe parole pk { pk with endGame := b } :=
  ⟨rfl, rfl, rfl, rfl, rfl, fun _ pp hp => ⟨pp, hp, PartialPiece.GrantedFrom.refl pe pp⟩,
    fun _ _ hp hnone => by rw [show pk.partial? _ = _ from hp] at hnone; cases hnone⟩

theorem grants_update {pe : P} {parole : Bool} {pk : Picker P} {i : UInt32} {pp pp' : PartialPiece P}
    (hp : pk.partial? i = some pp) (hg : pp.GrantedFrom pe pp') :
    Grants pe parole pk (pk.update pp') := by
  have hpi := (mem_of_partial? hp).2
  refine ⟨rfl, rfl, rfl, rfl, rfl, fun j q hq => ?_, fun j q hq hnone => ?_⟩
  · rw [partial?_update, hq, Option.map_some]
    by_cases hj : j = i
    · -- the one piece with index `i` is `pp`
      subst hj
      rw [hp] at hq
      cases hq
      refine ⟨pp', ?_, hg⟩
      rw [if_pos (by simp [hg.1])]
    · have hqi : q.index ≠ pp'.index := by
        rw [(mem_of_partial? hq).2, hg.1, hpi]
        exact hj
      exact ⟨q, by rw [if_neg (by simpa using hqi)], PartialPiece.GrantedFrom.refl pe q⟩
  · rw [partial?_update, hnone] at hq
    cases hq

/-! ## Blocks after granting -/

theorem pairwise_begin_lt_all (len : UInt32) :
    (Block.all len).Pairwise (fun a b => a.begin < b.begin) := by
  unfold Block.all
  rw [List.pairwise_map]
  refine List.pairwise_lt_range.imp_of_mem fun {a b} ha hb hab => ?_
  have ha' := Block.begin_nth_toNat (List.mem_range.1 ha)
  have hb' := Block.begin_nth_toNat (List.mem_range.1 hb)
  rw [UInt32.lt_iff_toNat_lt, ha', hb']
  omega

/-- Requests for some of the blocks of a piece, taken in block order, are in ascending order of
offset. -/
theorem pairwise_begin_take {ss : List (Slot P)} {len : UInt32}
    (hb : ss.map (·.block) = Block.all len) (p : Slot P → Bool) (k : Nat) (i : UInt32) :
    (((ss.filter p).take k).map (·.toRequest i)).Pairwise (fun a b => a.begin < b.begin) := by
  have hall : (ss.map (·.toRequest i)).Pairwise (fun a b => a.begin < b.begin) := by
    have := pairwise_begin_lt_all len
    rw [← hb, List.pairwise_map] at this
    rw [List.pairwise_map]
    exact this
  exact hall.sublist (((List.take_sublist _ _).trans List.filter_sublist).map _)

/-- Pieces laying out the same blocks find the same position for an offset and length. -/
theorem PartialPiece.slotAt?_congr {pp pp' : PartialPiece P}
    (h : pp'.slots.toList.map (·.block) = pp.slots.toList.map (·.block)) (b l : UInt32) :
    pp'.slotAt? b l = pp.slotAt? b l := by
  have hk : ∀ k : Nat, (pp'.slots[k]?).map (fun s : Slot P => s.block) =
      (pp.slots[k]?).map (fun s : Slot P => s.block) := fun k => by
    have := congrArg (fun l : List Block => l[k]?) h
    simpa only [List.getElem?_map, Array.getElem?_toList] using this
  unfold PartialPiece.slotAt?
  split
  · rfl
  · dsimp only
    generalize (b / blockSize).toNat = k
    have hblock := hk k
    cases h₁ : pp'.slots[k]? <;> cases h₂ : pp.slots[k]? <;>
      simp only [h₁, h₂, Option.map_none, Option.map_some, reduceCtorEq, Option.some.injEq]
        at hblock ⊢
    rw [hblock]

/-- A block of a partial piece is found by the request for it. -/
theorem Inv.slot?_toRequest {pk : Picker P} (h : pk.Inv) {i : UInt32} {pp : PartialPiece P}
    (hp : pk.partial? i = some pp) {s : Slot P} (hs : s ∈ pp.slots.toList) :
    pk.slot? (s.toRequest i) = some s := by
  obtain ⟨m, hm⟩ := List.mem_iff_getElem?.1 hs
  refine slot?_eq_some.2 ⟨pp, m, hp, ?_, by simpa using hm⟩
  have := PartialPiece.slotAt?_block (h.tracks pp (mem_of_partial? hp).1).sound.blocks (k := m)
    (by simpa using hm)
  simpa [Slot.toRequest, Block.toRequest] using this

/-- The block a request names after some blocks are granted to `pe`: a block of a piece partial
before, as it was or granted, or a fresh block of a piece started since, as it was or granted. -/
theorem Grants.slot? {pe : P} {parole : Bool} {pk pk' : Picker P} (hg : Grants pe parole pk pk')
    {r : Request} {t : Slot P} (ht : pk'.slot? r = some t) :
    (∃ s, pk.slot? r = some s ∧ Slot.GrantedFrom pe s t) ∨
      (pk.partial? r.index = none ∧
        ∃ s, s.state = .free ∧ s.requested = [] ∧ Slot.GrantedFrom pe s t) := by
  obtain ⟨pp', k, hp', hk', ht'⟩ := slot?_eq_some.1 ht
  cases hp : pk.partial? r.index with
  | some pp =>
    obtain ⟨pp'', hp'', hgp⟩ := hg.old _ pp hp
    rw [hp'] at hp''
    cases hp''
    obtain ⟨s, hs, hst⟩ := List.Forall₂.getElem?_right hgp.2.2.2 (by simpa using ht')
    refine .inl ⟨s, slot?_eq_some.2 ⟨pp, k, hp, ?_, by simpa using hs⟩, hst⟩
    rw [← PartialPiece.slotAt?_congr hgp.blocks]
    exact hk'
  | none =>
    -- a piece started since: its blocks were fresh
    have hgp := hg.new _ pp' hp' hp
    obtain ⟨s, hs, hst⟩ := List.Forall₂.getElem?_right hgp.2.2.2 (by simpa using ht')
    rw [Array.getElem?_toList] at hs
    have hfresh := fresh_of_mem_started (Array.mem_toList_iff.2 (Array.mem_of_getElem? hs))
    exact .inr ⟨rfl, s, hfresh.1, hfresh.2, hst⟩

/-! ## Exhausted pieces -/

/-- Piece `i` is partial and has no free block left. -/
def Exhausted (pk : Picker P) (i : UInt32) : Prop :=
  ∃ pp, pk.partial? i = some pp ∧ ∀ s ∈ pp.slots.toList, s.state ≠ .free

/-- Granting blocks never frees one. -/
theorem Grants.exhausted {pe : P} {parole : Bool} {pk pk' : Picker P} (hg : Grants pe parole pk pk')
    {i : UInt32} (he : pk.Exhausted i) : pk'.Exhausted i := by
  obtain ⟨pp, hp, hfree⟩ := he
  obtain ⟨pp', hp', hgp⟩ := hg.old i pp hp
  refine ⟨pp', hp', fun t ht => ?_⟩
  obtain ⟨s, hs, hst⟩ := List.Forall₂.exists_of_mem_right hgp.2.2.2 ht
  rcases hst with rfl | ⟨-, -, rfl⟩
  · exact hfree t hs
  · simp

/-! ## The requests of a peer after a round -/

theorem insertPartial_perm (pp : PartialPiece P) (ps : List (PartialPiece P)) :
    (insertPartial pp ps).Perm (pp :: ps) := by
  fun_induction insertPartial pp ps with
  | case1 => exact List.Perm.refl _
  | case2 => exact List.Perm.refl _
  | case3 q rest _ ih => exact (ih.cons q).trans (List.Perm.swap pp q rest)

theorem Grants.partial?_none {pe : P} {parole : Bool} {pk pk' : Picker P}
    (hg : Grants pe parole pk pk') {i : UInt32} (hi : pk'.partial? i = none) : pk.partial? i = none := by
  cases hp : pk.partial? i with
  | none => rfl
  | some pp =>
    obtain ⟨pp', hp', -⟩ := hg.old i pp hp
    rw [hi] at hp'
    cases hp'

/-- A block requested from other peers only after granting blocks to `pe` was so before. -/
theorem Grants.slot?_of_requested {pe : P} {parole : Bool} {pk pk' : Picker P}
    (hg : Grants pe parole pk pk') {r : Request} {s : Slot P} (hs : pk'.slot? r = some s)
    (hreq : s.state = .requested) (hpe : pe ∉ s.requested) : pk.slot? r = some s := by
  rcases hg.slot? hs with ⟨s₀, hs₀, hst⟩ | ⟨-, s₀, hfree, -, hst⟩
  · rw [hst.eq_of_not_mem hpe]
    exact hs₀
  · rw [hst.eq_of_not_mem hpe, hfree] at hreq
    cases hreq

variable [DecidableEq P]

/-- Replacing a partial piece by one whose requests of `pe` are its own and `D` adds `D` to the
requests of `pe`. -/
theorem requestsOf_update_perm {pk : Picker P} (h : pk.Inv) {pp pp' : PartialPiece P}
    (hmem : pp ∈ pk.partials) (hidx : pp'.index = pp.index) (pe : P) {D : List Request}
    (hpp : (pp'.requestsOf pe).Perm (pp.requestsOf pe ++ D)) :
    ((pk.update pp').requestsOf pe).Perm (pk.requestsOf pe ++ D) := by
  obtain ⟨pre, post, hsplit⟩ := List.append_of_mem hmem
  rw [update_of_split hsplit (h.ne_of_split hsplit) hidx]
  simp only [requestsOf, hsplit, List.flatMap_append, List.flatMap_cons, List.append_assoc]
  refine List.Perm.append_left _ ((hpp.append_right _).trans ?_)
  rw [List.append_assoc]
  exact List.perm_append_comm.append_left _

/-- Inserting a piece whose requests of `pe` are `D` adds `D` to the requests of `pe`. -/
theorem requestsOf_insert_perm (pk : Picker P) (pp : PartialPiece P) (pe : P) {D : List Request}
    (hpp : (pp.requestsOf pe).Perm D) :
    (({ pk with partials := insertPartial pp pk.partials } : Picker P).requestsOf pe).Perm
      (pk.requestsOf pe ++ D) := by
  -- the inserted piece comes first up to order
  have hins := (insertPartial_perm pp pk.partials).flatMap_right (·.requestsOf pe)
  exact hins.trans ((hpp.append_right _).trans List.perm_append_comm)

end Picker

end BitTorrent
