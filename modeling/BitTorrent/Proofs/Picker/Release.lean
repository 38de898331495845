import BitTorrent.Proofs.Picker.Reachable

/-!
# Releasing a peer

When a peer disconnects, the picker releases it: it cancels, one by one, every request the peer
holds, and then drops the peer's reservations of pieces (`Picker.releasePeer`). Each
cancellation may free a block, and may drop a piece left with free blocks only, so the
partial pieces change under the loop. This module says what the whole loop does in one step.

Withdrawing one peer from one block is `Slot.release`: the peer leaves the requesters, and a
block left with none is free again. Withdrawing it from a piece is `PartialPiece.withdraw`, which
releases every block and drops the piece when nothing of it is left busy; the released picker is
`Picker.released`. In a picker that keeps its invariant:

* `releasePeer_eq`: releasing a peer never faults, answers the number of requests it held, and
  gives `released`. The proof follows the loop block by block (`foldCancel_slots`), then piece by
  piece (`foldCancel_pieces`): a cancellation edits the one list position of its piece
  (`cancelRequest_of_split`), and a piece it drops had no further request of the peer;
* `partial?_released` and `requestsOf_released` read the released picker back by piece and by
  peer;
* `release_returns_claims`: the peer holds nothing afterwards, every other peer holds what it
  held, and each block is as the claim of the peer on it says.
-/

namespace BitTorrent

namespace Slot

variable {P : Type} [DecidableEq P]

/-- Withdraw `pe`'s request of a block: a block left with no requester is free again. -/
def release (pe : P) (s : Slot P) : Slot P :=
  if pe ∈ s.requested then
    let t := { s with requested := s.requested.erase pe }
    if t.requested.isEmpty then { t with state := .free } else t
  else s

theorem release_of_not_mem {pe : P} {s : Slot P} (h : pe ∉ s.requested) : s.release pe = s := by
  simp [release, h]

@[simp] theorem block_release (pe : P) (s : Slot P) : (s.release pe).block = s.block := by
  dsimp only [release]
  split
  · split <;> rfl
  · rfl

@[simp] theorem sender_release (pe : P) (s : Slot P) : (s.release pe).sender = s.sender := by
  dsimp only [release]
  split
  · split <;> rfl
  · rfl

@[simp] theorem requested_release (pe : P) (s : Slot P) :
    (s.release pe).requested = s.requested.erase pe := by
  dsimp only [release]
  split
  · split <;> rfl
  · rename_i h
    exact (List.erase_of_not_mem h).symm

theorem toRequest_release (pe : P) (s : Slot P) (i : UInt32) :
    (s.release pe).toRequest i = s.toRequest i := by
  simp [toRequest]

theorem state_release (pe : P) (s : Slot P) :
    (s.release pe).state = if pe ∈ s.requested ∧ s.requested.erase pe = [] then .free else s.state := by
  unfold release
  by_cases h : pe ∈ s.requested
  · by_cases he : s.requested.erase pe = []
    · simp [h, he]
    · simp [h, he]
  · simp [h]

namespace Sound

variable {s : Slot P}

theorem release (h : s.Sound) (pe : P) : (s.release pe).Sound := by
  refine ⟨by simpa using h.nodup.erase pe, ?_, fun hsd => ?_⟩
  · rw [requested_release, state_release]
    by_cases hpe : pe ∈ s.requested
    · by_cases he : s.requested.erase pe = []
      · simp [hpe, he]
      · simp only [ne_eq, he, not_false_eq_true, hpe, and_false, ↓reduceIte, true_iff]
        exact h.state_of_mem hpe
    · rw [List.erase_of_not_mem hpe]
      simpa [hpe] using h.requested_ne_nil
  · rw [sender_release] at hsd
    have hrec := h.sender_isSome hsd
    rw [state_release]
    split
    · rename_i hc
      exact absurd (h.state_of_mem hc.1) (by simp [hrec])
    · exact hrec

/-- A peer whose request is withdrawn is no requester any more. -/
theorem not_mem_release (h : s.Sound) (pe : P) : pe ∉ (s.release pe).requested := by
  simpa using h.nodup.not_mem_erase

/-- The block of a withdrawn request is free exactly when it was free or requested from the
withdrawing peer alone. -/
theorem release_free_iff (h : s.Sound) (pe : P) :
    (s.release pe).state = .free ↔ s.state = .free ∨ s.requested = [pe] := by
  rw [state_release]
  by_cases hpe : pe ∈ s.requested
  · have hst := h.state_of_mem hpe
    have hone : s.requested.erase pe = [] ↔ s.requested = [pe] := by
      constructor
      · intro he
        obtain ⟨l₁, l₂, -, hsplit, herase⟩ := List.exists_erase_eq hpe
        rw [herase, List.append_eq_nil_iff] at he
        rw [hsplit, he.1, he.2]
        rfl
      · intro he
        simp [he]
    by_cases he : s.requested.erase pe = []
    · simp [hone.1 he]
    · simp [hpe, he, hst, hone.not.1 he]
  · have hne : s.requested ≠ [pe] := fun he => hpe (by simp [he])
    simp [hpe, hne]

end Sound

theorem mem_release_of_ne {pe q : P} (s : Slot P) (hq : q ≠ pe) :
    q ∈ (s.release pe).requested ↔ q ∈ s.requested := by
  simp [List.mem_erase_of_ne hq]

end Slot

namespace PartialPiece

variable {P : Type} [DecidableEq P]

/-- Withdraw `pe`'s requests of a piece, or nothing when no block of it is then busy. -/
def withdraw (pe : P) (pp : PartialPiece P) : Option (PartialPiece P) :=
  let pp' := { pp with slots := pp.slots.map (Slot.release pe) }
  if pp'.idle then none else some pp'

end PartialPiece

namespace Picker

variable {P : Type}

/-- The picker with `pe` withdrawn from every piece and holding no reservation. -/
def released [DecidableEq P] (pk : Picker P) (pe : P) : Picker P :=
  { pk with partials := (pk.partials.filterMap (·.withdraw pe)).map fun pp =>
      if pp.exclusive == some pe then { pp with exclusive := none } else pp }

/-! ## One cancellation edits one list position -/

theorem update_of_split {pk : Picker P} {pre post : List (PartialPiece P)} {pp pp' : PartialPiece P}
    (hpk : pk.partials = pre ++ pp :: post) (hne : ∀ q ∈ pre ++ post, q.index ≠ pp.index)
    (hidx : pp'.index = pp.index) :
    pk.update pp' = { pk with partials := pre ++ pp' :: post } := by
  have keep : ∀ l : List (PartialPiece P), (∀ q ∈ l, q.index ≠ pp.index) →
      l.map (fun q => if q.index == pp.index then pp' else q) = l := by
    intro l hl
    refine (List.map_congr_left fun q hq => ?_).trans (List.map_id l)
    simp [hl q hq]
  simp only [update, hpk, List.map_append, List.map_cons, hidx, beq_self_eq_true, ↓reduceIte]
  rw [keep pre fun q hq => hne q (List.mem_append_left _ hq),
    keep post fun q hq => hne q (List.mem_append_right _ hq)]

theorem removePartial_of_split {pk : Picker P} {pre post : List (PartialPiece P)} {pp : PartialPiece P}
    (hpk : pk.partials = pre ++ pp :: post) (hne : ∀ q ∈ pre ++ post, q.index ≠ pp.index) :
    pk.removePartial pp.index = { pk with partials := pre ++ post } := by
  have keep : ∀ l : List (PartialPiece P), (∀ q ∈ l, q.index ≠ pp.index) →
      l.filter (·.index != pp.index) = l := fun l hl =>
    List.filter_eq_self.2 fun q hq => by simpa using hl q hq
  simp only [removePartial, hpk, List.filter_append, List.filter_cons, bne_self_eq_false,
    Bool.false_eq_true, ↓reduceIte]
  rw [keep pre fun q hq => hne q (List.mem_append_left _ hq),
    keep post fun q hq => hne q (List.mem_append_right _ hq)]

/-- In a picker that keeps its invariant, the piece at a position of the partial pieces is the
only one with its index. -/
theorem Inv.ne_of_split {pk : Picker P} (h : pk.Inv) {pre post : List (PartialPiece P)}
    {pp : PartialPiece P} (hpk : pk.partials = pre ++ pp :: post) :
    ∀ q ∈ pre ++ post, q.index ≠ pp.index := by
  have hasc := h.ascending
  rw [hpk, List.pairwise_append, List.pairwise_cons] at hasc
  intro q hq heq
  rcases List.mem_append.1 hq with hq | hq
  · have := hasc.2.2 q hq pp List.mem_cons_self
    rw [heq, UInt32.lt_iff_toNat_lt] at this
    omega
  · have := hasc.2.1.1 q hq
    rw [heq, UInt32.lt_iff_toNat_lt] at this
    omega

variable [DecidableEq P]

theorem cancelRequest_of_split {pk : Picker P} (h : pk.Inv) {pre post : List (PartialPiece P)}
    {pp : PartialPiece P} (hpk : pk.partials = pre ++ pp :: post) {i : Nat} {s : Slot P}
    (hs : pp.slots[i]? = some s) {pe : P} (hpe : pe ∈ s.requested) :
    pk.cancelRequest pe (s.toRequest pp.index) =
      .ok (true, { pk with partials := pre ++
        (if ({ pp with slots := pp.slots.set! i (s.release pe) } : PartialPiece P).idle then []
          else [{ pp with slots := pp.slots.set! i (s.release pe) }]) ++ post }) := by
  have hmem : pp ∈ pk.partials := by rw [hpk]; simp
  have ht := h.tracks pp hmem
  have hsound := ht.sound.slots s (Array.mem_toList_iff.2 (Array.mem_of_getElem? hs))
  have hst := hsound.state_of_mem hpe
  have hreq : s.toRequest pp.index ∈ pk.requestsOf pe :=
    mem_requestsOf.2 ⟨pp, hmem, s, Array.mem_toList_iff.2 (Array.mem_of_getElem? hs), hpe, rfl⟩
  have hcont : (!(pk.requestsOf pe).contains (s.toRequest pp.index)) = false := by simpa using hreq
  have hp : pk.partial? (s.toRequest pp.index).index = some pp := h.partial?_iff.2 ⟨hmem, rfl⟩
  have hi : pp.slotAt? (s.toRequest pp.index).begin (s.toRequest pp.index).length = some i :=
    PartialPiece.slotAt?_block ht.sound.blocks hs
  have hne := h.ne_of_split hpk
  -- replacing the slot, and dropping the piece when it is left idle, edits one list position
  have hfin : ∀ t : Slot P, (if ({ pp with slots := pp.slots.set! i t } : PartialPiece P).idle then
        (pk.update { pp with slots := pp.slots.set! i t }).removePartial pp.index
      else pk.update { pp with slots := pp.slots.set! i t }) =
      { pk with partials := pre ++
        (if ({ pp with slots := pp.slots.set! i t } : PartialPiece P).idle then []
          else [{ pp with slots := pp.slots.set! i t }]) ++ post } := by
    intro t
    split
    · rw [show pp.index = ({ pp with slots := pp.slots.set! i t } : PartialPiece P).index from rfl,
        removePartial_update, removePartial_of_split hpk hne]
      simp
    · rw [update_of_split hpk hne
        (show ({ pp with slots := pp.slots.set! i t } : PartialPiece P).index = pp.index from rfl)]
      simp
  unfold cancelRequest
  simp only [hcont, hp, hi, hs, Bool.false_eq_true, ↓reduceIte]
  split
  · -- the last requester withdrew: the block is free again
    rename_i hempty
    have hrel : s.release pe = { s with requested := s.requested.erase pe, state := .free } := by
      simp [Slot.release, hpe, hempty]
    simp only [Slot.moveTo, hst, BlockState.Legal, ↓reduceIte, bind, Except.bind, pure, Except.pure]
    rw [hrel, hfin]
  · rename_i hempty
    have hrel : s.release pe = { s with requested := s.requested.erase pe } := by
      simp [Slot.release, hpe, hempty]
    simp only [bind, Except.bind, pure, Except.pure]
    rw [hrel, hfin]

/-! ## The loop of cancellations -/

omit [DecidableEq P] in
/-- A picker is itself with its own partial pieces put back. -/
theorem eq_with_partials {pk : Picker P} {ps : List (PartialPiece P)} (h : pk.partials = ps) :
    pk = { pk with partials := ps } := by
  cases pk
  cases h
  rfl

/-- A step of withdrawing requests one after another. -/
theorem foldCancel_cons {pk pk' : Picker P} {pe : P} {r : Request} {rs : List Request} {b : Bool}
    (hc : pk.cancelRequest pe r = .ok (b, pk')) :
    (r :: rs).foldlM (fun pk r => do return (← pk.cancelRequest pe r).2) pk =
      rs.foldlM (fun pk r => do return (← pk.cancelRequest pe r).2) pk' := by
  rw [List.foldlM_cons, hc]
  rfl

omit [DecidableEq P] in
theorem idle_iff_all_free {pp : PartialPiece P} :
    pp.idle = true ↔ ∀ s ∈ pp.slots.toList, s.state = .free := by
  rw [← Bool.not_eq_false, PartialPiece.idle_eq_false_iff]
  simp

theorem foldCancel_slots {pp : PartialPiece P} (hsound : ∀ s ∈ pp.slots.toList, s.Sound) (pe : P)
    (pre post : List (PartialPiece P)) :
    ∀ (B A : List (Slot P)) (pk : Picker P), pp.slots.toList = A ++ B → pk.Inv →
      pk.partials = pre ++ { pp with slots := (A.map (Slot.release pe) ++ B).toArray } :: post →
      ((B.filter (pe ∈ ·.requested)).map (·.toRequest pp.index)).foldlM
          (fun pk r => do return (← pk.cancelRequest pe r).2) pk =
        .ok { pk with partials := pre ++ (pp.withdraw pe).toList ++ post } := by
  intro B
  induction B with
  | nil =>
    intro A pk hA h hpk
    rw [List.append_nil] at hA
    -- every slot is released, and the piece is still partial, so not idle
    have hslots : (A.map (Slot.release pe) ++ []).toArray = pp.slots.map (Slot.release pe) := by
      apply Array.toList_inj.1
      simp [hA]
    have hmem : ({ pp with slots := pp.slots.map (Slot.release pe) } : PartialPiece P) ∈
        pk.partials := by
      rw [hpk, hslots]
      simp
    have hbusy := (h.tracks _ hmem).sound.busy
    simp only [List.filter_nil, List.map_nil, List.foldlM_nil, PartialPiece.withdraw, hbusy,
      Bool.false_eq_true, ↓reduceIte, Option.toList_some, pure, Except.pure, Except.ok.injEq]
    exact eq_with_partials (by rw [hpk, hslots]; simp)
  | cons s B ih =>
    intro A pk hA h hpk
    by_cases hpe : pe ∈ s.requested
    · -- `pe`'s request of this block is withdrawn
      have hcur : ({ pp with slots := (A.map (Slot.release pe) ++ s :: B).toArray } :
          PartialPiece P).slots[A.length]? = some s := by
        simp
      have hc := cancelRequest_of_split h hpk hcur hpe
      have hinv := h.cancelRequest hc
      have hset : ((A.map (Slot.release pe) ++ s :: B).toArray).set! A.length (s.release pe) =
          ((A ++ [s]).map (Slot.release pe) ++ B).toArray := by
        apply Array.toList_inj.1
        simp [Array.set!_eq_setIfInBounds]
      simp only [hset] at hc hinv
      rw [List.filter_cons_of_pos (by simpa using hpe), List.map_cons, foldCancel_cons hc]
      by_cases hidle : ({ pp with slots := ((A ++ [s]).map (Slot.release pe) ++ B).toArray } :
          PartialPiece P).idle
      · -- the piece is left idle: nothing after this block is requested from `pe`
        have hrest : ∀ b ∈ B, pe ∉ b.requested := by
          intro b hb
          have hfree := idle_iff_all_free.1 hidle b (by simp [hb])
          have hb' := hsound b (by rw [hA]; simp [hb])
          simp [hb'.requested_eq_nil (by simp [hfree])]
        have hnone : B.filter (pe ∈ ·.requested) = [] :=
          List.filter_eq_nil_iff.2 fun b hb => by simpa using hrest b hb
        have hB : B.map (Slot.release pe) = B :=
          (List.map_congr_left fun b hb => Slot.release_of_not_mem (hrest b hb)).trans
            (List.map_id B)
        have hwd : pp.withdraw pe = none := by
          have hslots : pp.slots.map (Slot.release pe) =
              ((A ++ [s]).map (Slot.release pe) ++ B).toArray := by
            apply Array.toList_inj.1
            simp [hA, hB]
          dsimp only [PartialPiece.withdraw]
          rw [hslots, if_pos hidle]
        simp only [hidle, ↓reduceIte, hnone, List.map_nil, List.foldlM_nil, hwd, Option.toList_none,
          List.append_nil]
        rfl
      · simp only [hidle, Bool.false_eq_true, ↓reduceIte] at hinv ⊢
        exact ih (A ++ [s]) _ (by simp [hA]) hinv (by simp)
    · rw [List.filter_cons_of_neg (by simpa using hpe)]
      refine ih (A ++ [s]) pk (by simp [hA]) h ?_
      rw [hpk]
      simp [Slot.release_of_not_mem hpe]

omit [DecidableEq P] in
theorem foldlM_append_of_ok {ε α β : Type} {f : β → α → Except ε β} {l₁ l₂ : List α} {b c : β}
    (h : l₁.foldlM f b = .ok c) : (l₁ ++ l₂).foldlM f b = l₂.foldlM f c := by
  rw [List.foldlM_append, h]
  rfl

theorem foldCancel_pieces (pe : P) :
    ∀ (todo pre : List (PartialPiece P)) (pk : Picker P), pk.Inv → pk.partials = pre ++ todo →
      (todo.flatMap (·.requestsOf pe)).foldlM
          (fun pk r => do return (← pk.cancelRequest pe r).2) pk =
        .ok { pk with partials := pre ++ todo.filterMap (·.withdraw pe) } := by
  intro todo
  induction todo with
  | nil =>
    intro pre pk _ hpk
    simp only [List.flatMap_nil, List.foldlM_nil, List.filterMap_nil, pure, Except.pure,
      Except.ok.injEq]
    exact eq_with_partials hpk
  | cons pp todo ih =>
    intro pre pk h hpk
    have hsound := (h.tracks pp (by rw [hpk]; simp)).sound.slots
    have hpiece : (pp.requestsOf pe).foldlM
        (fun pk r => do return (← pk.cancelRequest pe r).2) pk =
        .ok { pk with partials := pre ++ (pp.withdraw pe).toList ++ todo } :=
      foldCancel_slots hsound pe pre todo pp.slots.toList [] pk (by simp) h (by rw [hpk]; simp)
    have hinv := (keeps_foldCancel h hpiece).1
    rw [List.flatMap_cons, foldlM_append_of_ok hpiece]
    refine (ih (pre ++ (pp.withdraw pe).toList) _ hinv (by simp)).trans ?_
    cases hw : pp.withdraw pe <;> simp [hw]

/-- **Releasing a peer is withdrawing its requests block by block.** In a picker that keeps its
invariant, cancelling every request of `pe` in turn and dropping its reservations gives the
picker `released`, and answers the number of requests `pe` held. -/
theorem releasePeer_eq {pk : Picker P} (h : pk.Inv) (pe : P) :
    pk.releasePeer pe = .ok ((pk.requestsOf pe).length, pk.released pe) := by
  have hfold := foldCancel_pieces pe pk.partials [] pk h rfl
  unfold releasePeer
  simp only [requestsOf] at hfold ⊢
  rw [hfold]
  rfl

/-! ## The released picker -/

omit [DecidableEq P] in
/-- In a list strictly ascending by index, looking up an index after a change of some pieces that
keeps their index, and drops others, is the change of the piece looked up. -/
theorem find?_filterMap_index {ps : List (PartialPiece P)}
    (hs : ps.Pairwise (fun a b => a.index < b.index)) {f : PartialPiece P → Option (PartialPiece P)}
    (hf : ∀ q q', f q = some q' → q'.index = q.index) (i : UInt32) :
    (ps.filterMap f).find? (·.index == i) = (ps.find? (·.index == i)).bind f := by
  induction ps with
  | nil => rfl
  | cons q ps ih =>
    rw [List.pairwise_cons] at hs
    by_cases hq : q.index = i
    · -- no later piece has the index
      have hrest : ps.find? (·.index == i) = none := List.find?_eq_none.2 fun q' hq' => by
        have := hs.1 q' hq'
        rw [hq, UInt32.lt_iff_toNat_lt] at this
        simp only [beq_iff_eq]
        intro heq
        rw [heq] at this
        omega
      cases hfq : f q with
      | none => simp [hfq, hq, ih hs.2, hrest]
      | some q' => simp [hfq, hq, hf q q' hfq]
    · cases hfq : f q with
      | none => simp [hfq, hq, ih hs.2]
      | some q' => simp [hfq, hq, hf q q' hfq, ih hs.2]

theorem withdraw_index {pe : P} {pp pp' : PartialPiece P} (h : pp.withdraw pe = some pp') :
    pp'.index = pp.index ∧ pp'.slots = pp.slots.map (Slot.release pe) ∧
      pp'.exclusive = pp.exclusive := by
  simp only [PartialPiece.withdraw] at h
  split at h
  · cases h
  · cases h
    exact ⟨rfl, rfl, rfl⟩

/-- The piece at an index after a release: the piece before, with `pe`'s requests withdrawn and
its reservation dropped, unless that leaves it idle. -/
theorem partial?_released {pk : Picker P} (h : pk.Inv) (pe : P) (i : UInt32) :
    (pk.released pe).partial? i = ((pk.partial? i).bind (·.withdraw pe)).map fun pp =>
      if pp.exclusive == some pe then { pp with exclusive := none } else pp := by
  simp only [partial?, released, List.find?_map]
  rw [← find?_filterMap_index h.ascending (fun q q' hq => (withdraw_index hq).1) i]
  congr 2
  funext q
  simp only [Function.comp_apply]
  split <;> rfl

/-- The requests of a piece after `pe` withdraws its own: none of `pe`, and the same of every other
peer. A piece dropped for being idle had none of another peer. -/
theorem requestsOf_withdraw {pp : PartialPiece P} (hsound : ∀ s ∈ pp.slots.toList, s.Sound)
    (pe q : P) :
    (pp.withdraw pe).toList.flatMap (·.requestsOf q) = if q = pe then [] else pp.requestsOf q := by
  -- the requests of `q` among the released slots
  have hrel : ((pp.slots.toList.map (Slot.release pe)).filter (q ∈ ·.requested)).map
      (·.toRequest pp.index) = if q = pe then [] else pp.requestsOf q := by
    rw [List.filter_map, List.map_map]
    split
    · rename_i hq
      subst hq
      rw [List.filter_eq_nil_iff.2 fun s hs => by simpa using (hsound s hs).not_mem_release q]
      rfl
    · rename_i hq
      simp only [PartialPiece.requestsOf]
      congr 1
      · funext s
        exact Slot.toRequest_release pe s pp.index
      · congr 1
        funext s
        simp only [Function.comp_apply, Slot.mem_release_of_ne s hq]
  cases hw : pp.withdraw pe with
  | some pp' =>
    obtain ⟨hidx, hslots, -⟩ := withdraw_index hw
    simpa [PartialPiece.requestsOf, hidx, hslots] using hrel
  | none =>
    -- every released slot is free, so nobody else requested a block of the piece
    have hidle : ({ pp with slots := pp.slots.map (Slot.release pe) } : PartialPiece P).idle := by
      simp only [PartialPiece.withdraw] at hw
      split at hw
      · assumption
      · cases hw
    have hnil : ∀ s ∈ pp.slots.toList, (s.release pe).requested = [] := by
      intro s hs
      have hfree := idle_iff_all_free.1 hidle (s.release pe)
        (by simpa using List.mem_map_of_mem (f := Slot.release pe) hs)
      exact ((hsound s hs).release pe).requested_eq_nil (by simp [hfree])
    rw [← hrel, List.filter_eq_nil_iff.2 fun s hs => by
      obtain ⟨s0, hs0, rfl⟩ := List.mem_map.1 hs
      have := hnil s0 hs0
      simp only [Slot.requested_release] at this
      simp [this]]
    rfl

/-- The requests of `q` after `pe` is released: none for `pe`, and the same for every other peer. -/
theorem requestsOf_released {pk : Picker P} (h : pk.Inv) (pe q : P) :
    (pk.released pe).requestsOf q = if q = pe then [] else pk.requestsOf q := by
  have hclear : ∀ pp : PartialPiece P, (if pp.exclusive == some pe then
      { pp with exclusive := none } else pp).requestsOf q = pp.requestsOf q := by
    intro pp
    split <;> rfl
  simp only [requestsOf, released, List.flatMap_map, hclear]
  rw [List.filterMap_eq_flatMap_toList, List.flatMap_assoc]
  rw [List.flatMap_congr fun pp hpp =>
    requestsOf_withdraw (h.tracks pp hpp).sound.slots pe q]
  split <;> simp

/-- A piece keeps being partial after `pe` withdraws when some block of it is then busy. -/
theorem withdraw_of_busy {pe : P} {pp : PartialPiece P} {k : Nat} {s : Slot P}
    (hs : pp.slots[k]? = some s) (hbusy : (s.release pe).state ≠ .free) :
    pp.withdraw pe = some { pp with slots := pp.slots.map (Slot.release pe) } := by
  have hidle : ({ pp with slots := pp.slots.map (Slot.release pe) } : PartialPiece P).idle = false :=
    PartialPiece.idle_eq_false_iff.2 ⟨s.release pe, by
      simpa using List.mem_map_of_mem (f := Slot.release pe)
        (Array.mem_toList_iff.2 (Array.mem_of_getElem? hs)), hbusy⟩
  simp [PartialPiece.withdraw, hidle]

/-- Block `k` of piece `i` after a release: the block of the piece before, with `pe`'s request
withdrawn, when the piece is still partial. -/
theorem slot_released {pk : Picker P} (h : pk.Inv) {pe : P} {i : UInt32} {pp pp' : PartialPiece P}
    (hp : pk.partial? i = some pp) (hp' : (pk.released pe).partial? i = some pp') {k : Nat}
    {s : Slot P} (hs : pp.slots[k]? = some s) : pp'.slots[k]? = some (s.release pe) := by
  rw [partial?_released h, hp, Option.bind_some] at hp'
  obtain ⟨w, hw, rfl⟩ := Option.map_eq_some_iff.1 hp'
  have hslots : (if w.exclusive == some pe then { w with exclusive := none } else w).slots =
      w.slots := by
    split <;> rfl
  rw [hslots, (withdraw_index hw).2.1, Array.getElem?_map, hs]
  rfl

/-- A piece with a busy block after a release is still partial. -/
theorem partial?_released_of_busy {pk : Picker P} (h : pk.Inv) {pe : P} {i : UInt32}
    {pp : PartialPiece P} (hp : pk.partial? i = some pp) {k : Nat} {s : Slot P}
    (hs : pp.slots[k]? = some s) (hbusy : (s.release pe).state ≠ .free) :
    ∃ pp', (pk.released pe).partial? i = some pp' := by
  rw [partial?_released h, hp, Option.bind_some, withdraw_of_busy hs hbusy]
  exact ⟨_, rfl⟩

/-- **A disconnect releases exactly the peer's claims.** In a picker that keeps its invariant,
releasing `pe` never faults and answers the number of distinct requests `pe` held. Afterwards `pe`
holds no request and no reservation, and every other peer holds the same requests as before. A
block requested from `pe` alone is free again, and a piece left with free blocks only is no
longer partial; a block requested from another peer too keeps its other requesters; and a
received block is as it was, whoever sent it. -/
theorem release_returns_claims {pk : Picker P} (h : pk.Inv) (pe : P) :
    ∃ pk', pk.releasePeer pe = .ok ((pk.requestsOf pe).toFinset.card, pk') ∧
      pk'.requestsOf pe = [] ∧
      (∀ q, q ≠ pe → pk'.requestsOf q = pk.requestsOf q) ∧
      (∀ pp ∈ pk'.partials, pp.exclusive ≠ some pe ∧ ∃ s ∈ pp.slots.toList, s.state ≠ .free) ∧
      (∀ (i : UInt32) (pp : PartialPiece P) (k : Nat) (s : Slot P),
        pk.partial? i = some pp → pp.slots[k]? = some s →
        (s.requested = [pe] → ∀ pp', pk'.partial? i = some pp' →
          pp'.slots[k]? = some { s with requested := [], state := .free }) ∧
        ((∃ q ∈ s.requested, q ≠ pe) → ∃ pp', pk'.partial? i = some pp' ∧
          pp'.slots[k]? = some { s with requested := s.requested.erase pe }) ∧
        (s.state = .received → ∃ pp', pk'.partial? i = some pp' ∧ pp'.slots[k]? = some s)) ∧
      ∀ i, pk.partial? i = none → pk'.partial? i = none := by
  have hrel := releasePeer_eq h pe
  refine ⟨pk.released pe, ?_, by simp [requestsOf_released h], fun q hq => ?_,
    fun pp hpp => ?_, fun i pp k s hp hs => ?_, fun i hi => ?_⟩
  · rw [List.toFinset_card_of_nodup (h.nodup_requestsOf pe)]
    exact hrel
  · simp [requestsOf_released h, hq]
  · -- no reservation of `pe` is left, and the invariant keeps every partial piece busy
    refine ⟨?_, PartialPiece.idle_eq_false_iff.1 ((h.releasePeer hrel).tracks pp hpp).sound.busy⟩
    simp only [released, List.mem_map] at hpp
    obtain ⟨q, -, rfl⟩ := hpp
    split
    · simp
    · rename_i hq
      simpa using hq
  have hsound := (h.tracks pp (mem_of_partial? hp).1).sound.slots s
    (Array.mem_toList_iff.2 (Array.mem_of_getElem? hs))
  refine ⟨fun hone pp' hp' => ?_, fun hother => ?_, fun hrec => ?_⟩
  · rw [slot_released h hp hp' hs]
    simp [Slot.release, hone]
  · -- another requester is left, so the block stays requested and its piece partial
    obtain ⟨q, hq, hne⟩ := hother
    have hst := hsound.state_of_mem hq
    have hbusy : (s.release pe).state ≠ .free := by
      rw [ne_eq, hsound.release_free_iff]
      rintro (hfree | hone)
      · rw [hst] at hfree
        cases hfree
      · rw [hone, List.mem_singleton] at hq
        exact hne hq
    obtain ⟨pp', hp'⟩ := partial?_released_of_busy h hp hs hbusy
    refine ⟨pp', hp', ?_⟩
    rw [slot_released h hp hp' hs]
    by_cases hpe : pe ∈ s.requested
    · have hnonempty : (s.requested.erase pe).isEmpty = false := by
        rw [List.isEmpty_eq_false_iff_exists_mem]
        exact ⟨q, (List.mem_erase_of_ne hne).2 hq⟩
      simp [Slot.release, hpe, hnonempty]
    · simp [Slot.release_of_not_mem hpe, List.erase_of_not_mem hpe]
  · -- a received block has no requester and keeps its piece busy
    have hpe : pe ∉ s.requested := by
      rw [hsound.requested_eq_nil (by simp [hrec])]
      exact List.not_mem_nil
    obtain ⟨pp', hp'⟩ := partial?_released_of_busy h hp hs
      (by rw [Slot.release_of_not_mem hpe, hrec]; simp)
    exact ⟨pp', hp', by rw [slot_released h hp hp' hs, Slot.release_of_not_mem hpe]⟩
  · rw [partial?_released h, hi]
    rfl

/-- A peer holding both pieces of a two-piece torrent asks for three blocks and disconnects: the
release answers the number of requests it held, and it holds none afterwards. -/
theorem release_after_select :
    ∃ pk : Picker Nat, pk.Inv ∧ pk.requestsOf 7 ≠ [] ∧ ∃ pk',
      pk.releasePeer 7 = .ok ((pk.requestsOf 7).toFinset.card, pk') ∧ pk'.requestsOf 7 = [] := by
  have hr := Reachable.step Reachable.init
    (Step.select 7 ⟨2, #[0xc0], by decide⟩ 3 false _ (by rfl) :
      Step (new 2 (fun _ => 32768) (Bitfield.new 2) .indexOrder : Picker Nat) _)
  have h := hr.inv (fun _ _ => show (0 : UInt32) < 32768 by decide)
  obtain ⟨pk', hrel, hnone, -⟩ := release_returns_claims h 7
  exact ⟨_, h, by decide, pk', hrel, hnone⟩

end Picker

end BitTorrent
