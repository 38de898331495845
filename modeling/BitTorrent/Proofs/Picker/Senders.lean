import BitTorrent.Proofs.Picker.Received

/-!
# Who sent a piece

A received block remembers the peer that sent it; a block restored from saved state names no
peer. When a piece fails its hash check the picker answers the peers that sent its blocks, and
when it is verified, the peer that sent all of it. This module says what these answers are, in
terms of the blocks alone:

* `PartialPiece.contributors` lists each peer that sent a block once (`contributors_spec`), and
  `PartialPiece.soleSender` names a peer exactly when it sent every block (`soleSender_eq_some`);
* in a picker that keeps its invariant, resetting a piece answers exactly the distinct senders
  of its received blocks (`resetPiece_answers`), and verifying a piece answers a peer exactly when
  that peer sent every block of it (`markVerified_answers`).
-/

namespace BitTorrent

namespace PartialPiece

variable {P : Type}

/-- Peer `pe` sent a block of the piece that is received. -/
def SentBlock (pp : PartialPiece P) (pe : P) : Prop :=
  ∃ s ∈ pp.slots.toList, s.state = .received ∧ s.sender = some pe

/-- Peer `pe` sent every block of the piece: none came from another peer or from saved state. -/
def SentAll (pp : PartialPiece P) (pe : P) : Prop :=
  pp.slots.toList ≠ [] ∧ ∀ s ∈ pp.slots.toList, s.sender = some pe

/-- Collecting senders block by block: a step that adds a block's sender unless it is there
keeps the collection free of duplicates, and collects exactly the senders seen. -/
theorem foldl_collect {f : List P → Slot P → List P}
    (hf : ∀ acc s, acc.Nodup →
      (f acc s).Nodup ∧ ∀ p, p ∈ f acc s ↔ p ∈ acc ∨ s.sender = some p) :
    ∀ (l : List (Slot P)) (acc : List P), acc.Nodup →
      (l.foldl f acc).Nodup ∧ ∀ p, p ∈ l.foldl f acc ↔ p ∈ acc ∨ ∃ s ∈ l, s.sender = some p := by
  intro l
  induction l with
  | nil => intro acc hacc; simpa using hacc
  | cons s l ih =>
    intro acc hacc
    obtain ⟨hnd, hmem⟩ := hf acc s hacc
    obtain ⟨hnd', hmem'⟩ := ih (f acc s) hnd
    refine ⟨hnd', fun p => ?_⟩
    rw [List.foldl_cons, hmem', hmem]
    simp [or_assoc]

/-- In a sound piece only received blocks name a sender, so its senders are the senders of its
received blocks. -/
theorem Sound.sentBlock_iff {pp : PartialPiece P} (h : pp.Sound) {pe : P} :
    (∃ s ∈ pp.slots.toList, s.sender = some pe) ↔ pp.SentBlock pe := by
  constructor
  · rintro ⟨s, hs, hsender⟩
    have hrecv := (h.slots s hs).sender_isSome (by simp [hsender])
    exact ⟨s, hs, hrecv, hsender⟩
  · rintro ⟨s, hs, -, hsender⟩
    exact ⟨s, hs, hsender⟩

variable [DecidableEq P]

/-- The contributors of a piece are its senders, each once. -/
theorem contributors_spec (pp : PartialPiece P) :
    pp.contributors.Nodup ∧ ∀ p, p ∈ pp.contributors ↔ ∃ s ∈ pp.slots.toList, s.sender = some p := by
  unfold contributors
  refine (foldl_collect ?_ pp.slots.toList [] List.nodup_nil).imp id fun h p => (h p).trans ?_
  · intro acc s hacc
    cases hs : s.sender with
    | none => simp [hacc]
    | some q =>
      by_cases hq : q ∈ acc
      · refine ⟨by simp [hq, hacc], fun p => ?_⟩
        simp only [hq, ↓reduceIte, Option.some.injEq]
        constructor
        · exact .inl
        · rintro (hp | rfl)
          · exact hp
          · exact hq
      · have hnd : (acc ++ [q]).Nodup := List.nodup_append.2 ⟨hacc, List.nodup_singleton q,
          fun a ha b hb hab => hq (by rw [List.mem_singleton] at hb; rw [← hb, ← hab]; exact ha)⟩
        refine ⟨by simpa [hq] using hnd, fun p => ?_⟩
        simp only [hq, ↓reduceIte, List.mem_append, List.mem_singleton, Option.some.injEq]
        exact or_congr_right eq_comm
  · simp

/-- A piece has a sole sender exactly when one peer sent every block of it. -/
theorem soleSender_eq_some {pp : PartialPiece P} {pe : P} :
    pp.soleSender = some pe ↔ pp.SentAll pe := by
  unfold soleSender SentAll
  cases pp.slots.toList with
  | nil => simp
  | cons s rest =>
    by_cases hs : s.sender = some pe
    · simp [hs, List.all_eq_true]
    · simp only [List.map_cons, ne_eq, reduceCtorEq, not_false_eq_true, List.mem_cons,
        forall_eq_or_imp, hs, false_and, true_and, iff_false]
      split
      · exact hs
      · simp

end PartialPiece

namespace Picker

variable {P : Type}

/-- A verified piece is not partial. -/
theorem partial?_eq_none_of_verified {pk : Picker P} (hinv : pk.Inv) {index : UInt32}
    (hv : pk.verified.getD index = true) : pk.partial? index = none := by
  cases hp : pk.partial? index with
  | none => rfl
  | some pp =>
    obtain ⟨hmem, hidx⟩ := mem_of_partial? hp
    have hunv := (hinv.tracks pp hmem).unverified
    rw [hidx, hv] at hunv
    cases hunv

variable [DecidableEq P]

/-- Resetting a piece answers the contributors of its partial piece, and nobody when it has
none. -/
theorem resetPiece_senders {pk pk' : Picker P} {index : UInt32} {cs : List P}
    (h : pk.resetPiece index = .ok (cs, pk')) :
    cs = ((pk.partial? index).map (·.contributors)).getD [] := by
  unfold resetPiece at h
  cases hp : pk.partial? index with
  | none =>
    simp only [hp, pure, Except.pure, Except.ok.injEq, Prod.mk.injEq] at h
    simp [← h.1]
  | some pp =>
    simp only [hp] at h
    rw [Except.bind_eq_ok] at h
    obtain ⟨-, -, h⟩ := h
    simp only [pure, Except.pure, Except.ok.injEq, Prod.mk.injEq] at h
    simp [← h.1]

/-- Verifying a piece answers the sole sender of its partial piece, and nobody when it has
none. -/
theorem markVerified_sender {pk pk' : Picker P} (hinv : pk.Inv) {index : UInt32}
    {sender : Option P} (h : pk.markVerified index = .ok (sender, pk')) :
    sender = (pk.partial? index).bind (·.soleSender) := by
  unfold markVerified at h
  rw [Except.bind_eq_ok] at h
  obtain ⟨v, hv, h⟩ := h
  cases v with
  | true =>
    simp only [↓reduceIte, pure, Except.pure, Except.ok.injEq, Prod.mk.injEq] at h
    rw [partial?_eq_none_of_verified hinv (Bitfield.getD_of_test_eq_ok hv), ← h.1]
    rfl
  | false =>
    simp only [Bool.false_eq_true, ↓reduceIte] at h
    cases hp : pk.partial? index with
    | none =>
      simp only [hp, bind, Except.bind, pure, Except.pure] at h
      cases hbf : pk.verified.set index with
      | error e => simp [hbf] at h
      | ok bf =>
        simp only [hbf, Except.ok.injEq, Prod.mk.injEq] at h
        simp [← h.1]
    | some pp =>
      simp only [hp, bind, Except.bind, pure, Except.pure] at h
      cases hm : moveAll pp.slots.toList BlockState.verified with
      | error e => simp [hm] at h
      | ok u =>
        cases hbf : pk.verified.set index with
        | error e => simp [hm, hbf, Picker.removePartial] at h
        | ok bf =>
          simp only [hm, hbf, Picker.removePartial, Except.ok.injEq, Prod.mk.injEq] at h
          simp [← h.1]

/-- **Resetting answers the senders.** Resetting a piece of a picker that keeps its invariant
never faults, and answers each peer that sent a received block of the piece, once. -/
theorem resetPiece_answers {pk : Picker P} (hinv : pk.Inv) (index : UInt32) :
    ∃ cs pk', pk.resetPiece index = .ok (cs, pk') ∧ cs.Nodup ∧
      ∀ p, p ∈ cs ↔ ∃ pp, pk.partial? index = some pp ∧ pp.SentBlock p := by
  obtain ⟨cs, pk', h⟩ := resetPiece_ok pk index
  refine ⟨cs, pk', h, ?_⟩
  rw [resetPiece_senders h]
  cases hp : pk.partial? index with
  | none => simp
  | some pp =>
    have hsound := (hinv.tracks pp (mem_of_partial? hp).1).sound
    obtain ⟨hnd, hmem⟩ := pp.contributors_spec
    refine ⟨hnd, fun p => ?_⟩
    simp only [Option.map_some, Option.getD_some, Option.some.injEq, exists_eq_left']
    exact (hmem p).trans hsound.sentBlock_iff

/-- **Verifying answers the sole sender.** Verifying a piece of a picker that keeps its
invariant answers a peer exactly when that peer sent every block of the piece. -/
theorem markVerified_answers {pk pk' : Picker P} (hinv : pk.Inv) {index : UInt32}
    {sender : Option P} (h : pk.markVerified index = .ok (sender, pk')) (pe : P) :
    sender = some pe ↔ ∃ pp, pk.partial? index = some pp ∧ pp.SentAll pe := by
  rw [markVerified_sender hinv h]
  cases pk.partial? index with
  | none => simp
  | some pp => simp [PartialPiece.soleSender_eq_some]

end Picker

end BitTorrent
