import BitTorrent.Proofs.Picker.Tiers

/-!
# The selection contract

For a picker that keeps its invariant and a peer whose bitfield has a bit for each piece,
`Picker.select` never faults, and what it returns is described by `Selection`
(`select_contract`): at most `n` distinct requests, none held by the peer before, each for a
block of a piece the peer has that is not verified, and recorded as the peer's; free blocks of
partial pieces first, then blocks of new pieces, then duplicates, each tier in the ranker's order
and then by offset; duplicates only when nothing else is left for the peer (`Drained`); and on
parole no duplicate, and only pieces reserved for the peer.

The candidates of the tiers are computed exactly (`eligible_ok`, `newPieces_ok`), and ranking
orders them (`rank_pairwise`): by index, or rarest first with ties in index order, since merge
sort is stable. `selection_of_tiers` assembles the contract from the three tiers; an early return
of `select` is a later tier with no candidates (`Tier.nil`).
-/

namespace BitTorrent

/-- A fold that appends `g x` for the elements `x` satisfying `p` and keeps its list for the
others appends the images of the elements satisfying `p`, in order. -/
theorem List.foldlM_except_filter {ε α β : Type} {f : List β → α → Except ε (List β)}
    {p : α → Bool} {g : α → β} {l : List α}
    (hf : ∀ acc, ∀ x ∈ l, f acc x = .ok (if p x then acc ++ [g x] else acc)) (acc : List β) :
    l.foldlM f acc = .ok (acc ++ (l.filter p).map g) := by
  induction l generalizing acc with
  | nil => simp [pure, Except.pure]
  | cons x l ih =>
    have ih' := ih (fun acc y hy => hf acc y (List.mem_cons_of_mem x hy))
    rw [List.foldlM_cons, hf acc x List.mem_cons_self]
    cases hp : p x <;> simp [hp, ih', bind, Except.bind]

/-- Two elements of a strictly ascending list occur in ascending order. -/
theorem List.pair_sublist_of_lt {l : List UInt32} (hl : l.Pairwise (· < ·)) {a b : UInt32}
    (ha : a ∈ l) (hb : b ∈ l) (hab : a < b) : List.Sublist [a, b] l := by
  induction l with
  | nil => exact absurd ha List.not_mem_nil
  | cons x l ih =>
    rw [List.pairwise_cons] at hl
    rcases List.mem_cons.1 ha with rfl | ha' <;> rcases List.mem_cons.1 hb with rfl | hb'
    · exact absurd hab (by simp)
    · exact (List.singleton_sublist.2 hb').cons_cons a
    · -- the head is below every later element
      have := hl.1 a ha'
      rw [UInt32.lt_iff_toNat_lt] at this hab
      omega
    · exact (ih hl.2 ha' hb').cons x

/-- In a list without duplicates, two elements do not occur in both orders. -/
theorem List.Nodup.not_pair_sublist_swap {α : Type} {l : List α} (hl : l.Nodup) {a b : α}
    (hab : List.Sublist [a, b] l) (hba : List.Sublist [b, a] l) : False := by
  induction l with
  | nil => exact absurd hab (by simp)
  | cons x l ih =>
    rw [List.nodup_cons] at hl
    cases hab with
    | cons _ hab =>
      cases hba with
      | cons _ hba => exact ih hl.2 hab hba
      | cons_cons _ hba => exact hl.1 (hab.subset (by simp))
    | cons_cons _ hab =>
      cases hba with
      | cons _ hba => exact hl.1 (hba.subset (by simp))
      | cons_cons _ hba => exact hl.1 (hba.subset (by simp))

namespace Picker

variable {P : Type}

/-- **Ranking orders the candidates**: ascending candidates are tried by index, or, rarest first,
by fewest holders, ties broken by index, as merge sort is stable. -/
theorem rank_pairwise (pk : Picker P) {cands : List UInt32} (h : cands.Pairwise (· < ·)) :
    (pk.rank cands).Pairwise pk.Precedes := by
  unfold rank
  cases hr : pk.ranker with
  | indexOrder => exact h.imp fun hab => by simpa [Precedes, hr] using hab
  | rarestFirst =>
    simp only
    split
    · set le := fun a b : UInt32 =>
        decide (pk.availability.getD a.toNat 0 ≤ pk.availability.getD b.toNat 0)
      have htrans : ∀ a b c, le a b → le b c → le a c := by
        simp only [le, decide_eq_true_eq]
        exact fun _ _ _ => Nat.le_trans
      have htotal : ∀ a b, (le a b || le b a) = true := by
        simp only [le, Bool.or_eq_true, decide_eq_true_eq]
        exact fun a b => Nat.le_total _ _
      have hsorted := List.pairwise_mergeSort htrans htotal cands
      have hnd : (cands.mergeSort le).Nodup :=
        (List.mergeSort_perm cands le).nodup_iff.2 (h.imp fun hab => by
          rintro rfl
          exact absurd hab (by simp))
      refine List.pairwise_iff_forall_sublist.2 fun {a b} hab => ?_
      simp only [Precedes, hr]
      have hle : pk.availability.getD a.toNat 0 ≤ pk.availability.getD b.toNat 0 := by
        simpa [le] using List.pairwise_iff_forall_sublist.1 hsorted hab
      rcases Nat.lt_or_eq_of_le hle with hlt | heq
      · exact .inl hlt
      refine .inr ⟨heq, ?_⟩
      -- with as many holders, the later in index order would be sorted after by stability
      have hne : a ≠ b := by simpa using hnd.sublist hab
      have hmem : ∀ x, x ∈ [a, b] → x ∈ cands := fun x hx =>
        List.mem_mergeSort.1 (hab.subset hx)
      rcases Nat.lt_or_gt_of_ne (fun h' => hne (UInt32.toNat_inj.1 h')) with hlt | hgt
      · exact UInt32.lt_iff_toNat_lt.2 hlt
      · have hba := List.pair_sublist_of_lt h (hmem b (by simp)) (hmem a (by simp))
          (UInt32.lt_iff_toNat_lt.2 hgt)
        have hba' := List.pair_sublist_mergeSort htrans htotal
          (show le b a from by simp only [le, decide_eq_true_eq]; omega) hba
        exact (List.Nodup.not_pair_sublist_swap hnd hab hba').elim
    · -- no two candidates to order
      rename_i hshort
      match cands, hshort with
      | [], _ => exact List.Pairwise.nil
      | [_], _ => exact List.pairwise_singleton _ _
      | _ :: _ :: _, hs => simp at hs

/-- The second tier's candidates are the pieces `pe` has that are neither verified nor partial,
by ascending index; reading their bits never faults. -/
theorem newPieces_ok (pk : Picker P) {holds : Bitfield} (hlen : holds.length = pk.numPieces)
    (hsmall : pk.numPieces.toNat + 7 < 2 ^ 32) :
    ∃ is, pk.newPieces holds = .ok is ∧ is.Pairwise (· < ·) ∧
      ∀ i, i ∈ is ↔ i < pk.numPieces ∧ holds.getD i = true ∧ pk.verified.getD i = false ∧
        pk.partial? i = none := by
  have hbound := pk.numPieces.toNat_lt
  have htoNat : ∀ k < pk.numPieces.toNat, (Nat.toUInt32 k).toNat = k := fun k hk => by
    simp only [Nat.toUInt32_eq, UInt32.toNat_ofNat']
    omega
  refine ⟨((List.range pk.numPieces.toNat).map Nat.toUInt32).filter
    fun i => holds.getD i && !pk.verified.getD i && (pk.partial? i).isNone,
    (List.foldlM_except_filter
      (p := fun i => holds.getD i && !pk.verified.getD i && (pk.partial? i).isNone) (g := id)
      (fun acc i hi => ?_) []).trans (by simp), ?_, fun i => ?_⟩
  · -- every index below the piece count has its bit read
    obtain ⟨k, hk, rfl⟩ := List.mem_map.1 hi
    have hk := List.mem_range.1 hk
    have hlt : Nat.toUInt32 k < pk.numPieces := UInt32.lt_iff_toNat_lt.2 (by rw [htoNat k hk]; exact hk)
    have ht := Bitfield.test_ok_of_lt (hlen ▸ hlt) (hlen ▸ hsmall)
    simp only [ht, bind, Except.bind, pure, Except.pure]
    cases holds.getD _ <;> cases pk.verified.getD _ <;> cases pk.partial? _ <;> simp
  · refine (List.pairwise_map.2 (List.pairwise_lt_range.imp_of_mem fun {a b} ha hb hab => ?_)).sublist
      List.filter_sublist
    rw [UInt32.lt_iff_toNat_lt, htoNat a (List.mem_range.1 ha), htoNat b (List.mem_range.1 hb)]
    exact hab
  · simp only [List.mem_filter, List.mem_map, List.mem_range, Bool.and_eq_true,
      Bool.not_eq_true', Option.isNone_iff_eq_none]
    constructor
    · rintro ⟨⟨k, hk, rfl⟩, ⟨hb, hv⟩, hp⟩
      exact ⟨UInt32.lt_iff_toNat_lt.2 (by rw [htoNat k hk]; exact hk), hb, hv, hp⟩
    · rintro ⟨hlt, hb, hv, hp⟩
      exact ⟨⟨i.toNat, UInt32.lt_iff_toNat_lt.1 hlt, by simp⟩, ⟨hb, hv⟩, hp⟩

theorem slot?_of_partial?_none {pk : Picker P} {r : Request} (h : pk.partial? r.index = none) :
    pk.slot? r = none := by
  simp [slot?, h]

variable [DecidableEq P]

/-! ## The candidates of each tier -/

/-- Piece `pp` may give blocks to `pe`: it is reserved for `pe`, or, off parole, for no one. -/
def Admits (pe : P) (parole : Bool) (pp : PartialPiece P) : Prop :=
  pp.exclusive = some pe ∨ (pp.exclusive = none ∧ parole = false)

instance (pe : P) (parole : Bool) (pp : PartialPiece P) : Decidable (Admits pe parole pp) := by
  unfold Admits
  infer_instance

/-- The partial pieces of the first and third tier: those `pe` has and may get blocks of, by
ascending index. -/
theorem eligible_eq {pk : Picker P} (h : pk.Inv) {holds : Bitfield}
    (hlen : holds.length = pk.numPieces) (hsmall : pk.numPieces.toNat + 7 < 2 ^ 32) (pe : P)
    (parole : Bool) :
    pk.eligible pe holds parole = .ok ((pk.partials.filter fun pp =>
      holds.getD pp.index && decide (Admits pe parole pp)).map (·.index)) := by
  unfold eligible
  refine (List.foldlM_except_filter
    (p := fun pp : PartialPiece P => holds.getD pp.index && decide (Admits pe parole pp))
    (g := fun pp : PartialPiece P => pp.index) (fun acc pp hpp => ?_) []).trans (by simp)
  have ht := Bitfield.test_ok_of_lt (hlen ▸ (h.tracks pp hpp).lt) (hlen ▸ hsmall)
  simp only [ht, bind, Except.bind, pure, Except.pure]
  -- the bit of the piece, then its reservation
  cases hb : holds.getD pp.index
  · simp
  · cases hx : pp.exclusive with
    | none => cases parole <;> simp [Admits, hx]
    | some x => by_cases hxe : x = pe <;> simp [Admits, hx, hxe]

/-- The first and third tiers' candidates are the partial pieces `pe` has and may get blocks of,
by ascending index; reading their bits never faults. -/
theorem eligible_ok {pk : Picker P} (h : pk.Inv) {holds : Bitfield}
    (hlen : holds.length = pk.numPieces) (hsmall : pk.numPieces.toNat + 7 < 2 ^ 32) (pe : P)
    (parole : Bool) :
    ∃ es, pk.eligible pe holds parole = .ok es ∧ es.Pairwise (· < ·) ∧
      ∀ i, i ∈ es ↔ ∃ pp ∈ pk.partials, pp.index = i ∧ holds.getD i = true ∧ Admits pe parole pp := by
  refine ⟨_, eligible_eq h hlen hsmall pe parole, ?_, fun i => ?_⟩
  · exact List.pairwise_map.2 (h.ascending.sublist List.filter_sublist)
  · simp only [List.mem_map, List.mem_filter, Bool.and_eq_true, decide_eq_true_eq]
    constructor
    · rintro ⟨pp, ⟨hpp, hb, ha⟩, rfl⟩
      exact ⟨pp, hpp, rfl, hb, ha⟩
    · rintro ⟨pp, hpp, rfl, hb, ha⟩
      exact ⟨pp, ⟨hpp, hb, ha⟩, rfl⟩

/-! ## The selection contract -/

/-- Nothing is left for `pe` but duplicates: no partial piece that `pe` has and may get blocks of
off parole has a free block, and every piece `pe` has that is not verified is partial. -/
def Drained (pk : Picker P) (pe : P) (holds : Bitfield) : Prop :=
  (∀ pp ∈ pk.partials, holds.getD pp.index = true → Admits pe false pp →
    ∀ s ∈ pp.slots.toList, s.state ≠ .free) ∧
  ∀ i < pk.numPieces, holds.getD i = true → pk.verified.getD i = false → (pk.partial? i).isSome

/-- What a selection of `rs` for `pe` with bitfield `holds`, from `pk` to `pk'`, guarantees. -/
structure Selection (pk : Picker P) (pe : P) (holds : Bitfield) (n : Int) (parole : Bool)
    (rs : List Request) (pk' : Picker P) : Prop where
  /-- At most `n` requests, none when `n` is not positive. -/
  length_le : rs.length ≤ n.toNat
  nodup : rs.Nodup
  /-- No block is requested from `pe` twice. -/
  fresh : ∀ r ∈ rs, r ∉ pk.requestsOf pe
  /-- The requests of `pe` are the old ones and the returned ones. -/
  requestsOf : (pk'.requestsOf pe).Perm (pk.requestsOf pe ++ rs)
  /-- Each request names a block of a piece `pe` has that is not verified. -/
  wanted : ∀ r ∈ rs, holds.getD r.index = true ∧ r.index < pk.numPieces ∧
    pk.verified.getD r.index = false ∧ ∃ b ∈ Block.all (pk.pieceLength r.index), b.toRequest r.index = r
  /-- Nothing when every piece is verified. -/
  complete : (∀ i < pk.numPieces, pk.verified.getD i = true) → rs = []
  /-- Free blocks of partial pieces, then blocks of new pieces, then duplicates, each tier in the
  ranker's order and then in block order. -/
  tiers : ∃ rs₁ rs₂ rs₃, rs = rs₁ ++ rs₂ ++ rs₃ ∧
    rs₁.Pairwise pk.Before ∧ rs₂.Pairwise pk.Before ∧ rs₃.Pairwise pk.Before ∧
    (∀ r ∈ rs₁, ∃ s, pk.slot? r = some s ∧ s.state = .free) ∧
    (∀ r ∈ rs₂, pk.partial? r.index = none) ∧
    (∀ r ∈ rs₃, ∃ s, pk.slot? r = some s ∧ s.state = .requested ∧ pe ∉ s.requested)
  /-- A block already requested from another peer is handed out only in end-game. -/
  endGame : ∀ r ∈ rs, (∃ s, pk.slot? r = some s ∧ s.state = .requested) → Drained pk' pe holds
  /-- On parole, only blocks not requested before, of pieces reserved for `pe`. -/
  parole : parole = true → ∀ r ∈ rs, (∀ s, pk.slot? r = some s → s.state = .free) ∧
    ∃ pp, pk'.partial? r.index = some pp ∧ pp.exclusive = some pe

/-- A request held by a peer names a block of a piece of the torrent that is not verified. -/
theorem Inv.block_of_mem_requestsOf {pk : Picker P} (h : pk.Inv) {pe : P} {r : Request}
    (hr : r ∈ pk.requestsOf pe) :
    r.index < pk.numPieces ∧ pk.verified.getD r.index = false ∧
      ∃ b ∈ Block.all (pk.pieceLength r.index), b.toRequest r.index = r := by
  obtain ⟨pp, hpp, s, hs, -, rfl⟩ := mem_requestsOf.1 hr
  have ht := h.tracks pp hpp
  refine ⟨ht.lt, ht.unverified, s.block, ?_, rfl⟩
  rw [Slot.toRequest, Block.toRequest, ← ht.length, ← ht.sound.blocks]
  exact List.mem_map_of_mem hs

/-- Requests added to a peer's requests by a picker that keeps the invariant are distinct and new. -/
theorem fresh_of_perm {pk pk' : Picker P} (h' : pk'.Inv) {pe : P} {rs : List Request}
    (hperm : (pk'.requestsOf pe).Perm (pk.requestsOf pe ++ rs)) :
    rs.Nodup ∧ ∀ r ∈ rs, r ∉ pk.requestsOf pe := by
  have hnd := List.nodup_append.1 (hperm.nodup_iff.1 (h'.nodup_requestsOf pe))
  exact ⟨hnd.2.1, fun r hr hr' => hnd.2.2 r hr' r hr rfl⟩

/-- **End-game is reached only when nothing else is left**: after the first two tiers fall short of
`n`, over all the partial pieces `pe` may get blocks of and all the new pieces it has, no such
piece has a free block and every piece `pe` has that is not verified is partial; a third tier
over partial pieces keeps it so. -/
theorem drained_of_tiers {pk pk₁ pk₂ pk₃ : Picker P} {pe : P} {holds : Bitfield} {parole : Bool}
    {n : Nat} {O₁ O₂ O₃ : Request → Prop} {E₃ : Picker P → UInt32 → Prop}
    {es is es' : List UInt32} {ret₀ ret₁ ret₂ ret₃ : List Request}
    (t₁ : Tier pe parole n O₁ Exhausted es (pk, ret₀) (pk₁, ret₁))
    (t₂ : Tier pe parole n O₂ Exhausted is (pk₁, ret₁) (pk₂, ret₂))
    (t₃ : Tier pe parole n O₃ E₃ es' (pk₂, ret₂) (pk₃, ret₃))
    (hes' : ∀ i ∈ es', (pk₂.partial? i).isSome) (hshort : ret₂.length ≠ n)
    (hel : ∀ pp ∈ pk.partials, holds.getD pp.index = true → Admits pe false pp → pp.index ∈ es)
    (hnew : ∀ i < pk.numPieces, holds.getD i = true → pk.verified.getD i = false →
      pk₁.partial? i = none → i ∈ is) :
    Drained pk₃ pe holds := by
  have g₂₃ := t₂.grants.trans t₃.grants
  have hg := t₁.grants.trans g₂₃
  -- the candidates of the first two tiers are left without a free block
  have hex₁ : ∀ i ∈ es, Exhausted pk₃ i := fun i hi =>
    g₂₃.exhausted (t₁.exhausted (t₂.length_ne hshort) i hi)
  have hex₂ : ∀ i ∈ is, Exhausted pk₃ i := fun i hi => t₃.grants.exhausted (t₂.exhausted hshort i hi)
  refine ⟨fun pp hpp hb ha s hs => ?_, fun i hi hb hv => ?_⟩
  · have hp₃ : pk₃.partial? pp.index = some pp := t₃.inv.partial?_iff.2 ⟨hpp, rfl⟩
    -- a partial piece was partial at the start, or started by the second tier
    have h₂ : (pk₂.partial? pp.index).isSome := (t₃.starts _ (by simp [hp₃])).elim id (hes' _)
    have hcand : pp.index ∈ es ∨ pp.index ∈ is := by
      rcases t₂.starts _ h₂ with h₁ | h₁
      · rcases t₁.starts _ h₁ with h₀ | h₀
        · obtain ⟨q, hq⟩ := Option.isSome_iff_exists.1 h₀
          obtain ⟨q', hq', hgq⟩ := hg.old _ q hq
          rw [hp₃] at hq'
          cases hq'
          obtain ⟨hqmem, hqidx⟩ := mem_of_partial? hq
          have hadm : Admits pe false q := by
            unfold Admits at ha ⊢
            rwa [hgq.2.2.1] at ha
          have := hel q hqmem (by rw [hqidx]; exact hb) hadm
          rw [hqidx] at this
          exact .inl this
        · exact .inl h₀
      · exact .inr h₁
    obtain ⟨pp', hp', hfree⟩ := hcand.elim (hex₁ _) (hex₂ _)
    rw [hp₃] at hp'
    cases hp'
    exact hfree s hs
  · rw [hg.numPieces] at hi
    rw [hg.verified] at hv
    cases hp₁ : pk₁.partial? i with
    | some q =>
      obtain ⟨q', hq', -⟩ := g₂₃.old i q hp₁
      simp [hq']
    | none =>
      obtain ⟨pp, hp, -⟩ := hex₂ i (hnew i hi hb hv hp₁)
      simp [hp]

/-- **Three tiers make a selection**: the first over partial pieces `pe` may get blocks of, the
second over new pieces `pe` has, and the third over partial pieces `pe` has, which adds requests
only off parole and when the first two fell short over all such pieces. -/
theorem selection_of_tiers {pk pk₁ pk₂ pk₃ : Picker P} (h : pk.Inv) {pe : P} {holds : Bitfield}
    {n : Int} {parole : Bool} {es is es' : List UInt32} {ret₁ ret₂ ret₃ : List Request}
    (t₁ : Tier pe parole n.toNat (fun r => ∃ s, pk.slot? r = some s ∧ s.state = .free) Exhausted
      es (pk, []) (pk₁, ret₁))
    (t₂ : Tier pe parole n.toNat (fun r => pk₁.partial? r.index = none) Exhausted is
      (pk₁, ret₁) (pk₂, ret₂))
    (t₃ : Tier pe parole n.toNat
      (fun r => ∃ s, pk₂.slot? r = some s ∧ s.state = .requested ∧ pe ∉ s.requested)
      (fun _ _ => True) es' (pk₂, ret₂) (pk₃, ret₃))
    (hes : ∀ i ∈ es, ∃ pp ∈ pk.partials, pp.index = i ∧ holds.getD i = true ∧ Admits pe parole pp)
    (his : ∀ i ∈ is, holds.getD i = true)
    (hes' : ∀ i ∈ es', (pk₂.partial? i).isSome ∧ holds.getD i = true)
    (hdup : ret₂.length < ret₃.length → parole = false ∧ ret₂.length ≠ n.toNat ∧
      (∀ pp ∈ pk.partials, holds.getD pp.index = true → Admits pe false pp → pp.index ∈ es) ∧
      ∀ i < pk.numPieces, holds.getD i = true → pk.verified.getD i = false →
        pk₁.partial? i = none → i ∈ is) :
    Selection pk pe holds n parole ret₃ pk₃ := by
  have g₂₃ := t₂.grants.trans t₃.grants
  have hg := t₁.grants.trans g₂₃
  obtain ⟨D₁, hD₁, hD₁mem, hD₁sort, hperm₁⟩ := t₁.added
  obtain ⟨D₂, hD₂, hD₂mem, hD₂sort, hperm₂⟩ := t₂.added
  obtain ⟨D₃, hD₃, hD₃mem, hD₃sort, hperm₃⟩ := t₃.added
  dsimp only at hD₁ hD₂ hD₃ hperm₁ hperm₂ hperm₃ hD₁sort hD₂sort hD₃sort
  rw [List.nil_append] at hD₁
  subst ret₁ ret₂ ret₃
  have hperm : (pk₃.requestsOf pe).Perm (pk.requestsOf pe ++ (D₁ ++ D₂ ++ D₃)) := by
    simp only [← List.append_assoc]
    exact hperm₃.trans ((hperm₂.trans (hperm₁.append_right D₂)).append_right D₃)
  obtain ⟨hnd, hfresh⟩ := fresh_of_perm t₃.inv hperm
  -- where each tier's blocks come from, in the picker the selection starts with
  have hfree₁ : ∀ r ∈ D₁, ∃ s, pk.slot? r = some s ∧ s.state = .free := fun r hr => (hD₁mem r hr).2
  have hnone₂ : ∀ r ∈ D₂, pk.partial? r.index = none := fun r hr =>
    t₁.grants.partial?_none (hD₂mem r hr).2
  have hdup₃ : ∀ r ∈ D₃, ∃ s, pk.slot? r = some s ∧ s.state = .requested ∧ pe ∉ s.requested := by
    intro r hr
    obtain ⟨s, hs, hreq, hpe⟩ := (hD₃mem r hr).2
    exact ⟨s, (t₁.grants.trans t₂.grants).slot?_of_requested hs hreq hpe, hreq, hpe⟩
  have hholds : ∀ r ∈ D₁ ++ D₂ ++ D₃, holds.getD r.index = true := by
    intro r hr
    simp only [List.mem_append] at hr
    rcases hr with (hr | hr) | hr
    · obtain ⟨pp, -, -, hb, -⟩ := hes _ (hD₁mem r hr).1
      exact hb
    · exact his _ (hD₂mem r hr).1
    · exact (hes' _ (hD₃mem r hr).1).2
  -- a block requested before is handed out by the third tier only
  have hthird : ∀ r ∈ D₁ ++ D₂ ++ D₃, (∃ s, pk.slot? r = some s ∧ s.state = .requested) →
      r ∈ D₃ := by
    rintro r hr ⟨s, hs, hreq⟩
    simp only [List.mem_append] at hr
    rcases hr with (hr | hr) | hr
    · obtain ⟨s', hs', hfree⟩ := hfree₁ r hr
      rw [hs] at hs'
      cases hs'
      rw [hfree] at hreq
      cases hreq
    · rw [slot?_of_partial?_none (hnone₂ r hr)] at hs
      cases hs
    · exact hr
  have hlong : ∀ r ∈ D₃, (D₁ ++ D₂).length < (D₁ ++ D₂ ++ D₃).length := fun r hr => by
    have := List.length_pos_of_mem hr
    simp only [List.length_append]
    omega
  have hwanted : ∀ r ∈ D₁ ++ D₂ ++ D₃, holds.getD r.index = true ∧ r.index < pk.numPieces ∧
      pk.verified.getD r.index = false ∧
      ∃ b ∈ Block.all (pk.pieceLength r.index), b.toRequest r.index = r := by
    intro r hr
    obtain ⟨hlt, hv, hb⟩ := t₃.inv.block_of_mem_requestsOf (hperm.mem_iff.2 (List.mem_append_right _ hr))
    rw [hg.numPieces] at hlt
    rw [hg.verified] at hv
    rw [hg.pieceLength] at hb
    exact ⟨hholds r hr, hlt, hv, hb⟩
  refine ⟨t₃.length_le, hnd, hfresh, hperm, hwanted, fun hall => ?_,
    ⟨D₁, D₂, D₃, rfl, hD₁sort, t₁.grants.before ▸ hD₂sort,
      (t₁.grants.trans t₂.grants).before ▸ hD₃sort, hfree₁, hnone₂, hdup₃⟩,
    fun r hr hreq => ?_, fun hp r hr => ?_⟩
  · -- every request is of a piece that is not verified
    refine List.eq_nil_iff_forall_not_mem.2 fun r hr => ?_
    obtain ⟨-, hlt, hv, -⟩ := hwanted r hr
    rw [hall _ hlt] at hv
    cases hv
  · obtain ⟨-, hshort, hel, hnew⟩ := hdup (hlong r (hthird r hr hreq))
    exact drained_of_tiers t₁ t₂ t₃ (fun i hi => (hes' i hi).1) hshort hel hnew
  · -- on parole the third tier adds nothing
    have hr' : r ∈ D₁ ∨ r ∈ D₂ := by
      simp only [List.mem_append] at hr
      rcases hr with (hr | hr) | hr
      · exact .inl hr
      · exact .inr hr
      · have := (hdup (hlong r hr)).1
        rw [hp] at this
        cases this
    have hr₃ := hperm.mem_iff.2 (List.mem_append_right _ hr)
    rcases hr' with hr' | hr'
    · -- a partial piece reserved for `pe` stays so
      obtain ⟨s, hs, hfree⟩ := hfree₁ r hr'
      obtain ⟨pp, hpp, hidx, -, hadm⟩ := hes _ (hD₁mem r hr').1
      have hex : pp.exclusive = some pe := by
        rcases hadm with h | ⟨-, h⟩
        · exact h
        · rw [hp] at h
          cases h
      obtain ⟨pp', hp', hgp⟩ := hg.old _ pp (h.partial?_iff.2 ⟨hpp, hidx⟩)
      refine ⟨fun s' hs' => ?_, pp', hp', hgp.2.2.1.trans hex⟩
      rw [hs] at hs'
      cases hs'
      exact hfree
    · -- a piece started on parole is reserved for `pe`
      refine ⟨fun s hs => ?_, ?_⟩
      · rw [slot?_of_partial?_none (hnone₂ r hr')] at hs
        cases hs
      obtain ⟨pp, -, s, hp₃, -⟩ := (t₃.inv.mem_requestsOf_iff).1 hr₃
      refine ⟨pp, hp₃, ?_⟩
      have hgp := g₂₃.new _ pp hp₃ (hD₂mem r hr').2
      rw [hgp.2.2.1, exclusive_started, if_pos hp]

end Picker

end BitTorrent
