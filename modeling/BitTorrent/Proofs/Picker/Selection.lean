import Mathlib.Data.List.Nodup
import BitTorrent.Proofs.Picker.Received

/-!
# Selection keeps the picker's invariant

`Picker.select` fills a peer's requests in three tiers: free blocks of partial pieces, then new
pieces started one at a time, then, off parole, duplicate requests of blocks other peers have.
The first and third tiers only take blocks of pieces that are already partial, so any list of
piece indexes keeps the invariant (`Inv.fillPartials`, `Inv.fillDuplicates`). The second tier
starts pieces, and a started piece must not stay idle: it gets at least one block because

* every candidate is a piece of the torrent, so it has a positive length (`Inv.length_pos`),
  and it is neither verified nor partial (`newPieces_spec`), and the candidates are
  distinct, so starting one never meets a piece started before in the same round;
* the tier is only entered, and only goes on, while fewer than `n` blocks are taken.

So a selection keeps the invariant for every peer, bitfield, count and parole (`Inv.select`).
Every tier only turns free blocks into requested ones or adds requesters to requested blocks, so
a selection also changes no received block (`Picker.Keeps`).

Each tier hands out blocks of the piece it takes them from, which is partial or just started,
and no tier drops a partial piece; so a selection hands out blocks of partial pieces only
(`ofPartials_select`), and never a block of a verified piece (`Inv.select_unverified`).
-/

namespace BitTorrent

/-- A fold that either keeps its list or appends the element, each element appended being
`good`, appends a sublist of good elements. -/
theorem List.foldlM_except_sublist {ε α : Type} {good : α → Prop}
    {f : List α → α → Except ε (List α)}
    (hf : ∀ acc x c, f acc x = .ok c → c = acc ∨ (c = acc ++ [x] ∧ good x)) :
    ∀ (l acc c : List α), l.foldlM f acc = .ok c →
      ∃ s, s.Sublist l ∧ (∀ x ∈ s, good x) ∧ c = acc ++ s := by
  intro l
  induction l with
  | nil =>
    intro acc c h
    simp only [List.foldlM_nil, Except.pure_eq_ok] at h
    exact ⟨[], List.Sublist.slnil, by simp, by simp [h]⟩
  | cons x l ih =>
    intro acc c h
    rw [List.foldlM_cons, Except.bind_eq_ok] at h
    obtain ⟨a, hstep, hrest⟩ := h
    obtain ⟨s, hsub, hgood, rfl⟩ := ih a c hrest
    rcases hf acc x a hstep with rfl | ⟨rfl, hx⟩
    · exact ⟨s, hsub.cons x, hgood, rfl⟩
    · refine ⟨x :: s, hsub.cons_cons x, fun y hy => ?_, by simp⟩
      rcases List.mem_cons.1 hy with rfl | hy
      · exact hx
      · exact hgood y hy

namespace Picker

variable {P : Type}

/-! ## One round of each tier -/

/-- One round of the second tier: piece `i` is started, reserved for `pe` on parole, and its
free blocks are taken for `pe`. -/
def startFor (pe : P) (n : Nat) (parole : Bool) (pk : Picker P) (ret : List Request)
    (i : UInt32) : Picker P × List Request :=
  let (pp, pk1) := pk.start i
  let pp := if parole then { pp with exclusive := some pe } else pp
  let pk2 := { pk1.update pp with endGame := false }
  pk2.takeFrom (takeFree pe i) i n ret

theorem fillNew_cons (pe : P) (n : Nat) (parole : Bool) (i : UInt32) (is : List UInt32)
    (pk : Picker P) (ret : List Request) :
    fillNew pe n parole (i :: is) (pk, ret) =
      let r := startFor pe n parole pk ret i
      if r.2.length == n then r else fillNew pe n parole is r := rfl

theorem fillPartials_cons (pe : P) (n : Nat) (i : UInt32) (is : List UInt32) (pk : Picker P)
    (ret : List Request) :
    fillPartials pe n (i :: is) (pk, ret) =
      let r := pk.takeFrom (takeFree pe i) i n ret
      if r.2.length == n then r else fillPartials pe n is r := rfl

/-- Taking blocks of one partial piece by a rule keeps the invariant and stays within `n`
requests. -/
theorem Inv.takeFrom {take : Nat → List (Slot P) → List (Slot P) × List Request}
    (rule : TakeRule take) {pk : Picker P} (h : pk.Inv) (index : UInt32) {n : Nat}
    {ret : List Request} (hret : ret.length ≤ n) :
    (pk.takeFrom take index n ret).1.Inv ∧ (pk.takeFrom take index n ret).2.length ≤ n := by
  unfold Picker.takeFrom
  cases hp : pk.partial? index with
  | none => exact ⟨h, hret⟩
  | some pp =>
    have ht := h.tracks pp (mem_of_partial? hp).1
    have hk := rule.count (n - ret.length) pp.slots.toList
    refine ⟨h.update ⟨⟨?_, fun s hs => ?_, ?_⟩, ht.lt, ht.length, ht.unverified⟩, ?_⟩
    · simpa [rule.blocks] using ht.sound.blocks
    · exact rule.sound _ _ ht.sound.slots s (by simpa using hs)
    · obtain ⟨s, hs, hfree⟩ :=
        rule.busy (n - ret.length) _ (PartialPiece.idle_eq_false_iff.1 ht.sound.busy)
      exact PartialPiece.idle_eq_false_iff.2 ⟨s, by simpa using hs, hfree⟩
    · simp only [List.length_append]
      omega

theorem Inv.fillPartials {pk : Picker P} (h : pk.Inv) (pe : P) (n : Nat) (is : List UInt32)
    {ret : List Request} (hret : ret.length ≤ n) :
    (fillPartials pe n is (pk, ret)).1.Inv ∧ (fillPartials pe n is (pk, ret)).2.length ≤ n := by
  induction is generalizing pk ret with
  | nil => exact ⟨h, hret⟩
  | cons i is ih =>
    rw [fillPartials_cons]
    obtain ⟨h1, hret1⟩ := h.takeFrom (takeFree_rule pe i) i hret
    dsimp only
    split
    · exact ⟨h1, hret1⟩
    · exact ih h1 hret1

/-- Taking blocks of one partial piece by a rule changes no received block. -/
theorem keeps_takeFrom {take : Nat → List (Slot P) → List (Slot P) × List Request}
    (rule : TakeRule take) (pk : Picker P) (index : UInt32) (n : Nat) (ret : List Request) :
    Keeps pk (pk.takeFrom take index n ret).1 := by
  unfold Picker.takeFrom
  cases hp : pk.partial? index with
  | none => exact Keeps.refl pk
  | some pp =>
    have hp' : pk.partial? pp.index = some pp := (mem_of_partial? hp).2 ▸ hp
    refine ⟨rfl, rfl, rfl, received_update_of_same hp' rfl fun k => ?_⟩
    refine PartialPiece.receivedAt_congr ?_ k
    simpa using rule.received (n - ret.length) pp.slots.toList

theorem keeps_fillPartials (pe : P) (n : Nat) (is : List UInt32) (pk : Picker P)
    (ret : List Request) : Keeps pk (fillPartials pe n is (pk, ret)).1 := by
  induction is generalizing pk ret with
  | nil => exact Keeps.refl pk
  | cons i is ih =>
    rw [fillPartials_cons]
    have h1 := keeps_takeFrom (takeFree_rule pe i) pk i n ret
    dsimp only
    split
    · exact h1
    · exact h1.trans (ih _ _)

/-! ## Starting new pieces -/

/-- Taking blocks of a piece just inserted is inserting the piece with those blocks taken. -/
theorem takeFrom_insertPartial {take : Nat → List (Slot P) → List (Slot P) × List Request}
    {pk : Picker P} {pp : PartialPiece P} (hfresh : ∀ q ∈ pk.partials, q.index ≠ pp.index)
    (n : Nat) (ret : List Request) :
    ({ pk with partials := insertPartial pp pk.partials } : Picker P).takeFrom take pp.index n ret =
      ({ pk with partials := (insertPartial
          { pp with slots := (take (n - ret.length) pp.slots.toList).1.toArray } pk.partials) },
        ret ++ (take (n - ret.length) pp.slots.toList).2) := by
  unfold Picker.takeFrom
  simp only [partial?]
  rw [find?_insertPartial hfresh]
  have hmap := @update_insertPartial P pp
    { pp with slots := (take (n - ret.length) pp.slots.toList).1.toArray } _ hfresh rfl
  simp only at hmap
  simp only [Picker.update, hmap]

/-- A round of the second tier inserts the started piece, reserved or not, with its free blocks
taken for `pe`, and leaves end-game. -/
theorem startFor_cases (pe : P) (n : Nat) (parole : Bool) {pk : Picker P} (ret : List Request)
    {i : UInt32} (hfresh : ∀ q ∈ pk.partials, q.index ≠ i) :
    ∃ pp : PartialPiece P, pp.index = i ∧ pp.length = pk.pieceLength i ∧
      pp.slots = (PartialPiece.fresh i (pk.pieceLength i) : PartialPiece P).slots ∧
      startFor pe n parole pk ret i =
        ({ pk with
            partials := (insertPartial
              { pp with slots := (takeFree pe i (n - ret.length) pp.slots.toList).1.toArray }
              pk.partials),
            endGame := false },
          ret ++ (takeFree pe i (n - ret.length) pp.slots.toList).2) := by
  -- starting the piece and then replacing it is inserting the replacement
  have hstart : ∀ pp : PartialPiece P, pp.index = i →
      ({ (pk.start i).2.update pp with endGame := false } : Picker P) =
        { ({ pk with endGame := false } : Picker P) with
          partials := insertPartial pp ({ pk with endGame := false } : Picker P).partials } := by
    intro pp hidx
    simp only [start, Picker.update]
    rw [update_insertPartial (hidx ▸ hfresh) (by rw [hidx]; rfl)]
  obtain ⟨pp, hpp, hidx, hlen, hslots⟩ : ∃ pp : PartialPiece P,
      startFor pe n parole pk ret i =
        ({ (pk.start i).2.update pp with endGame := false } : Picker P).takeFrom
          (takeFree pe i) i n ret ∧
      pp.index = i ∧ pp.length = pk.pieceLength i ∧
      pp.slots = (PartialPiece.fresh i (pk.pieceLength i) : PartialPiece P).slots := by
    cases parole
    · exact ⟨PartialPiece.fresh i (pk.pieceLength i), rfl, rfl, rfl, rfl⟩
    · exact ⟨{ PartialPiece.fresh i (pk.pieceLength i) with exclusive := some pe },
        rfl, rfl, rfl, rfl⟩
  refine ⟨pp, hidx, hlen, hslots, ?_⟩
  subst hidx
  rw [hpp, hstart pp rfl]
  exact @takeFrom_insertPartial P (takeFree pe pp.index) { pk with endGame := false } pp hfresh n ret

/-- Free blocks taken from a fresh piece of positive length, with room for at least one, leave a
sound piece. -/
theorem sound_takeFree_fresh (pe : P) {pp : PartialPiece P} {len : UInt32} (hlen : pp.length = len)
    (hslots : pp.slots = (PartialPiece.fresh pp.index len : PartialPiece P).slots) (hpos : 0 < len)
    {k : Nat} (hk : 0 < k) :
    ({ pp with slots := (takeFree pe pp.index k pp.slots.toList).1.toArray } : PartialPiece P).Sound := by
  have hfreshslots := PartialPiece.fresh_slots (P := P) pp.index len
  have rule := takeFree_rule pe pp.index
  refine ⟨?_, fun s hs => ?_, ?_⟩
  · simpa [rule.blocks, hslots, hlen] using PartialPiece.fresh_blocks (P := P) pp.index len
  · exact rule.sound k _ (fun s hs => (hfreshslots s (hslots ▸ hs)).1) s (by simpa using hs)
  · -- the first block is free, and there is room for it
    have hne : pp.slots.toList ≠ [] := by
      rw [hslots]
      simpa [PartialPiece.fresh] using
        List.ne_nil_of_length_pos ((Block.length_all len).symm ▸ Block.count_pos hpos)
    obtain ⟨s, ss, hcons⟩ := List.exists_cons_of_ne_nil hne
    have hs := (hfreshslots s (hslots ▸ hcons ▸ List.mem_cons_self)).2
    obtain ⟨t, ht, htfree⟩ : ∃ t ∈ (takeFree pe pp.index k pp.slots.toList).1, t.state ≠ .free := by
      rw [hcons]
      exact takeFree_busy_of_free hk hs
    exact PartialPiece.idle_eq_false_iff.2 ⟨t, by simpa using ht, htfree⟩

/-- A round of the second tier on a piece that is not partial changes no received block: the
started piece has none. -/
theorem keeps_startFor (pe : P) (n : Nat) (parole : Bool) {pk : Picker P} (ret : List Request)
    {i : UInt32} (hfresh : ∀ q ∈ pk.partials, q.index ≠ i) :
    Keeps pk (startFor pe n parole pk ret i).1 := by
  obtain ⟨pp, hidx, -, hslots, heq⟩ := startFor_cases pe n parole ret hfresh
  subst hidx
  rw [heq]
  -- the started piece has no received block, and there was no partial piece at its index
  have hmap : ({ pp with slots := (takeFree pe pp.index (n - ret.length)
      pp.slots.toList).1.toArray } : PartialPiece P).slots.toList.map (·.state == .received) =
      (PartialPiece.fresh pp.index (pk.pieceLength pp.index) : PartialPiece P).slots.toList.map
        (·.state == .received) := by
    simpa [hslots] using (takeFree_rule pe pp.index).received (n - ret.length) pp.slots.toList
  generalize hpp : ({ pp with slots := (takeFree pe pp.index (n - ret.length)
      pp.slots.toList).1.toArray } : PartialPiece P) = pp' at hmap ⊢
  have hidx : pp'.index = pp.index := by rw [← hpp]
  have hnone : ∀ k, ¬ pp'.ReceivedAt k := by
    intro k
    rw [PartialPiece.receivedAt_congr hmap]
    rintro ⟨t, ht, hrec⟩
    rw [(PartialPiece.fresh_slots (P := P) pp.index _ t
      (Array.mem_toList_iff.2 (Array.mem_of_getElem? ht))).2] at hrec
    cases hrec
  have hold : ∀ k, ¬ pk.Received pp.index k := by
    rintro k ⟨q, hq, -⟩
    exact hfresh q (mem_of_partial? hq).1 (mem_of_partial? hq).2
  refine ⟨rfl, rfl, rfl, fun j k => ?_⟩
  rw [received_insertPartial rfl fun q hq => hidx ▸ hfresh q hq, hidx]
  by_cases hj : j = pp.index
  · subst hj
    simp [hnone k, hold k]
  · simp [hj]

/-- A round of the second tier on a piece of the torrent of positive length, neither verified nor
partial, keeps the invariant while fewer than `n` blocks were taken. -/
theorem Inv.startFor {pk : Picker P} (h : pk.Inv) (pe : P) {n : Nat} (parole : Bool)
    {ret : List Request} {i : UInt32} (hfresh : ∀ q ∈ pk.partials, q.index ≠ i)
    (hv : pk.verified.getD i = false) (hlt : i < pk.numPieces) (hret : ret.length < n) :
    (startFor pe n parole pk ret i).1.Inv ∧ (startFor pe n parole pk ret i).2.length ≤ n := by
  obtain ⟨pp, hidx, hlen, hslots, heq⟩ := startFor_cases pe n parole ret hfresh
  have hk := (takeFree_rule pe i).count (n - ret.length) pp.slots.toList
  subst hidx
  have hsound := sound_takeFree_fresh pe hlen hslots (h.length_pos _ hlt) (k := n - ret.length)
    (by omega)
  rw [heq]
  refine ⟨(h.insert ⟨hsound, hlt, hlen, hv⟩ hfresh).frame rfl rfl rfl rfl, ?_⟩
  simp only [List.length_append]
  omega

/-- The second tier keeps the invariant and the received blocks over distinct candidates, each
a piece of the torrent neither verified nor partial, while fewer than `n` blocks are taken. -/
theorem Inv.fillNew {pk : Picker P} (h : pk.Inv) (pe : P) (n : Nat) (parole : Bool)
    {is : List UInt32} (hnd : is.Nodup)
    (hcand : ∀ i ∈ is, i < pk.numPieces ∧ pk.verified.getD i = false ∧
      ∀ q ∈ pk.partials, q.index ≠ i)
    {ret : List Request} (hret : ret.length < n) :
    (fillNew pe n parole is (pk, ret)).1.Inv ∧ (fillNew pe n parole is (pk, ret)).2.length ≤ n ∧
      Keeps pk (fillNew pe n parole is (pk, ret)).1 := by
  induction is generalizing pk ret with
  | nil => exact ⟨h, Nat.le_of_lt hret, Keeps.refl pk⟩
  | cons i is ih =>
    obtain ⟨hi, hnd⟩ := List.nodup_cons.1 hnd
    obtain ⟨hlt, hv, hfresh⟩ := hcand i List.mem_cons_self
    obtain ⟨h1, hret1⟩ := h.startFor pe parole hfresh hv hlt hret
    have hk1 := keeps_startFor pe n parole ret hfresh
    obtain ⟨pp, hidx, -, -, heq⟩ := startFor_cases pe n parole ret hfresh
    rw [fillNew_cons]
    dsimp only
    split
    · exact ⟨h1, hret1, hk1⟩
    · rename_i hne
      rw [heq] at h1 hret1 hne hk1 ⊢
      have hlt1 : (ret ++ (takeFree pe i (n - ret.length) pp.slots.toList).2).length < n := by
        dsimp only at hne hret1
        simp only [beq_iff_eq] at hne
        omega
      have hcand1 : ∀ j ∈ is, j < pk.numPieces ∧ pk.verified.getD j = false ∧
          ∀ q ∈ insertPartial { pp with slots := (takeFree pe i (n - ret.length)
            pp.slots.toList).1.toArray } pk.partials, q.index ≠ j := by
        intro j hj
        obtain ⟨hjlt, hjv, hjfresh⟩ := hcand j (List.mem_cons_of_mem i hj)
        refine ⟨hjlt, hjv, fun q hq => ?_⟩
        rcases mem_insertPartial.1 hq with rfl | hq
        · -- the piece just started is not a later candidate
          intro hqj
          exact hi (hidx ▸ hqj ▸ hj)
        · exact hjfresh q hq
      have hrest := ih h1 hnd hcand1 hlt1
      exact ⟨hrest.1, hrest.2.1, hk1.trans hrest.2.2⟩

/-! ## The candidates -/

/-- The candidates of the second tier are distinct pieces of the torrent, neither verified nor
partial. -/
theorem newPieces_spec {pk : Picker P} {holds : Bitfield} {is : List UInt32}
    (h : pk.newPieces holds = .ok is) :
    is.Nodup ∧ ∀ i ∈ is, i < pk.numPieces ∧ pk.verified.getD i = false ∧
      ∀ q ∈ pk.partials, q.index ≠ i := by
  unfold newPieces at h
  have hfold := @List.foldlM_except_sublist _ _
    (fun i => pk.verified.getD i = false ∧ ∀ q ∈ pk.partials, q.index ≠ i) _ ?_ _ _ _ h
  · -- the candidates are the indexes below the piece count, each once
    obtain ⟨s, hsub, hgood, rfl⟩ := hfold
    have hbound := pk.numPieces.toNat_lt
    have htoNat : ∀ k ∈ List.range pk.numPieces.toNat, (Nat.toUInt32 k).toNat = k := by
      intro k hk
      simp only [List.mem_range] at hk
      simp only [Nat.toUInt32_eq, UInt32.toNat_ofNat']
      omega
    have hnd : ((List.range pk.numPieces.toNat).map Nat.toUInt32).Nodup :=
      List.Nodup.map_on (fun x hx y hy hxy => by
        rw [← htoNat x hx, ← htoNat y hy, hxy]) List.nodup_range
    refine ⟨hnd.sublist hsub, fun i hi => ?_⟩
    obtain ⟨k, hk, rfl⟩ := List.mem_map.1 (hsub.subset hi)
    refine ⟨UInt32.lt_iff_toNat_lt.2 ?_, hgood _ hi⟩
    rw [htoNat k hk]
    exact List.mem_range.1 hk
  · -- a step skips the index or appends it, unverified and not partial
    intro acc i c hc
    cases ht : holds.test i with
    | error e => simp [ht, bind, Except.bind] at hc
    | ok b =>
      simp only [ht, bind, Except.bind, pure, Except.pure] at hc
      split at hc
      · exact Or.inl (Except.ok.inj hc).symm
      split at hc
      · exact Or.inl (Except.ok.inj hc).symm
      rename_i hv
      split at hc
      · exact Or.inl (Except.ok.inj hc).symm
      rename_i hp
      refine Or.inr ⟨(Except.ok.inj hc).symm, by simpa using hv, ?_⟩
      exact partial?_eq_none.1 (by simpa using hp)

/-- Ranking reorders the candidates. -/
theorem rank_perm (pk : Picker P) (cands : List UInt32) : (pk.rank cands).Perm cands := by
  unfold rank
  split
  · exact List.Perm.refl cands
  · split
    · exact List.mergeSort_perm cands _
    · exact List.Perm.refl cands

/-! ## What a selection hands out -/

/-- Every request of `ret` is of a partial piece of `pk`. -/
def OfPartials (pk : Picker P) (ret : List Request) : Prop :=
  ∀ r ∈ ret, ∃ q ∈ pk.partials, q.index = r.index

theorem ofPartials_nil (pk : Picker P) : OfPartials pk [] :=
  fun _ hr => absurd hr List.not_mem_nil

theorem index_takeFree (pe : P) (index : UInt32) (k : Nat) (ss : List (Slot P)) :
    ∀ r ∈ (takeFree pe index k ss).2, r.index = index := by
  fun_induction takeFree pe index k ss <;> simp_all [Slot.toRequest, Block.toRequest]

/-- Replacing a partial piece by one of the same index keeps the pieces requests are of. -/
theorem OfPartials.update {pk : Picker P} {ret : List Request} (h : OfPartials pk ret)
    (pp : PartialPiece P) : OfPartials (pk.update pp) ret := by
  intro r hr
  obtain ⟨q, hq, hidx⟩ := h r hr
  refine ⟨if q.index == pp.index then pp else q, List.mem_map_of_mem hq, ?_⟩
  split
  · rename_i hqp
    rw [← hidx]
    exact (beq_iff_eq.1 hqp).symm
  · exact hidx

/-- Taking blocks of a partial piece, by a rule that hands out blocks of that piece only. -/
theorem OfPartials.takeFrom {take : Nat → List (Slot P) → List (Slot P) × List Request}
    {index : UInt32} (htake : ∀ k ss, ∀ r ∈ (take k ss).2, r.index = index) {pk : Picker P}
    {ret : List Request} (h : OfPartials pk ret) (n : Nat) :
    OfPartials (pk.takeFrom take index n ret).1 (pk.takeFrom take index n ret).2 := by
  unfold Picker.takeFrom
  cases hp : pk.partial? index with
  | none => exact h
  | some pp =>
    obtain ⟨hmem, hidx⟩ := mem_of_partial? hp
    -- the new requests are of the piece found, which stays partial
    have hall : OfPartials pk (ret ++ (take (n - ret.length) pp.slots.toList).2) := by
      intro r hr
      rcases List.mem_append.1 hr with hr | hr
      · exact h r hr
      · exact ⟨pp, hmem, hidx.trans (htake _ _ r hr).symm⟩
    exact hall.update _

theorem OfPartials.fillPartials {pk : Picker P} {ret : List Request} (h : OfPartials pk ret)
    (pe : P) (n : Nat) (is : List UInt32) :
    OfPartials (fillPartials pe n is (pk, ret)).1 (fillPartials pe n is (pk, ret)).2 := by
  induction is generalizing pk ret with
  | nil => exact h
  | cons i is ih =>
    rw [fillPartials_cons]
    have h1 := h.takeFrom (index_takeFree pe i) n
    dsimp only
    split
    · exact h1
    · exact ih h1

theorem OfPartials.startFor {pk : Picker P} {ret : List Request} (h : OfPartials pk ret)
    (pe : P) (n : Nat) (parole : Bool) (i : UInt32) :
    OfPartials (startFor pe n parole pk ret i).1 (startFor pe n parole pk ret i).2 := by
  unfold Picker.startFor Picker.start
  dsimp only
  apply OfPartials.takeFrom (index_takeFree pe i)
  -- the piece started is inserted among the partial pieces, which all stay
  have hins : OfPartials
      { pk with partials := insertPartial (PartialPiece.fresh i (pk.pieceLength i)) pk.partials }
      ret := fun r hr => by
    obtain ⟨q, hq, hidx⟩ := h r hr
    exact ⟨q, mem_insertPartial.2 (.inr hq), hidx⟩
  exact hins.update _

theorem OfPartials.fillNew {pk : Picker P} {ret : List Request} (h : OfPartials pk ret)
    (pe : P) (n : Nat) (parole : Bool) (is : List UInt32) :
    OfPartials (fillNew pe n parole is (pk, ret)).1 (fillNew pe n parole is (pk, ret)).2 := by
  induction is generalizing pk ret with
  | nil => exact h
  | cons i is ih =>
    rw [fillNew_cons]
    have h1 := h.startFor pe n parole i
    dsimp only
    split
    · exact h1
    · exact ih h1

variable [DecidableEq P]

theorem fillDuplicates_cons (pe : P) (n : Nat) (i : UInt32) (is : List UInt32) (pk : Picker P)
    (ret : List Request) :
    fillDuplicates pe n (i :: is) (pk, ret) =
      let r := pk.takeFrom (takeDuplicate pe i) i n ret
      let pk' := if r.2.length > ret.length then { r.1 with endGame := true } else r.1
      if r.2.length == n then (pk', r.2) else fillDuplicates pe n is (pk', r.2) := rfl

theorem Inv.fillDuplicates {pk : Picker P} (h : pk.Inv) (pe : P) (n : Nat) (is : List UInt32)
    {ret : List Request} (hret : ret.length ≤ n) :
    (fillDuplicates pe n is (pk, ret)).1.Inv ∧
      (fillDuplicates pe n is (pk, ret)).2.length ≤ n := by
  induction is generalizing pk ret with
  | nil => exact ⟨h, hret⟩
  | cons i is ih =>
    rw [fillDuplicates_cons]
    obtain ⟨h1, hret1⟩ := h.takeFrom (takeDuplicate_rule pe i) i hret
    -- marking end-game changes nothing the invariant reads
    have h1' : (if (pk.takeFrom (takeDuplicate pe i) i n ret).2.length > ret.length then
        { (pk.takeFrom (takeDuplicate pe i) i n ret).1 with endGame := true }
        else (pk.takeFrom (takeDuplicate pe i) i n ret).1).Inv := by
      split
      · exact h1.frame rfl rfl rfl rfl
      · exact h1
    dsimp only
    split
    · exact ⟨h1', hret1⟩
    · exact ih h1' hret1

/-- The third tier changes no received block: duplicates are only asked of requested blocks. -/
theorem keeps_fillDuplicates (pe : P) (n : Nat) (is : List UInt32) (pk : Picker P)
    (ret : List Request) : Keeps pk (fillDuplicates pe n is (pk, ret)).1 := by
  induction is generalizing pk ret with
  | nil => exact Keeps.refl pk
  | cons i is ih =>
    rw [fillDuplicates_cons]
    have h1 := keeps_takeFrom (takeDuplicate_rule pe i) pk i n ret
    -- marking end-game changes no block
    have h1' : Keeps pk (if (pk.takeFrom (takeDuplicate pe i) i n ret).2.length > ret.length then
        { (pk.takeFrom (takeDuplicate pe i) i n ret).1 with endGame := true }
        else (pk.takeFrom (takeDuplicate pe i) i n ret).1) := by
      split
      · exact h1.trans ⟨rfl, rfl, rfl, received_of_partials rfl⟩
      · exact h1
    dsimp only
    split
    · exact h1'
    · exact h1'.trans (ih _ _)

/-! ## Selection -/

/-- A selection keeps the invariant, returns at most `n` requests, and changes no received block,
piece or verified piece. -/
theorem Inv.select {pk pk' : Picker P} (h : pk.Inv) {pe : P} {holds : Bitfield} {n : Int}
    {parole : Bool} {rs : List Request} (hs : pk.select pe holds n parole = .ok (rs, pk')) :
    pk'.Inv ∧ rs.length ≤ n.toNat ∧ Keeps pk pk' := by
  unfold Picker.select at hs
  split at hs
  · -- nothing asked for, or nothing left to download
    simp only [Except.pure_eq_ok, Prod.mk.injEq] at hs
    obtain ⟨rfl, rfl⟩ := hs
    exact ⟨h, by simp, Keeps.refl _⟩
  rw [Except.bind_eq_ok] at hs
  obtain ⟨es, -, hs⟩ := hs
  dsimp only at hs
  -- tier one
  have hk1 := keeps_fillPartials pe n.toNat (pk.rank es) pk []
  generalize hr1 : Picker.fillPartials pe n.toNat (pk.rank es) (pk, []) = r1 at hs hk1
  obtain ⟨pk1, ret1⟩ := r1
  have hinv1 := h.fillPartials pe n.toNat (pk.rank es)
    (show ([] : List Request).length ≤ n.toNat from Nat.zero_le _)
  rw [hr1] at hinv1
  obtain ⟨h1, hret1⟩ := hinv1
  dsimp only at hs h1 hret1 hk1
  split at hs
  · simp only [Except.pure_eq_ok, Prod.mk.injEq] at hs
    obtain ⟨rfl, rfl⟩ := hs
    exact ⟨h1, hret1, hk1⟩
  rename_i hne1
  -- tier two: the new pieces, in the ranker's order
  rw [Except.bind_eq_ok] at hs
  obtain ⟨is, his, hs⟩ := hs
  obtain ⟨hnd, hcand⟩ := newPieces_spec his
  have hperm := rank_perm pk1 is
  have hlt1 : ret1.length < n.toNat := by
    simp only [beq_iff_eq] at hne1
    omega
  have hinv2 := h1.fillNew pe n.toNat parole (hperm.nodup_iff.2 hnd)
    (fun i hi => hcand i (hperm.mem_iff.1 hi)) hlt1
  generalize Picker.fillNew pe n.toNat parole (pk1.rank is) (pk1, ret1) = r2 at hs hinv2
  obtain ⟨pk2, ret2⟩ := r2
  obtain ⟨h2, hret2, hk2⟩ := hinv2
  dsimp only at hs h2 hret2 hk2
  split at hs
  · simp only [Except.pure_eq_ok, Prod.mk.injEq] at hs
    obtain ⟨rfl, rfl⟩ := hs
    exact ⟨h2, hret2, hk1.trans hk2⟩
  -- tier three
  rw [Except.bind_eq_ok] at hs
  obtain ⟨es', -, hs⟩ := hs
  simp only [Except.pure_eq_ok, Prod.mk.injEq] at hs
  obtain ⟨rfl, rfl⟩ := hs
  obtain ⟨h3, hret3⟩ := h2.fillDuplicates pe n.toNat (pk2.rank es') hret2
  exact ⟨h3, hret3, hk1.trans (hk2.trans (keeps_fillDuplicates pe n.toNat (pk2.rank es') pk2 ret2))⟩

theorem index_takeDuplicate (pe : P) (index : UInt32) (k : Nat) (ss : List (Slot P)) :
    ∀ r ∈ (takeDuplicate pe index k ss).2, r.index = index := by
  fun_induction takeDuplicate pe index k ss <;> simp_all [Slot.toRequest, Block.toRequest]

theorem OfPartials.fillDuplicates {pk : Picker P} {ret : List Request} (h : OfPartials pk ret)
    (pe : P) (n : Nat) (is : List UInt32) :
    OfPartials (fillDuplicates pe n is (pk, ret)).1 (fillDuplicates pe n is (pk, ret)).2 := by
  induction is generalizing pk ret with
  | nil => exact h
  | cons i is ih =>
    rw [fillDuplicates_cons]
    have h1 := h.takeFrom (index_takeDuplicate pe i) n
    -- marking end-game keeps the partial pieces
    have h1' : OfPartials (if (pk.takeFrom (takeDuplicate pe i) i n ret).2.length > ret.length then
        { (pk.takeFrom (takeDuplicate pe i) i n ret).1 with endGame := true }
        else (pk.takeFrom (takeDuplicate pe i) i n ret).1)
        (pk.takeFrom (takeDuplicate pe i) i n ret).2 := by
      split <;> exact h1
    dsimp only
    split
    · exact h1'
    · exact ih h1'

/-- **A selection hands out blocks of partial pieces only.** -/
theorem ofPartials_select {pk pk' : Picker P} {pe : P} {holds : Bitfield} {n : Int}
    {parole : Bool} {rs : List Request} (hs : pk.select pe holds n parole = .ok (rs, pk')) :
    OfPartials pk' rs := by
  unfold Picker.select at hs
  split at hs
  · simp only [Except.pure_eq_ok, Prod.mk.injEq] at hs
    obtain ⟨rfl, rfl⟩ := hs
    exact ofPartials_nil pk
  rw [Except.bind_eq_ok] at hs
  obtain ⟨es, -, hs⟩ := hs
  dsimp only at hs
  -- tier one
  have h1 := (ofPartials_nil pk).fillPartials pe n.toNat (pk.rank es)
  generalize Picker.fillPartials pe n.toNat (pk.rank es) (pk, []) = r1 at hs h1
  obtain ⟨pk1, ret1⟩ := r1
  dsimp only at hs h1
  split at hs
  · simp only [Except.pure_eq_ok, Prod.mk.injEq] at hs
    obtain ⟨rfl, rfl⟩ := hs
    exact h1
  -- tier two
  rw [Except.bind_eq_ok] at hs
  obtain ⟨is, -, hs⟩ := hs
  have h2 := h1.fillNew pe n.toNat parole (pk1.rank is)
  generalize Picker.fillNew pe n.toNat parole (pk1.rank is) (pk1, ret1) = r2 at hs h2
  obtain ⟨pk2, ret2⟩ := r2
  dsimp only at hs h2
  split at hs
  · simp only [Except.pure_eq_ok, Prod.mk.injEq] at hs
    obtain ⟨rfl, rfl⟩ := hs
    exact h2
  -- tier three
  rw [Except.bind_eq_ok] at hs
  obtain ⟨es', -, hs⟩ := hs
  simp only [Except.pure_eq_ok, Prod.mk.injEq] at hs
  obtain ⟨rfl, rfl⟩ := hs
  exact h2.fillDuplicates pe n.toNat (pk2.rank es')

/-- A selection hands out no block of a verified piece. -/
theorem Inv.select_unverified {pk pk' : Picker P} (h : pk.Inv) {pe : P} {holds : Bitfield}
    {n : Int} {parole : Bool} {rs : List Request}
    (hs : pk.select pe holds n parole = .ok (rs, pk')) :
    ∀ r ∈ rs, pk.verified.getD r.index = false := by
  obtain ⟨h', -, hk⟩ := h.select hs
  intro r hr
  obtain ⟨q, hq, hidx⟩ := ofPartials_select hs r hr
  rw [← hk.verified, ← hidx]
  exact (h'.tracks q hq).unverified

end Picker

end BitTorrent
