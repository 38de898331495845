import BitTorrent.Proofs.Picker.Grants

/-!
# The three tiers of a selection

Each tier of `Picker.select` is a run of rounds over candidate pieces in the ranker's order
(`rounds`): a round takes blocks of one piece by a rule, and the tier stops once `n` requests
are held. `rounds_spec` proves what a whole tier does (`Tier`) from what one round does
(`Round`), by induction over the candidates left, with the visited ones in front:

* the picker keeps its invariant, only grants `pe` blocks, and starts no piece but candidates;
* the requests added are of candidate pieces, in the ranker's order and then by offset
  (`Before`), and they are granted to `pe`;
* when the tier ends short of `n`, every candidate meets the round's exhaustion condition.

The three round lemmas (`round_takeFree`, `round_start`, `round_duplicate`) say where each tier
takes blocks from: free blocks of partial pieces, pieces not partial before, and blocks requested
from other peers only. `fillPartials_tier`, `fillNew_tier` and `fillDuplicates_tier` state the
tiers.
-/

namespace BitTorrent

namespace Picker

variable {P : Type}

/-! ## Rounds of a tier -/

/-- The order in which a tier tries pieces: by index, or by fewest holders and then by index. -/
def Precedes (pk : Picker P) (i j : UInt32) : Prop :=
  match pk.ranker with
  | .indexOrder => i < j
  | .rarestFirst => pk.availability.getD i.toNat 0 < pk.availability.getD j.toNat 0 ∨
      (pk.availability.getD i.toNat 0 = pk.availability.getD j.toNat 0 ∧ i < j)

/-- Request `a` comes before request `b` within a tier: its piece is tried first, or it is an
earlier block of the same piece. -/
def Before (pk : Picker P) (a b : Request) : Prop :=
  pk.Precedes a.index b.index ∨ (a.index = b.index ∧ a.begin < b.begin)

theorem Precedes.ne {pk : Picker P} {i j : UInt32} (h : pk.Precedes i j) : i ≠ j := by
  rintro rfl
  unfold Precedes at h
  split at h
  · exact absurd h (by simp)
  · rcases h with h | ⟨-, h⟩
    · exact absurd h (Nat.lt_irrefl _)
    · exact absurd h (by simp)

/-- Rounds of a tier over candidate pieces, each adding requests, until `n` are held. -/
def rounds (n : Nat) (step : Picker P × List Request → UInt32 → Picker P × List Request) :
    List UInt32 → Picker P × List Request → Picker P × List Request
  | [], acc => acc
  | i :: is, acc =>
    let r := step acc i
    if r.2.length == n then r else rounds n step is r

/-- Granting blocks keeps the ranker's order. -/
theorem Grants.before {pe : P} {parole : Bool} {pk pk' : Picker P} (hg : Grants pe parole pk pk') :
    pk'.Before = pk.Before := by
  unfold Before Precedes
  rw [hg.ranker, hg.availability]

variable [DecidableEq P]

/-- One round of a tier on piece `i`, from `acc` to `acc'`: it grants `pe` some blocks `d` of
piece `i`, each satisfying `O`, in block order and no more than are still asked for, and
satisfies `E` at `i` when it grants fewer; it keeps the invariant and starts no piece but `i`. -/
structure Round (pe : P) (parole : Bool) (n : Nat) (O : Request → Prop)
    (E : Picker P → UInt32 → Prop) (i : UInt32) (acc acc' : Picker P × List Request) : Prop where
  grants : Grants pe parole acc.1 acc'.1
  inv : acc'.1.Inv
  starts : ∀ j, (acc'.1.partial? j).isSome → (acc.1.partial? j).isSome ∨ j = i
  granted : ∃ d, acc'.2 = acc.2 ++ d ∧ d.length ≤ n - acc.2.length ∧ (∀ r ∈ d, r.index = i ∧ O r) ∧
    d.Pairwise (fun a b => a.begin < b.begin) ∧
    (acc'.1.requestsOf pe).Perm (acc.1.requestsOf pe ++ d) ∧
    (d.length < n - acc.2.length → E acc'.1 i)

/-- What the rounds of a tier over the candidates `is` do, from `acc` to `acc'`: the picker keeps
the invariant and only grants `pe` blocks, starting no piece but candidates; the requests added
are of candidate pieces, each satisfying `O`, in the ranker's order and then in block order, and
are granted to `pe`; and when fewer than `n` are held at the end, every candidate satisfies `E`. -/
structure Tier (pe : P) (parole : Bool) (n : Nat) (O : Request → Prop)
    (E : Picker P → UInt32 → Prop) (is : List UInt32) (acc acc' : Picker P × List Request) :
    Prop where
  inv : acc'.1.Inv
  grants : Grants pe parole acc.1 acc'.1
  length_le : acc'.2.length ≤ n
  starts : ∀ j, (acc'.1.partial? j).isSome → (acc.1.partial? j).isSome ∨ j ∈ is
  added : ∃ D, acc'.2 = acc.2 ++ D ∧ (∀ r ∈ D, r.index ∈ is ∧ O r) ∧ D.Pairwise acc.1.Before ∧
    (acc'.1.requestsOf pe).Perm (acc.1.requestsOf pe ++ D)
  exhausted : acc'.2.length ≠ n → ∀ i ∈ is, E acc'.1 i

/-- A tier with no candidates changes nothing. -/
theorem Tier.nil {pe : P} {parole : Bool} {n : Nat} {O : Request → Prop}
    {E : Picker P → UInt32 → Prop} {pk : Picker P} (h : pk.Inv) {ret : List Request}
    (hret : ret.length ≤ n) : Tier pe parole n O E [] (pk, ret) (pk, ret) :=
  ⟨h, Grants.refl pe parole pk, hret, fun _ hj => .inl hj,
    ⟨[], by simp, by simp, List.Pairwise.nil, by simp⟩, fun _ _ hi => absurd hi List.not_mem_nil⟩

/-- **The rounds of a tier**, over candidates in the ranker's order, each round granting blocks
of its piece, make a tier. -/
theorem rounds_spec {pe : P} {parole : Bool} {n : Nat} {O : Request → Prop}
    {E : Picker P → UInt32 → Prop}
    (hE : ∀ pk pk' i, Grants pe parole pk pk' → E pk i → E pk' i)
    {step : Picker P × List Request → UInt32 → Picker P × List Request} {pk₀ : Picker P}
    {ret₀ : List Request} {is : List UInt32} (hsorted : is.Pairwise pk₀.Precedes)
    (hround : ∀ (acc : Picker P × List Request) (visited : List UInt32) (i : UInt32), i ∈ is →
      i ∉ visited → acc.1.Inv → Grants pe parole pk₀ acc.1 → acc.2.length < n →
      (∀ j, (acc.1.partial? j).isSome → (pk₀.partial? j).isSome ∨ j ∈ visited) →
      Round pe parole n O E i acc (step acc i))
    (h₀ : pk₀.Inv) (hret₀ : ret₀.length < n) :
    Tier pe parole n O E is (pk₀, ret₀) (rounds n step is (pk₀, ret₀)) := by
  have hnd : is.Nodup := hsorted.imp Precedes.ne
  -- the rounds run over the candidates left, with the visited ones in front of them
  suffices key : ∀ (rest visited : List UInt32) (acc : Picker P × List Request), is = visited ++ rest →
      acc.1.Inv → Grants pe parole pk₀ acc.1 → acc.2.length < n →
      (∀ j, (acc.1.partial? j).isSome → (pk₀.partial? j).isSome ∨ j ∈ visited) →
      (∀ i ∈ visited, E acc.1 i) →
      (∃ D, acc.2 = ret₀ ++ D ∧ (∀ r ∈ D, r.index ∈ visited ∧ O r) ∧ D.Pairwise pk₀.Before ∧
        (acc.1.requestsOf pe).Perm (pk₀.requestsOf pe ++ D)) →
      Tier pe parole n O E is (pk₀, ret₀) (rounds n step rest acc) by
    exact key is [] (pk₀, ret₀) rfl h₀ (Grants.refl pe parole pk₀) hret₀
      (fun j hj => .inl hj) (fun _ hi => absurd hi List.not_mem_nil)
      ⟨[], by simp, by simp, List.Pairwise.nil, by simp⟩
  intro rest
  induction rest with
  | nil =>
    intro visited acc his hinv hg hlt hnew hE' hD
    rw [List.append_nil] at his
    subst his
    exact ⟨hinv, hg, Nat.le_of_lt hlt, hnew, hD, fun _ => hE'⟩
  | cons i rest ih =>
    intro visited acc his hinv hg hlt hnew hE' hDs
    obtain ⟨D, hD, hDmem, hDsort, hDperm⟩ := hDs
    have hi : i ∈ is := by rw [his]; simp
    have hiv : i ∉ visited := by
      rw [his] at hnd
      exact fun hv => (List.nodup_append.1 hnd).2.2 i hv i List.mem_cons_self rfl
    -- the candidates visited come before `i` and the ones after it
    have hbefore : ∀ a ∈ visited, pk₀.Precedes a i := by
      rw [his] at hsorted
      exact fun a ha => (List.pairwise_append.1 hsorted).2.2 a ha i List.mem_cons_self
    obtain ⟨hgr, hinv', hstarts, d, hd, hdlen, hdmem, hdsort, hdperm, hdE⟩ :=
      hround acc visited i hi hiv hinv hg hlt hnew
    have hg' := hg.trans hgr
    have hD' : (step acc i).2 = ret₀ ++ (D ++ d) := by rw [hd, hD, List.append_assoc]
    have hmem' : ∀ r ∈ D ++ d, r.index ∈ visited ++ [i] ∧ O r := by
      intro r hr
      rcases List.mem_append.1 hr with hr | hr
      · exact ⟨List.mem_append_left _ (hDmem r hr).1, (hDmem r hr).2⟩
      · exact ⟨by simp [(hdmem r hr).1], (hdmem r hr).2⟩
    have hsort' : (D ++ d).Pairwise pk₀.Before := by
      refine List.pairwise_append.2 ⟨hDsort, hdsort.imp_of_mem fun ha hb hab =>
        .inr ⟨(hdmem _ ha).1.trans (hdmem _ hb).1.symm, hab⟩, fun a ha b hb => ?_⟩
      exact .inl ((hdmem b hb).1 ▸ hbefore a.index (hDmem a ha).1)
    have hperm' : ((step acc i).1.requestsOf pe).Perm (pk₀.requestsOf pe ++ (D ++ d)) := by
      rw [← List.append_assoc]
      exact hdperm.trans (hDperm.append_right d)
    have hnew' : ∀ j, ((step acc i).1.partial? j).isSome → (pk₀.partial? j).isSome ∨ j ∈ is := by
      intro j hj
      rcases hstarts j hj with hj | rfl
      · rcases hnew j hj with hj | hj
        · exact .inl hj
        · exact .inr (by rw [his]; exact List.mem_append_left _ hj)
      · exact .inr hi
    have hlen : (step acc i).2.length = acc.2.length + d.length := by rw [hd, List.length_append]
    have hsub : ∀ j ∈ visited ++ [i], j ∈ is := by
      intro j hj
      rw [his]
      simp only [List.mem_append, List.mem_cons] at hj ⊢
      tauto
    simp only [rounds]
    split
    · -- the round fills the request: the tier stops here
      rename_i hfull
      have hfull : (step acc i).2.length = n := by simpa using hfull
      refine ⟨hinv', hg', hfull.le, hnew', ⟨D ++ d, hD', fun r hr => ?_, hsort', hperm'⟩,
        fun hne => absurd hfull hne⟩
      exact ⟨hsub _ (hmem' r hr).1, (hmem' r hr).2⟩
    · rename_i hfull
      have hfull : (step acc i).2.length ≠ n := by simpa using hfull
      have hlt' : (step acc i).2.length < n := by omega
      refine ih (visited ++ [i]) (step acc i) (by rw [his]; simp) hinv' hg' hlt' ?_ ?_
        ⟨D ++ d, hD', hmem', hsort', hperm'⟩
      · intro j hj
        rcases hstarts j hj with hj | rfl
        · rcases hnew j hj with hj | hj
          · exact .inl hj
          · exact .inr (List.mem_append_left _ hj)
        · exact .inr (by simp)
      · intro j hj
        rcases List.mem_append.1 hj with hj | hj
        · exact hE _ _ j hgr (hE' j hj)
        · rw [List.mem_singleton.1 hj]
          exact hdE (by omega)

/-- A tier that ends short of `n` started short of it. -/
theorem Tier.length_ne {pe : P} {parole : Bool} {n : Nat} {O : Request → Prop}
    {E : Picker P → UInt32 → Prop} {is : List UInt32} {acc acc' : Picker P × List Request}
    (t : Tier pe parole n O E is acc acc') (h : acc'.2.length ≠ n) : acc.2.length ≠ n := by
  obtain ⟨D, hD, -⟩ := t.added
  have hle := t.length_le
  rw [hD, List.length_append] at hle h
  omega

/-! ## The rounds of the three tiers -/

omit [DecidableEq P] in
theorem fillPartials_eq_rounds (pe : P) (n : Nat) (is : List UInt32) (acc : Picker P × List Request) :
    fillPartials pe n is acc =
      rounds n (fun acc i => acc.1.takeFrom (takeFree pe i) i n acc.2) is acc := by
  induction is generalizing acc with
  | nil => rfl
  | cons i is ih =>
    obtain ⟨pk, ret⟩ := acc
    simp only [fillPartials_cons, rounds, ih]

omit [DecidableEq P] in
theorem fillNew_eq_rounds (pe : P) (n : Nat) (parole : Bool) (is : List UInt32)
    (acc : Picker P × List Request) :
    fillNew pe n parole is acc = rounds n (fun acc i => startFor pe n parole acc.1 acc.2 i) is acc := by
  induction is generalizing acc with
  | nil => rfl
  | cons i is ih =>
    obtain ⟨pk, ret⟩ := acc
    simp only [fillNew_cons, rounds, ih]

/-- A round of the third tier: duplicates of the blocks of piece `i`, and end-game once one is
taken. -/
def duplicateRound (pe : P) (n : Nat) (acc : Picker P × List Request) (i : UInt32) :
    Picker P × List Request :=
  let r := acc.1.takeFrom (takeDuplicate pe i) i n acc.2
  (if r.2.length > acc.2.length then { r.1 with endGame := true } else r.1, r.2)

theorem fillDuplicates_eq_rounds (pe : P) (n : Nat) (is : List UInt32)
    (acc : Picker P × List Request) :
    fillDuplicates pe n is acc = rounds n (duplicateRound pe n) is acc := by
  induction is generalizing acc with
  | nil => rfl
  | cons i is ih =>
    obtain ⟨pk, ret⟩ := acc
    simp only [fillDuplicates_cons, rounds, duplicateRound, ih]

omit [DecidableEq P] in
/-- Taking blocks of partial piece `i` by a rule: the piece with the blocks taken in place. -/
theorem takeFrom_of_partial {take : Nat → List (Slot P) → List (Slot P) × List Request}
    {pk : Picker P} {i : UInt32} {pp : PartialPiece P} (hp : pk.partial? i = some pp) (n : Nat)
    (ret : List Request) :
    pk.takeFrom take i n ret = (pk.update { pp with slots := (take (n - ret.length)
      pp.slots.toList).1.toArray }, ret ++ (take (n - ret.length) pp.slots.toList).2) := by
  unfold takeFrom
  rw [hp]

/-- A round of the first tier, on a piece partial when the tier starts: the free blocks it takes
were free when the tier started, and when it takes fewer than it may it leaves no free block. -/
theorem round_takeFree {pe : P} {parole : Bool} {pk₀ pk : Picker P} (h : pk.Inv)
    (hg₀ : Grants pe parole pk₀ pk) {n : Nat} {ret : List Request} (hret : ret.length < n)
    {i : UInt32} (hi : (pk₀.partial? i).isSome) :
    Round pe parole n (fun r => ∃ s, pk₀.slot? r = some s ∧ s.state = .free) Exhausted i (pk, ret)
      (pk.takeFrom (takeFree pe i) i n ret) := by
  obtain ⟨pp₀, hp₀⟩ := Option.isSome_iff_exists.1 hi
  obtain ⟨pp, hp, -⟩ := hg₀.old i pp₀ hp₀
  obtain ⟨hmem, hidx⟩ := mem_of_partial? hp
  have ht := h.tracks pp hmem
  have hinv := h.takeFrom (takeFree_rule pe i) i (n := n) hret.le
  rw [takeFrom_of_partial hp] at hinv ⊢
  -- a free block has no requester, so it is not requested from `pe`
  have hss : ∀ s ∈ pp.slots.toList, s.state = .free → pe ∉ s.requested := fun s hs hfree => by
    simp [(ht.sound.slots s hs).requested_eq_nil (by simp [hfree])]
  set k := n - ret.length
  set res := takeFree pe i k pp.slots.toList
  have hgp : pp.GrantedFrom pe { pp with slots := res.1.toArray } :=
    ⟨rfl, rfl, rfl, by simpa using forall₂_takeFree pe i k pp.slots.toList hss⟩
  have hlookup : (pk.update { pp with slots := res.1.toArray }).partial? i =
      some { pp with slots := res.1.toArray } := by
    rw [partial?_update, hp, Option.map_some, if_pos (by simp)]
  refine ⟨grants_update hp hgp, hinv.1, fun j hj => .inl ?_, res.2, rfl,
    (takeFree_rule pe i).count k _, fun r hr => ?_, ?_, ?_, fun hlt => ?_⟩
  · rw [partial?_update] at hj
    simpa using hj
  · -- a free block of the piece now was free when the tier started
    refine ⟨index_takeFree pe i k _ r hr, ?_⟩
    rw [takeFree_snd] at hr
    obtain ⟨s, hs, rfl⟩ := List.mem_map.1 hr
    have hs' := List.mem_filter.1 (List.mem_of_mem_take hs)
    have hfree : s.state = .free := by simpa using hs'.2
    rcases hg₀.slot? (h.slot?_toRequest hp hs'.1) with ⟨s₀, hs₀, hst⟩ | ⟨hnone, -⟩
    · have heq := hst.eq_of_free hfree
      subst heq
      exact ⟨s, hs₀, hfree⟩
    · change pk₀.partial? i = none at hnone
      rw [hp₀] at hnone
      cases hnone
  · rw [takeFree_snd]
    exact pairwise_begin_take ht.sound.blocks _ k i
  · refine requestsOf_update_perm h hmem
      (show ({ pp with slots := res.1.toArray } : PartialPiece P).index = pp.index from rfl) pe ?_
    have := perm_takeFree pe i k pp.slots.toList hss
    simpa [PartialPiece.requestsOf, hidx] using this
  · exact ⟨_, hlookup, fun t htm => takeFree_exhausts pe i k _ hlt t (by simpa using htm)⟩

omit [DecidableEq P] in
/-- A round of the second tier inserts the piece started for `pe` with its free blocks taken, and
leaves end-game. -/
theorem startFor_eq (pe : P) (n : Nat) (parole : Bool) {pk : Picker P} (ret : List Request)
    {i : UInt32} (hfresh : ∀ q ∈ pk.partials, q.index ≠ i) :
    startFor pe n parole pk ret i =
      ({ pk with
          partials := insertPartial { pk.started pe parole i with slots :=
            (takeFree pe i (n - ret.length) (pk.started pe parole i).slots.toList).1.toArray }
            pk.partials,
          endGame := false },
        ret ++ (takeFree pe i (n - ret.length) (pk.started pe parole i).slots.toList).2) := by
  have hidx := index_started pk pe parole i
  have hfresh' : ∀ q ∈ pk.partials, q.index ≠ (pk.started pe parole i).index := fun q hq => by
    rw [hidx]
    exact hfresh q hq
  -- starting the piece and then replacing it is inserting the replacement
  have hround : startFor pe n parole pk ret i =
      ({ (pk.start i).2.update (pk.started pe parole i) with endGame := false } : Picker P).takeFrom
        (takeFree pe i) i n ret := by
    cases parole <;> rfl
  have hstart : ({ (pk.start i).2.update (pk.started pe parole i) with endGame := false } :
      Picker P) = { ({ pk with endGame := false } : Picker P) with
        partials := insertPartial (pk.started pe parole i)
          ({ pk with endGame := false } : Picker P).partials } := by
    simp only [start, Picker.update]
    rw [update_insertPartial
      (show ∀ q ∈ pk.partials, q.index ≠ (PartialPiece.fresh i (pk.pieceLength i) : PartialPiece P).index
        from hfresh)
      (show (pk.started pe parole i).index = (PartialPiece.fresh i (pk.pieceLength i) :
        PartialPiece P).index from hidx)]
  rw [hround, hstart]
  have := @takeFrom_insertPartial P (takeFree pe i) { pk with endGame := false }
    (pk.started pe parole i) hfresh' n ret
  rw [hidx] at this
  rw [this]
  simp only [hidx]

/-- A round of the second tier, on a piece of the torrent that is neither verified nor partial:
it starts the piece, and when it takes fewer blocks than it may it leaves none free. -/
theorem round_start {pe : P} {parole : Bool} {pk₀ pk : Picker P} (h : pk.Inv)
    (hg₀ : Grants pe parole pk₀ pk) {n : Nat} {ret : List Request} (hret : ret.length < n)
    {i : UInt32} (hnone : pk.partial? i = none) (hnone₀ : pk₀.partial? i = none)
    (hlt : i < pk₀.numPieces) (hv : pk₀.verified.getD i = false) :
    Round pe parole n (fun r => pk₀.partial? r.index = none) Exhausted i (pk, ret)
      (startFor pe n parole pk ret i) := by
  have hfresh := partial?_eq_none.1 hnone
  have hinv := h.startFor pe parole hfresh (hg₀.verified ▸ hv) (hg₀.numPieces ▸ hlt) hret
  rw [startFor_eq pe n parole ret hfresh] at hinv ⊢
  have hidx := index_started pk pe parole i
  have hblocks : (pk.started pe parole i).slots.toList.map (·.block) = Block.all (pk.pieceLength i) := by
    rw [slots_started]
    exact PartialPiece.fresh_blocks i _
  -- the blocks of the started piece are fresh: free, with no requester
  have hnil : ∀ s ∈ (pk.started pe parole i).slots.toList, pe ∉ s.requested := fun s hs => by
    simp [(fresh_of_mem_started hs).2]
  set st := pk.started pe parole i
  have hss : ∀ s ∈ st.slots.toList, s.state = .free → pe ∉ s.requested := fun s hs _ => hnil s hs
  set k := n - ret.length
  set res := takeFree pe i k st.slots.toList
  set pp' : PartialPiece P := { st with slots := res.1.toArray } with hpp'
  have hidx' : pp'.index = i := hidx
  have hlookup : ∀ j, ({ pk with partials := insertPartial pp' pk.partials, endGame := false } :
      Picker P).partial? j = if j = i then some pp' else pk.partial? j := fun j => by
    have := partial?_insertPartial pk
      (show ∀ q ∈ pk.partials, q.index ≠ pp'.index from fun q hq => hidx' ▸ hfresh q hq) j
    rw [hidx'] at this
    exact this
  refine ⟨⟨rfl, rfl, rfl, rfl, rfl, fun j q hq => ?_, fun j q hq hjnone => ?_⟩, hinv.1,
    fun j hj => ?_, res.2, rfl, (takeFree_rule pe i).count k _, fun r hr => ?_, ?_, ?_,
    fun hshort => ?_⟩
  · -- a piece partial before is not the one started
    have hji : j ≠ i := by
      rintro rfl
      rw [hnone] at hq
      cases hq
    exact ⟨q, by rw [hlookup, if_neg hji, hq], PartialPiece.GrantedFrom.refl pe q⟩
  · rw [hlookup] at hq
    split at hq
    · rename_i hji
      subst hji
      have hq' := (Option.some.inj hq).symm
      subst hq'
      exact ⟨rfl, rfl, rfl, by simpa [hpp'] using forall₂_takeFree pe j k st.slots.toList hss⟩
    · rw [hjnone] at hq
      cases hq
  · rw [hlookup] at hj
    split at hj
    · exact .inr ‹_›
    · exact .inl hj
  · exact ⟨index_takeFree pe i k _ r hr, by rw [index_takeFree pe i k _ r hr]; exact hnone₀⟩
  · rw [takeFree_snd]
    exact pairwise_begin_take hblocks _ k i
  · refine requestsOf_insert_perm pk _ pe ?_
    have := perm_takeFree pe i k st.slots.toList hss
    -- no block of the started piece was requested from `pe`
    have hnil' : st.slots.toList.filter (pe ∈ ·.requested) = [] :=
      List.filter_eq_nil_iff.2 fun s hs => by simpa using hnil s hs
    rw [hnil'] at this
    have hslots' : pp'.slots.toList = res.1 := by simp [hpp']
    simpa [PartialPiece.requestsOf, hidx', hslots'] using this
  · refine ⟨_, (hlookup i).trans (if_pos rfl), fun t ht => ?_⟩
    exact takeFree_exhausts pe i k _ hshort t (by simpa [hpp'] using ht)

/-- A round of the third tier changes the end-game flag of the picker taking from one piece, and
nothing else. -/
theorem duplicateRound_fst (pe : P) (n : Nat) (acc : Picker P × List Request) (i : UInt32) :
    ∃ b, (duplicateRound pe n acc i).1 =
      { (acc.1.takeFrom (takeDuplicate pe i) i n acc.2).1 with endGame := b } := by
  unfold duplicateRound
  dsimp only
  split
  · exact ⟨true, rfl⟩
  · exact ⟨_, rfl⟩

/-- A round of the third tier, on a piece partial when the tier starts: the blocks it takes were
requested from other peers only when the tier started. -/
theorem round_duplicate {pe : P} {parole : Bool} {pk₀ pk : Picker P} (h : pk.Inv)
    (hg₀ : Grants pe parole pk₀ pk) {n : Nat} {ret : List Request} (hret : ret.length < n)
    {i : UInt32} (hi : (pk₀.partial? i).isSome) :
    Round pe parole n
      (fun r => ∃ s, pk₀.slot? r = some s ∧ s.state = .requested ∧ pe ∉ s.requested)
      (fun _ _ => True) i (pk, ret) (duplicateRound pe n (pk, ret) i) := by
  obtain ⟨pp₀, hp₀⟩ := Option.isSome_iff_exists.1 hi
  obtain ⟨pp, hp, -⟩ := hg₀.old i pp₀ hp₀
  obtain ⟨hmem, hidx⟩ := mem_of_partial? hp
  have ht := h.tracks pp hmem
  have hinv := h.takeFrom (takeDuplicate_rule pe i) i (n := n) hret.le
  obtain ⟨b, hb⟩ := duplicateRound_fst pe n (pk, ret) i
  have hsnd : (duplicateRound pe n (pk, ret) i).2 = (pk.takeFrom (takeDuplicate pe i) i n ret).2 :=
    rfl
  rw [takeFrom_of_partial hp] at hinv hb hsnd
  set k := n - ret.length
  set res := takeDuplicate pe i k pp.slots.toList
  have hgp : pp.GrantedFrom pe { pp with slots := res.1.toArray } :=
    ⟨rfl, rfl, rfl, by simpa using forall₂_takeDuplicate pe i k pp.slots.toList⟩
  obtain ⟨acc', hacc⟩ : ∃ acc', duplicateRound pe n (pk, ret) i = acc' := ⟨_, rfl⟩
  rw [hacc] at hb hsnd ⊢
  obtain ⟨pk', ret'⟩ := acc'
  dsimp only at hb hsnd
  subst hb hsnd
  refine ⟨(grants_update hp hgp).trans (grants_endGame pe parole _ b), hinv.1.frame rfl rfl rfl rfl,
    fun j hj => .inl ?_, res.2, rfl, (takeDuplicate_rule pe i).count k _, fun r hr => ?_, ?_, ?_,
    fun _ => trivial⟩
  · change ((pk.update _).partial? j).isSome at hj
    rw [partial?_update] at hj
    simpa using hj
  · -- a block requested from others only now was so when the tier started
    refine ⟨index_takeDuplicate pe i k _ r hr, ?_⟩
    rw [takeDuplicate_snd] at hr
    obtain ⟨s, hs, rfl⟩ := List.mem_map.1 hr
    have hs' := List.mem_filter.1 (List.mem_of_mem_take hs)
    have hdup : s.state = .requested ∧ pe ∉ s.requested := by simpa using hs'.2
    rcases hg₀.slot? (h.slot?_toRequest hp hs'.1) with ⟨s₀, hs₀, hst⟩ | ⟨-, s₀, hfree, -, hst⟩
    · have heq := hst.eq_of_not_mem hdup.2
      subst heq
      exact ⟨s, hs₀, hdup⟩
    · rw [hst.eq_of_not_mem hdup.2, hfree] at hdup
      cases hdup.1
  · rw [takeDuplicate_snd]
    exact pairwise_begin_take ht.sound.blocks _ k i
  · refine requestsOf_update_perm h hmem
      (show ({ pp with slots := res.1.toArray } : PartialPiece P).index = pp.index from rfl) pe ?_
    have := perm_takeDuplicate pe i k pp.slots.toList
    simpa [PartialPiece.requestsOf, hidx] using this

/-! ## The three tiers -/

/-- The first tier, over partial pieces in the ranker's order, takes blocks that were free when it
started, and leaves every candidate without a free block unless it fills the request. -/
theorem fillPartials_tier {pk : Picker P} (h : pk.Inv) (pe : P) (parole : Bool) {n : Nat}
    {ret : List Request} (hret : ret.length < n) {is : List UInt32}
    (hsorted : is.Pairwise pk.Precedes) (hpartial : ∀ i ∈ is, (pk.partial? i).isSome) :
    Tier pe parole n (fun r => ∃ s, pk.slot? r = some s ∧ s.state = .free) Exhausted is (pk, ret)
      (fillPartials pe n is (pk, ret)) := by
  rw [fillPartials_eq_rounds]
  exact rounds_spec (E := Exhausted) (fun _ _ _ hg he => hg.exhausted he) hsorted
    (fun _ _ i hi _ hinv hg hlt _ => round_takeFree hinv hg hlt (hpartial i hi)) h hret

/-- The second tier, over new pieces in the ranker's order, starts them one at a time, and leaves
every candidate partial without a free block unless it fills the request. -/
theorem fillNew_tier {pk : Picker P} (h : pk.Inv) (pe : P) (parole : Bool) {n : Nat}
    {ret : List Request} (hret : ret.length < n) {is : List UInt32}
    (hsorted : is.Pairwise pk.Precedes)
    (hnew : ∀ i ∈ is, i < pk.numPieces ∧ pk.verified.getD i = false ∧ pk.partial? i = none) :
    Tier pe parole n (fun r => pk.partial? r.index = none) Exhausted is (pk, ret)
      (fillNew pe n parole is (pk, ret)) := by
  rw [fillNew_eq_rounds]
  refine rounds_spec (E := Exhausted) (fun _ _ _ hg he => hg.exhausted he) hsorted
    (fun acc visited i hi hiv hinv hg hlt hstarts => ?_) h hret
  obtain ⟨hlt', hv, hnone⟩ := hnew i hi
  -- a candidate not visited yet is not partial: only visited candidates were started
  have hnone' : acc.1.partial? i = none := by
    cases hp : acc.1.partial? i with
    | none => rfl
    | some _ =>
      rcases hstarts i (by simp [hp]) with hs | hs
      · simp [hnone] at hs
      · exact absurd hs hiv
  exact round_start hinv hg hlt hnone' hnone hlt' hv

/-- The third tier, over partial pieces in the ranker's order, takes blocks that were requested
from other peers only when it started. -/
theorem fillDuplicates_tier {pk : Picker P} (h : pk.Inv) (pe : P) (parole : Bool) {n : Nat}
    {ret : List Request} (hret : ret.length < n) {is : List UInt32}
    (hsorted : is.Pairwise pk.Precedes) (hpartial : ∀ i ∈ is, (pk.partial? i).isSome) :
    Tier pe parole n (fun r => ∃ s, pk.slot? r = some s ∧ s.state = .requested ∧ pe ∉ s.requested)
      (fun _ _ => True) is (pk, ret) (fillDuplicates pe n is (pk, ret)) := by
  rw [fillDuplicates_eq_rounds]
  exact rounds_spec (fun _ _ _ _ _ => trivial) hsorted
    (fun _ _ i hi _ hinv hg hlt _ => round_duplicate hinv hg hlt (hpartial i hi)) h hret

end Picker

end BitTorrent
