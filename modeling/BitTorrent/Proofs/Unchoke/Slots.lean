import BitTorrent.Unchoke.Unchoker
import Mathlib.Data.List.Perm.Subperm
import Mathlib.Data.List.Nodup

/-!
# The upload slots

What the unchoker says about a peer is its view: whether it holds a regular slot, whether it
holds an optimistic one, and its record with the choking and optimistic flags. Each operation
on one peer sets its view and leaves every other peer's alone (`view_choke`, `view_unchoke`,
`view_unchokeOptimistic`); a round is such operations over distinct peers.
-/

namespace BitTorrent

namespace Contender

/-- The record of a peer that is choked. -/
def choked (p : Contender) : Contender := { p with choking := true, optimistic := false }

/-- The record of a peer in a regular slot. -/
def regular (p : Contender) : Contender := { p with choking := false, optimistic := false }

/-- The record of a peer in an optimistic slot. -/
def optimisticSlot (p : Contender) : Contender := { p with choking := false, optimistic := true }

end Contender

/-- A bounded draw is below its bound. -/
theorem Draws.below_lt {k : ℕ} (hk : 0 < k) (d : Draws) : (d.below k).1 < k := by
  unfold Draws.below
  rcases d.int31 with ⟨v, d'⟩
  split
  · exact Nat.lt_of_le_of_lt Nat.and_le_right (by omega)
  · rcases Draws.redraw (Nat.pow 2 31 - 1 - Nat.pow 2 31 % k) (d.values.length + 1) v d' with
      ⟨w, d''⟩
    exact Nat.mod_lt _ hk

/-- Drawing entry `i` of the left-over list: the last entry moves into its place, so the list
left is the old one without the drawn entry. -/
theorem List.perm_of_draw {l : List String} (hl : l.Nodup) {i : ℕ} (hi : i < l.length) :
    List.Perm ((l.set i (l.getD (l.length - 1) "")).take (l.length - 1))
      (l.erase (l.getD i "")) := by
  obtain ⟨xs, z, rfl⟩ : ∃ xs z, l = xs ++ [z] :=
    ⟨l.dropLast, l.getLast (List.ne_nil_of_length_pos (by omega)),
      (List.dropLast_append_getLast _).symm⟩
  have hz : z ∉ xs := fun h => (List.nodup_append.1 hl).2.2 z h z (List.mem_singleton_self z) rfl
  have hlen : (xs ++ [z]).length - 1 = xs.length := by simp
  have hlast : (xs ++ [z]).getD xs.length "" = z := by simp [List.getD_eq_getElem?_getD]
  rw [hlen, hlast]
  rcases Nat.lt_or_ge i xs.length with hi' | hi'
  · -- the drawn entry is not the last: the last takes its place
    have hxi : (xs ++ [z]).getD i "" = xs[i] := by
      simp [List.getD_eq_getElem?_getD, List.getElem?_append_left hi', List.getElem?_eq_getElem hi']
    rw [hxi, List.set_append_left i z hi', List.take_left' (List.length_set ..),
      List.erase_append_left _ (List.getElem_mem hi'),
      List.Nodup.erase_getElem (List.nodup_append.1 hl).1 i hi', List.set_eq_take_append_cons_drop,
      if_pos hi', List.eraseIdx_eq_take_drop_succ]
    exact List.perm_middle.trans (List.perm_append_singleton _ _).symm
  · -- the drawn entry is the last one
    have hi'' : i = xs.length := by
      simp at hi
      omega
    subst hi''
    rw [hlast, List.set_append_right _ _ (Nat.le_refl _), List.take_left' (by simp),
      List.erase_append_right _ hz]
    simp

namespace Unchoker

variable {u : Unchoker} {n m : String}

/-- The names of the peers the unchoker knows. -/
def known (u : Unchoker) : List String := u.peers.map (·.name)

/-- What the unchoker says about one peer: whether it holds a regular slot, whether it holds an
optimistic one, and its record. -/
def view (u : Unchoker) (n : String) : Bool × Bool × Contender :=
  (u.unchoked.contains n, u.optimisticUnchoked.contains n, u.peer n)

/-- A peer's view once choked. -/
def View.choked (v : Bool × Bool × Contender) : Bool × Bool × Contender :=
  (false, false, v.2.2.choked)

/-- A peer's view once in a regular slot. -/
def View.regular (v : Bool × Bool × Contender) : Bool × Bool × Contender :=
  (true, false, v.2.2.regular)

/-- A peer's view once in an optimistic slot. -/
def View.optimistic (v : Bool × Bool × Contender) : Bool × Bool × Contender :=
  (false, true, v.2.2.optimisticSlot)

/-- The slot lists have no name twice. -/
structure Good (u : Unchoker) : Prop where
  unchoked : u.unchoked.Nodup
  optimistic : u.optimisticUnchoked.Nodup

theorem peer_modify (f : Contender → Contender) (hf : ∀ p, (f p).name = p.name)
    (hn : n ∈ u.known) (m : String) :
    (u.modify n f).peer m = if m = n then f (u.peer n) else u.peer m := by
  have hkeep : ((fun p : Contender => p.name == m) ∘
      fun p => if p.name == n then f p else p) = fun p => p.name == m := by
    funext p
    simp only [Function.comp]
    split <;> simp [hf]
  unfold peer modify
  rw [List.find?_map, hkeep]
  cases hfind : u.peers.find? (·.name == m) with
  | none =>
    -- no peer has the name, so it is not the one changed
    have hne : m ≠ n := by
      rintro rfl
      obtain ⟨p, hp, rfl⟩ := List.mem_map.1 hn
      simp only [List.find?_eq_none, beq_iff_eq] at hfind
      exact hfind p hp rfl
    simp [hne]
  | some p =>
    have hp : p.name = m := by simpa using List.find?_some hfind
    by_cases hmn : m = n
    · subst hmn
      simp [hp, hfind]
    · simp [hp, hmn]

theorem known_modify (f : Contender → Contender) (hf : ∀ p, (f p).name = p.name) :
    (u.modify n f).known = u.known := by
  unfold known modify
  rw [List.map_map]
  congr 1
  funext p
  simp only [Function.comp]
  split <;> simp [hf]

/-! ## The slot lists -/

theorem contains_erase {l : List String} (hl : l.Nodup) (n m : String) :
    (l.erase n).contains m = if m = n then false else l.contains m := by
  split
  · rename_i h
    subst h
    simpa using hl.not_mem_erase
  · rename_i h
    simp [List.mem_erase_of_ne h]

theorem contains_addName (s : List String) (n m : String) :
    (addName n s).contains m = if m = n then true else s.contains m := by
  unfold addName
  split <;> rename_i hn
  · split <;> rename_i h
    · subst h
      exact hn
    · rfl
  · split <;> rename_i h
    · simp [h]
    · simp [h]

theorem nodup_addName {s : List String} (hs : s.Nodup) (n : String) : (addName n s).Nodup := by
  unfold addName
  split <;> rename_i hn
  · exact hs
  · refine List.nodup_append.2 ⟨hs, List.nodup_cons.2 ⟨List.not_mem_nil, List.nodup_nil⟩, ?_⟩
    intro a ha b hb
    rw [List.mem_singleton] at hb
    subst hb
    rintro rfl
    exact hn (List.elem_iff.2 ha)

/-- What every operation keeps: the peers known, the slot counts and the round. -/
structure Frame (u u' : Unchoker) : Prop where
  known : u'.known = u.known
  regularSlots : u'.regularSlots = u.regularSlots
  optimisticSlots : u'.optimisticSlots = u.optimisticSlots
  round : u'.round = u.round

theorem Frame.refl (u : Unchoker) : Frame u u := ⟨rfl, rfl, rfl, rfl⟩

theorem Frame.trans {u₁ u₂ u₃ : Unchoker} (h₁ : Frame u₁ u₂) (h₂ : Frame u₂ u₃) : Frame u₁ u₃ :=
  ⟨h₂.known.trans h₁.known, h₂.regularSlots.trans h₁.regularSlots,
    h₂.optimisticSlots.trans h₁.optimisticSlots, h₂.round.trans h₁.round⟩

/-! ## One peer at a time -/

theorem Contender.with_choking_eq {p : Contender} {b : Bool} (h : p.choking = b) :
    { p with choking := b } = p := by
  cases p
  simp only at h
  subst h
  rfl

theorem Contender.choked_of_choking {p : Contender} (h : p.choking = true) :
    { p with optimistic := false } = p.choked := by
  cases p
  simp only at h
  subst h
  rfl

theorem peer_release (hn : n ∈ u.known) (m : String) :
    (u.release n).peer m = if m = n then { u.peer n with choking := false } else u.peer m := by
  unfold release
  split <;> rename_i hc
  · exact peer_modify (fun p => { p with choking := false }) (fun _ => rfl) hn m
  · split <;> rename_i h
    · subst h
      exact (Contender.with_choking_eq (by simpa using hc)).symm
    · rfl

theorem frame_release (n : String) : Frame u (u.release n) := by
  unfold release
  split
  · exact ⟨known_modify (fun p => { p with choking := false }) (fun _ => rfl), rfl, rfl, rfl⟩
  · exact Frame.refl u

theorem frame_choke (n : String) : Frame u (u.choke n) := by
  unfold choke
  dsimp only
  split
  · exact ⟨known_modify (fun p => { p with optimistic := false }) (fun _ => rfl), rfl, rfl, rfl⟩
  · exact ⟨(known_modify (fun p => { p with choking := true }) (fun _ => rfl)).trans
      (known_modify (fun p => { p with optimistic := false }) (fun _ => rfl)), rfl, rfl, rfl⟩

theorem frame_unchoke (n : String) : Frame u (u.unchoke n) := by
  unfold unchoke
  dsimp only
  refine Frame.trans ?_ (frame_release n)
  exact ⟨known_modify (fun p => { p with optimistic := false }) (fun _ => rfl), rfl, rfl, rfl⟩

theorem frame_unchokeOptimistic (n : String) : Frame u (u.unchokeOptimistic n) := by
  unfold unchokeOptimistic
  dsimp only
  refine Frame.trans ?_ (frame_release n)
  exact ⟨known_modify (fun p => { p with optimistic := true }) (fun _ => rfl), rfl, rfl, rfl⟩

@[simp] theorem peer_with_calls (v : Unchoker) (c : List String) (m : String) :
    ({ v with calls := c } : Unchoker).peer m = v.peer m := rfl

@[simp] theorem peer_with_unchoked (v : Unchoker) (l : List String) (m : String) :
    ({ v with unchoked := l } : Unchoker).peer m = v.peer m := rfl

@[simp] theorem peer_with_optimisticUnchoked (v : Unchoker) (l : List String) (m : String) :
    ({ v with optimisticUnchoked := l } : Unchoker).peer m = v.peer m := rfl

theorem peer_choke (hn : n ∈ u.known) (m : String) :
    (u.choke n).peer m = if m = n then (u.peer n).choked else u.peer m := by
  have hn₁ : n ∈ ({ u with unchoked := u.unchoked.erase n,
                           optimisticUnchoked := u.optimisticUnchoked.erase n } : Unchoker).known :=
    hn
  have hmod := peer_modify (fun p => { p with optimistic := false }) (fun _ => rfl) hn₁
  unfold choke
  dsimp only
  -- the optimistic flag is cleared first; choking is set after, unless already set
  split <;> rename_i hc
  · rw [hmod] at hc ⊢
    simp only [↓reduceIte] at hc
    split
    · exact Contender.choked_of_choking hc
    · rfl
  · rw [peer_with_calls, peer_modify (fun p => { p with choking := true }) (fun _ => rfl)]
    · simp only [hmod, ↓reduceIte]
      split <;> rfl
    · exact (known_modify (fun p => { p with optimistic := false }) (fun _ => rfl)).symm ▸ hn₁

theorem peer_unchoke (hn : n ∈ u.known) (m : String) :
    (u.unchoke n).peer m = if m = n then (u.peer n).regular else u.peer m := by
  have hn₁ : n ∈ ({ u with optimisticUnchoked := u.optimisticUnchoked.erase n } : Unchoker).known :=
    hn
  have hmod := peer_modify (fun p => { p with optimistic := false }) (fun _ => rfl) hn₁
  unfold unchoke
  dsimp only
  rw [peer_release]
  · simp only [peer_with_unchoked, hmod, peer_with_optimisticUnchoked]
    split <;> rfl
  · exact (known_modify (fun p => { p with optimistic := false }) (fun _ => rfl)).symm ▸ hn₁

theorem peer_unchokeOptimistic (hn : n ∈ u.known) (m : String) :
    (u.unchokeOptimistic n).peer m = if m = n then (u.peer n).optimisticSlot else u.peer m := by
  have hn₁ : n ∈ ({ u with unchoked := u.unchoked.erase n } : Unchoker).known := hn
  have hmod := peer_modify (fun p => { p with optimistic := true }) (fun _ => rfl) hn₁
  unfold unchokeOptimistic
  dsimp only
  rw [peer_release]
  · simp only [peer_with_optimisticUnchoked, hmod, peer_with_unchoked]
    split <;> rfl
  · exact (known_modify (fun p => { p with optimistic := true }) (fun _ => rfl)).symm ▸ hn₁

theorem sets_release (n : String) :
    (u.release n).unchoked = u.unchoked ∧
      (u.release n).optimisticUnchoked = u.optimisticUnchoked := by
  unfold release
  split <;> exact ⟨rfl, rfl⟩

theorem sets_choke (n : String) :
    (u.choke n).unchoked = u.unchoked.erase n ∧
      (u.choke n).optimisticUnchoked = u.optimisticUnchoked.erase n := by
  unfold choke
  dsimp only
  split <;> exact ⟨rfl, rfl⟩

theorem sets_unchoke (n : String) :
    (u.unchoke n).unchoked = addName n u.unchoked ∧
      (u.unchoke n).optimisticUnchoked = u.optimisticUnchoked.erase n := by
  unfold unchoke
  dsimp only
  exact sets_release n

theorem sets_unchokeOptimistic (n : String) :
    (u.unchokeOptimistic n).unchoked = u.unchoked.erase n ∧
      (u.unchokeOptimistic n).optimisticUnchoked = addName n u.optimisticUnchoked := by
  unfold unchokeOptimistic
  dsimp only
  exact sets_release n

theorem good_choke (hg : u.Good) (n : String) : (u.choke n).Good := by
  obtain ⟨hr, ho⟩ := sets_choke (u := u) n
  exact ⟨hr ▸ hg.unchoked.erase n, ho ▸ hg.optimistic.erase n⟩

theorem good_unchoke (hg : u.Good) (n : String) : (u.unchoke n).Good := by
  obtain ⟨hr, ho⟩ := sets_unchoke (u := u) n
  exact ⟨hr ▸ nodup_addName hg.unchoked n, ho ▸ hg.optimistic.erase n⟩

theorem good_unchokeOptimistic (hg : u.Good) (n : String) : (u.unchokeOptimistic n).Good := by
  obtain ⟨hr, ho⟩ := sets_unchokeOptimistic (u := u) n
  exact ⟨hr ▸ hg.unchoked.erase n, ho ▸ nodup_addName hg.optimistic n⟩

theorem view_choke (hg : u.Good) (hn : n ∈ u.known) (m : String) :
    (u.choke n).view m = if m = n then View.choked (u.view n) else u.view m := by
  obtain ⟨hr, ho⟩ := sets_choke (u := u) n
  unfold view View.choked
  rw [peer_choke hn, hr, ho, contains_erase hg.unchoked, contains_erase hg.optimistic]
  split <;> rfl

theorem view_unchoke (hg : u.Good) (hn : n ∈ u.known) (m : String) :
    (u.unchoke n).view m = if m = n then View.regular (u.view n) else u.view m := by
  obtain ⟨hr, ho⟩ := sets_unchoke (u := u) n
  unfold view View.regular
  rw [peer_unchoke hn, hr, ho, contains_addName, contains_erase hg.optimistic]
  split <;> rfl

theorem view_unchokeOptimistic (hg : u.Good) (hn : n ∈ u.known) (m : String) :
    (u.unchokeOptimistic n).view m = if m = n then View.optimistic (u.view n) else u.view m := by
  obtain ⟨hr, ho⟩ := sets_unchokeOptimistic (u := u) n
  unfold view View.optimistic
  rw [peer_unchokeOptimistic hn, hr, ho, contains_erase hg.unchoked, contains_addName]
  split <;> rfl

/-- An operation on one peer, applied to distinct known peers one after another, sets the view
of each of them and leaves every other peer's alone. -/
theorem view_foldl {op : Unchoker → String → Unchoker}
    {E : Bool × Bool × Contender → Bool × Bool × Contender}
    (hview : ∀ (u : Unchoker) n m, u.Good → n ∈ u.known →
      (op u n).view m = if m = n then E (u.view n) else u.view m)
    (hgood : ∀ (u : Unchoker) n, u.Good → (op u n).Good)
    (hframe : ∀ (u : Unchoker) n, Frame u (op u n)) :
    ∀ (l : List String) (u : Unchoker), l.Nodup → (∀ n ∈ l, n ∈ u.known) → u.Good →
      (l.foldl op u).Good ∧ Frame u (l.foldl op u) ∧
        ∀ m, (l.foldl op u).view m = if m ∈ l then E (u.view m) else u.view m
  | [], u, _, _, hg => ⟨hg, Frame.refl u, fun m => by simp⟩
  | n :: l, u, hnd, hk, hg => by
    rw [List.nodup_cons] at hnd
    have hk' : ∀ k ∈ l, k ∈ (op u n).known := fun k hkl =>
      (hframe u n).known ▸ hk k (List.mem_cons_of_mem n hkl)
    obtain ⟨hg', hf', hv'⟩ := view_foldl hview hgood hframe l (op u n) hnd.2 hk' (hgood u n hg)
    refine ⟨hg', (hframe u n).trans hf', fun m => ?_⟩
    rw [List.foldl_cons, hv', hview u n m hg (hk n List.mem_cons_self)]
    -- the peer changed first is not changed again
    by_cases hmn : m = n
    · subst hmn
      simp [hnd.1]
    · simp [hmn]

/-! ## A round -/

/-- Whether a ranked peer keeps its optimistic slot through a round that does not draw. -/
def keeps (optimistic : Bool) (u : Unchoker) (n : String) : Bool :=
  !optimistic && (u.peer n).optimistic && !(u.peer n).choking

/-- The ranked peers that compete for the regular slots: all but those keeping an optimistic
slot. -/
def contenders (optimistic : Bool) (u : Unchoker) (l : List String) : List String :=
  l.filter fun n => !keeps optimistic u n

/-- Going through the ranked peers gives regular slots to the first contenders, as many as are
free, leaves the rest over, and selects these and the peers keeping optimistic slots. -/
theorem assign_spec (opt : Bool) :
    ∀ (l : List String) (u : Unchoker) (sel : List String) (reg : ℕ) (rest : List String),
      l.Nodup → (∀ n ∈ l, n ∈ u.known) →
      (assign opt l (u, sel, reg, rest)).1 =
          ((contenders opt u l).take (u.regularSlots - reg).toNat).foldl unchoke u ∧
        (∀ n, n ∈ (assign opt l (u, sel, reg, rest)).2.1 ↔ n ∈ sel ∨
          n ∈ l ∧ (keeps opt u n ∨ n ∈ (contenders opt u l).take (u.regularSlots - reg).toNat)) ∧
        (assign opt l (u, sel, reg, rest)).2.2.2 =
          rest ++ (contenders opt u l).drop (u.regularSlots - reg).toNat
  | [], u, sel, reg, rest, _, _ => by simp [assign, contenders]
  | n :: l, u, sel, reg, rest, hnd, hk => by
    rw [List.nodup_cons] at hnd
    have hkl : ∀ m ∈ l, m ∈ u.known := fun m hm => hk m (List.mem_cons_of_mem n hm)
    have hne : ∀ m ∈ l, m ≠ n := fun m hm hmn => hnd.1 (hmn ▸ hm)
    unfold assign
    dsimp only
    by_cases hkeep : keeps opt u n = true
    · -- the peer keeps its optimistic slot
      have hkeep' : (!opt && (u.peer n).optimistic && !(u.peer n).choking) = true := hkeep
      rw [if_pos hkeep']
      obtain ⟨h₁, h₂, h₃⟩ := assign_spec opt l u (n :: sel) reg rest hnd.2 hkl
      have hC : contenders opt u (n :: l) = contenders opt u l := by
        simp [contenders, hkeep]
      refine ⟨by rw [h₁, hC], fun m => ?_, by rw [h₃, hC]⟩
      rw [h₂, hC]
      by_cases hmn : m = n
      · subst hmn
        simp [hkeep]
      · simp [hmn]
    have hkeep' : (!opt && (u.peer n).optimistic && !(u.peer n).choking) = false :=
      Bool.eq_false_iff.2 hkeep
    rw [if_neg (by rw [hkeep']; decide)]
    have hC : contenders opt u (n :: l) = n :: contenders opt u l := by
      simp [contenders, hkeep]
    rw [hC]
    by_cases hreg : (reg : Int) < u.regularSlots
    · -- a regular slot is free
      rw [if_pos hreg]
      have hk' : ∀ m ∈ l, m ∈ (u.unchoke n).known := fun m hm => by
        rw [(frame_unchoke n).known]
        exact hkl m hm
      obtain ⟨h₁, h₂, h₃⟩ := assign_spec opt l (u.unchoke n) (n :: sel) (reg + 1) rest hnd.2 hk'
      -- the peers after it keep their flags, so they compete as before
      have hkeeps : ∀ m ∈ l, keeps opt (u.unchoke n) m = keeps opt u m := fun m hm => by
        simp only [keeps, peer_unchoke (hk n List.mem_cons_self), if_neg (hne m hm)]
      have hCl : contenders opt (u.unchoke n) l = contenders opt u l :=
        List.filter_congr fun m hm => by rw [hkeeps m hm]
      have hslots : ((u.unchoke n).regularSlots - ↑(reg + 1)).toNat + 1 =
          (u.regularSlots - reg).toNat := by
        rw [(frame_unchoke n).regularSlots]
        omega
      refine ⟨?_, fun m => ?_, ?_⟩
      · rw [h₁, hCl, ← hslots, List.take_succ_cons, List.foldl_cons]
      · rw [h₂, hCl, ← hslots, List.take_succ_cons]
        by_cases hmn : m = n
        · subst hmn
          simp
        · simp only [List.mem_cons, hmn, false_or]
          exact or_congr_right (and_congr_right fun hm => by rw [hkeeps m hm])
      · rw [h₃, hCl, ← hslots, List.drop_succ_cons]
    · -- no regular slot is left: the peer is left over
      rw [if_neg hreg]
      have hk0 : (u.regularSlots - reg).toNat = 0 := by omega
      obtain ⟨h₁, h₂, h₃⟩ := assign_spec opt l u sel reg (rest ++ [n]) hnd.2 hkl
      rw [hk0] at h₁ h₂ h₃ ⊢
      refine ⟨by simpa using h₁, fun m => ?_, by simp [h₃]⟩
      rw [h₂]
      by_cases hmn : m = n
      · subst hmn
        simp [hkeep, hnd.1]
      · simp [hmn]

@[simp] theorem view_with_draws (v : Unchoker) (d : Draws) (m : String) :
    ({ v with draws := d } : Unchoker).view m = v.view m := rfl

/-- The optimistic draws take distinct left-over peers, as many as there are slots or left-over
peers, and give each an optimistic slot. -/
theorem drawOptimistic_spec :
    ∀ (k : ℕ) (u : Unchoker) (sel rest : List String), rest.Nodup →
      (∀ n ∈ rest, n ∈ u.known) → u.Good →
      ∃ drawn : List String, drawn.Nodup ∧ drawn.length = min k rest.length ∧
        (∀ n ∈ drawn, n ∈ rest) ∧
        (∀ n, n ∈ (drawOptimistic k (u, sel, rest)).2 ↔ n ∈ sel ∨ n ∈ drawn) ∧
        (drawOptimistic k (u, sel, rest)).1.Good ∧ Frame u (drawOptimistic k (u, sel, rest)).1 ∧
        ∀ m, (drawOptimistic k (u, sel, rest)).1.view m =
          if m ∈ drawn then View.optimistic (u.view m) else u.view m
  | 0, u, sel, rest, _, _, hg =>
    ⟨[], List.nodup_nil, by simp, by simp, by simp [drawOptimistic], hg, Frame.refl u,
      by simp [drawOptimistic]⟩
  | k + 1, u, sel, rest, hnd, hk, hg => by
    unfold drawOptimistic
    by_cases hempty : rest.isEmpty = true
    · rw [if_pos hempty]
      rw [List.isEmpty_iff] at hempty
      subst hempty
      exact ⟨[], List.nodup_nil, by simp, by simp, by simp, hg, Frame.refl u, by simp⟩
    rw [if_neg hempty]
    have hpos : 0 < rest.length := by
      cases rest with
      | nil => simp at hempty
      | cons _ _ => simp
    rcases hb : u.draws.below rest.length with ⟨i, d⟩
    have hi : i < rest.length := by
      have := Draws.below_lt hpos u.draws
      rwa [hb] at this
    dsimp only
    -- the drawn peer gets an optimistic slot; the left-over list loses it
    have hn : rest.getD i "" ∈ rest := by
      rw [List.getD_eq_getElem?_getD, List.getElem?_eq_getElem hi]
      exact List.getElem_mem hi
    have hperm := List.perm_of_draw hnd hi
    have hnd' := hperm.nodup_iff.2 (hnd.erase _)
    have hmem' : ∀ m, m ∈ (rest.set i (rest.getD (rest.length - 1) "")).take (rest.length - 1) ↔
        m ≠ rest.getD i "" ∧ m ∈ rest := fun m => by
      rw [hperm.mem_iff, hnd.mem_erase_iff]
    have hk' : ∀ m ∈ (rest.set i (rest.getD (rest.length - 1) "")).take (rest.length - 1),
        m ∈ (({ u with draws := d } : Unchoker).unchokeOptimistic (rest.getD i "")).known :=
      fun m hm => by
        rw [(frame_unchokeOptimistic _).known]
        exact hk m ((hmem' m).1 hm).2
    have hg' : (({ u with draws := d } : Unchoker).unchokeOptimistic (rest.getD i "")).Good :=
      good_unchokeOptimistic (u := { u with draws := d }) ⟨hg.unchoked, hg.optimistic⟩ _
    obtain ⟨drawn, hdnd, hdlen, hdsub, hsel, hgood, hframe, hview⟩ :=
      drawOptimistic_spec k _ (rest.getD i "" :: sel) _ hnd' hk' hg'
    have hnotin : rest.getD i "" ∉ drawn := fun h => ((hmem' _).1 (hdsub _ h)).1 rfl
    refine ⟨rest.getD i "" :: drawn, List.nodup_cons.2 ⟨hnotin, hdnd⟩, ?_, ?_, fun m => ?_,
      hgood, (⟨rfl, rfl, rfl, rfl⟩ : Frame u { u with draws := d }).trans
        ((frame_unchokeOptimistic _).trans hframe), fun m => ?_⟩
    · rw [List.length_cons, hdlen, hperm.length_eq, List.length_erase_of_mem hn]
      omega
    · intro m hm
      rcases List.mem_cons.1 hm with rfl | hm
      · exact hn
      · exact ((hmem' m).1 (hdsub m hm)).2
    · rw [hsel]
      simp only [List.mem_cons]
      tauto
    · rw [hview, view_unchokeOptimistic (u := { u with draws := d }) ⟨hg.unchoked, hg.optimistic⟩
        (hk _ hn)]
      simp only [view_with_draws]
      by_cases hmn : m = rest.getD i ""
      · subst hmn
        rw [if_neg hnotin, if_pos rfl, if_pos List.mem_cons_self]
      · simp only [hmn, if_false, List.mem_cons, false_or]

/-- How fast a peer is for the ranking: how fast we download from it, or once the torrent is
complete how fast we upload to it. -/
def speed (u : Unchoker) (completed : Bool) (n : String) : Int :=
  if completed then (u.peer n).upload else (u.peer n).download

/-- The interested peers of a round, fastest first; peers of equal speed keep their order. -/
def ranked (u : Unchoker) (names : List String) (completed : Bool) : List String :=
  (names.filter fun n => (u.peer n).interested).mergeSort
    fun a b => decide (u.speed completed a ≥ u.speed completed b)

/-- The peers a round gives regular slots: the first contenders, as many as there are slots. -/
def regularPicks (u : Unchoker) (names : List String) (completed : Bool) : List String :=
  (contenders (u.round == 0) u (u.ranked names completed)).take u.regularSlots.toNat

/-- The contenders a round leaves over, among which an optimistic round draws. -/
def leftOver (u : Unchoker) (names : List String) (completed : Bool) : List String :=
  (contenders (u.round == 0) u (u.ranked names completed)).drop u.regularSlots.toNat

theorem tick_eq (u : Unchoker) (names : List String) (completed : Bool) :
    u.tick names completed =
      let A := assign (u.round == 0) (u.ranked names completed)
        ({ u with round := (u.round + 1) % 3 }, [], 0, [])
      let B := if u.round == 0 then drawOptimistic A.1.optimisticSlots.toNat (A.1, A.2.1, A.2.2.2)
        else (A.1, A.2.1)
      names.foldl (fun v n => if B.2.contains n then v else v.choke n) B.1 := rfl

theorem mem_ranked {names : List String} {completed : Bool} {n : String} :
    n ∈ u.ranked names completed ↔ n ∈ names ∧ (u.peer n).interested = true := by
  rw [ranked, (List.mergeSort_perm _ _).mem_iff, List.mem_filter]

theorem nodup_ranked {names : List String} (hnd : names.Nodup) (completed : Bool) :
    (u.ranked names completed).Nodup :=
  (List.mergeSort_perm _ _).nodup_iff.2 (hnd.filter _)

/-- Choking the peers of a round that are not selected is choking, one after another, the
peers not selected. -/
theorem foldl_chokeUnselected (sel : List String) :
    ∀ (l : List String) (v : Unchoker),
      l.foldl (fun v n => if sel.contains n then v else v.choke n) v =
        (l.filter fun n => !sel.contains n).foldl choke v
  | [], _ => rfl
  | n :: l, v => by
    rw [List.foldl_cons, List.filter_cons]
    cases hn : sel.contains n
    · simp only [Bool.false_eq_true, if_false, Bool.not_false, if_true, List.foldl_cons]
      exact foldl_chokeUnselected sel l _
    · simp only [if_true, Bool.not_true, Bool.false_eq_true, if_false]
      exact foldl_chokeUnselected sel l _

/-- **One round.** Over distinct known peers, a round gives the regular picks regular slots,
optimistic slots to the peers it draws (in a round that draws: distinct left-over contenders,
as many as there are optimistic slots or left-over contenders), keeps the slot of each
interested peer keeping an optimistic slot, and chokes every other peer of the round. -/
theorem tick_spec {names : List String} (hg : u.Good) (hnd : names.Nodup)
    (hk : ∀ n ∈ names, n ∈ u.known) (completed : Bool) :
    ∃ drawn : List String, drawn.Nodup ∧ (∀ n ∈ drawn, n ∈ u.leftOver names completed) ∧
      drawn.length = (if u.round = 0 then
        min u.optimisticSlots.toNat (u.leftOver names completed).length else 0) ∧
      (u.tick names completed).Good ∧ (u.tick names completed).known = u.known ∧
      (u.tick names completed).regularSlots = u.regularSlots ∧
      (u.tick names completed).optimisticSlots = u.optimisticSlots ∧
      (u.tick names completed).round = (u.round + 1) % 3 ∧
      ∀ m, (u.tick names completed).view m =
        if m ∈ u.regularPicks names completed then View.regular (u.view m)
        else if m ∈ drawn then View.optimistic (u.view m)
        else if m ∈ names ∧ ¬(keeps (u.round == 0) u m = true ∧ (u.peer m).interested = true)
          then View.choked (u.view m)
        else u.view m := by
  -- the contenders, and the regular picks and left-over ones among them
  have hrk : (u.ranked names completed).Nodup := nodup_ranked hnd completed
  have hrk' : ∀ n ∈ u.ranked names completed, n ∈ u.known := fun n hn =>
    hk n (mem_ranked.1 hn).1
  have hC : (contenders (u.round == 0) u (u.ranked names completed)).Nodup := hrk.filter _
  have hCr : ∀ n ∈ contenders (u.round == 0) u (u.ranked names completed),
      n ∈ u.ranked names completed := fun n hn => (List.mem_filter.1 hn).1
  have hpicks : ∀ n ∈ u.regularPicks names completed, n ∈ u.ranked names completed :=
    fun n hn => hCr n (List.mem_of_mem_take hn)
  have hleft : ∀ n ∈ u.leftOver names completed, n ∈ u.ranked names completed :=
    fun n hn => hCr n (List.mem_of_mem_drop hn)
  have hdisj : ∀ n ∈ u.regularPicks names completed, n ∉ u.leftOver names completed :=
    fun n h₁ h₂ => List.disjoint_take_drop hC (Nat.le_refl _) h₁ h₂
  -- going through the ranked peers
  obtain ⟨hA₁, hA₂, hA₃⟩ := assign_spec (u.round == 0) (u.ranked names completed)
    { u with round := (u.round + 1) % 3 } [] 0 [] hrk hrk'
  have hk0 : (({ u with round := (u.round + 1) % 3 } : Unchoker).regularSlots -
      ((0 : ℕ) : Int)).toNat = u.regularSlots.toNat := by simp
  rw [hk0] at hA₁ hA₂ hA₃
  obtain ⟨hgA, hfA, hvA⟩ := view_foldl (fun v n m hv hn => view_unchoke hv hn m)
    (fun v n hv => good_unchoke hv n) (fun v n => frame_unchoke n)
    (u.regularPicks names completed) { u with round := (u.round + 1) % 3 }
    (hC.sublist (List.take_sublist _ _)) (fun n hn => hrk' n (hpicks n hn)) ⟨hg.unchoked, hg.optimistic⟩
  rw [tick_eq]
  dsimp only
  set A := assign (u.round == 0) (u.ranked names completed)
    ({ u with round := (u.round + 1) % 3 }, [], 0, []) with hA
  have hA₁' : A.1 = (u.regularPicks names completed).foldl unchoke
      { u with round := (u.round + 1) % 3 } := hA₁
  have hA₂' : ∀ m, m ∈ A.2.1 ↔ m ∈ u.ranked names completed ∧
      (keeps (u.round == 0) u m = true ∨ m ∈ u.regularPicks names completed) := fun m => by
    rw [hA₂]
    simp only [List.not_mem_nil, false_or]
    rfl
  have hA₃' : A.2.2.2 = u.leftOver names completed := by
    rw [hA₃, List.nil_append]
    rfl
  have hvA' : ∀ m, A.1.view m =
      if m ∈ u.regularPicks names completed then View.regular (u.view m) else u.view m := by
    intro m
    rw [hA₁']
    exact hvA m
  have hgA' : A.1.Good := hA₁' ▸ hgA
  have hfA' : Frame { u with round := (u.round + 1) % 3 } A.1 := hA₁' ▸ hfA
  -- the optimistic draws, in a round that draws
  set B := if (u.round == 0) = true then
      drawOptimistic A.1.optimisticSlots.toNat (A.1, A.2.1, A.2.2.2) else (A.1, A.2.1) with hB
  obtain ⟨drawn, hdnd, hdsub, hdlen, hB₂, hgB, hfB, hvB⟩ : ∃ drawn : List String, drawn.Nodup ∧
      (∀ n ∈ drawn, n ∈ u.leftOver names completed) ∧
      drawn.length = (if u.round = 0 then
        min u.optimisticSlots.toNat (u.leftOver names completed).length else 0) ∧
      (∀ m, m ∈ B.2 ↔ m ∈ A.2.1 ∨ m ∈ drawn) ∧ B.1.Good ∧ Frame A.1 B.1 ∧
      ∀ m, B.1.view m = if m ∈ drawn then View.optimistic (A.1.view m) else A.1.view m := by
    by_cases hr : u.round = 0
    · have hr' : (u.round == 0) = true := by simp [hr]
      have hkA : ∀ n ∈ A.2.2.2, n ∈ A.1.known := fun n hn => by
        rw [hfA'.known]
        exact hrk' n (hleft n (hA₃' ▸ hn))
      obtain ⟨drawn, hdnd, hdlen, hdsub, hsel, hgd, hfd, hvd⟩ := drawOptimistic_spec
        A.1.optimisticSlots.toNat A.1 A.2.1 A.2.2.2
        (hA₃' ▸ hC.sublist (List.drop_sublist _ _)) hkA hgA'
      refine ⟨drawn, hdnd, fun n hn => hA₃' ▸ hdsub n hn, ?_, ?_, ?_, ?_, ?_⟩
      · rw [if_pos hr, hdlen, hfA'.optimisticSlots, hA₃']
      all_goals rw [hB, if_pos hr']
      · exact hsel
      · exact hgd
      · exact hfd
      · exact hvd
    · have hr' : (u.round == 0) = false := by simp [hr]
      refine ⟨[], List.nodup_nil, by simp, by simp [hr], ?_, ?_, ?_, ?_⟩
      all_goals rw [hB, if_neg (by simp [hr'])]
      · simp
      · exact hgA'
      · exact Frame.refl _
      · simp
  -- every peer of the round not selected is choked
  rw [foldl_chokeUnselected]
  have hfAB := hfA'.trans hfB
  obtain ⟨hgF, hfF, hvF⟩ := view_foldl (fun v n m hv hn => view_choke hv hn m)
    (fun v n hv => good_choke hv n) (fun v n => frame_choke n)
    (names.filter fun n => !B.2.contains n) B.1 (hnd.filter _)
    (fun n hn => hfAB.known ▸ hk n (List.mem_filter.1 hn).1) hgB
  refine ⟨drawn, hdnd, hdsub, hdlen, hgF, hfF.known.trans hfAB.known,
    hfF.regularSlots.trans hfAB.regularSlots, hfF.optimisticSlots.trans hfAB.optimisticSlots,
    hfF.round.trans hfAB.round, fun m => ?_⟩
  have hfil : m ∈ names.filter (fun n => !B.2.contains n) ↔ m ∈ names ∧ m ∉ B.2 := by
    simp
  rw [hvF m, hvB m, hvA' m]
  simp only [hfil]
  by_cases hp : m ∈ u.regularPicks names completed
  · -- a regular pick is selected and not drawn
    have hsel : m ∈ B.2 := (hB₂ m).2 (.inl ((hA₂' m).2 ⟨hpicks m hp, .inr hp⟩))
    have hnd' : m ∉ drawn := fun h => hdisj m hp (hdsub m h)
    simp [hp, hsel, hnd']
  by_cases hd : m ∈ drawn
  · have hsel : m ∈ B.2 := (hB₂ m).2 (.inr hd)
    simp [hp, hd, hsel]
  -- neither picked nor drawn: selected only when it keeps its optimistic slot
  have hsel : m ∈ B.2 ↔ m ∈ u.ranked names completed ∧ keeps (u.round == 0) u m = true := by
    rw [hB₂, hA₂']
    simp [hp, hd]
  simp only [hp, hd, if_false, hsel, mem_ranked]
  congr 1
  apply propext
  tauto

end Unchoker

end BitTorrent
