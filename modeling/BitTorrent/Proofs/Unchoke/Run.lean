import BitTorrent.Proofs.Unchoke.Slots

/-!
# The slot invariant along every run

The torrent drives the unchoker with rounds over its connected peers, fast unchokes of peers that
become interested, and the disconnection and connection of peers (`Event`), under the promises of
`Event.Allowed`. Over the connected peers the unchoker keeps `Slots`: no peer holds two slots, no
more peers hold slots than there are, a peer is optimistic exactly when it holds an optimistic
slot, and unchoked exactly when it holds a slot.

Main statement: `Unchoker.upload_slots`.
-/

namespace BitTorrent

namespace Unchoker

variable {u : Unchoker} {n m : String}

/-- A view fits: the peer holds at most one slot, is optimistic exactly when it holds an
optimistic slot, and is choked exactly when it holds none. -/
def Fits (v : Bool × Bool × Contender) : Prop :=
  ¬(v.1 = true ∧ v.2.1 = true) ∧ v.2.2.optimistic = v.2.1 ∧ v.2.2.choking = !(v.1 || v.2.1)

theorem fits_choked (v : Bool × Bool × Contender) : Fits (View.choked v) := by
  simp [Fits, View.choked, Contender.choked]

theorem fits_regular (v : Bool × Bool × Contender) : Fits (View.regular v) := by
  simp [Fits, View.regular, Contender.regular]

theorem fits_optimistic (v : Bool × Bool × Contender) : Fits (View.optimistic v) := by
  simp [Fits, View.optimistic, Contender.optimisticSlot]

theorem mem_unchoked_iff : n ∈ u.unchoked ↔ (u.view n).1 = true := by
  simp [view]

theorem mem_optimisticUnchoked_iff : n ∈ u.optimisticUnchoked ↔ (u.view n).2.1 = true := by
  simp [view]

/-- **The slot invariant** over the connected peers `live`: the slots are held by connected
peers, no peer twice, no more than there are slots of each kind, and every connected peer's
flags fit the slots it holds. -/
structure Slots (u : Unchoker) (live : List String) : Prop where
  nodup_live : live.Nodup
  known : ∀ n ∈ live, n ∈ u.known
  good : u.Good
  live_of_regular : ∀ n ∈ u.unchoked, n ∈ live
  live_of_optimistic : ∀ n ∈ u.optimisticUnchoked, n ∈ live
  fits : ∀ n ∈ live, Fits (u.view n)
  regular_le : u.unchoked.length ≤ u.regularSlots.toNat
  optimistic_le : u.optimisticUnchoked.length ≤ u.optimisticSlots.toNat

/-- An unchoker that holds no slot keeps the invariant with no peer connected. -/
theorem slots_nil (h : u.unchoked = [] ∧ u.optimisticUnchoked = []) : Slots u [] :=
  ⟨List.nodup_nil, by simp, ⟨h.1 ▸ List.nodup_nil, h.2 ▸ List.nodup_nil⟩, by simp [h.1],
    by simp [h.2], by simp, by simp [h.1], by simp [h.2]⟩

/-- A peer keeps its optimistic slot through a round that does not draw exactly when it holds
one. -/
theorem Slots.keeps_iff {live : List String} (h : Slots u live) (hn : n ∈ live) :
    keeps false u n = true ↔ n ∈ u.optimisticUnchoked := by
  obtain ⟨hdisj, hopt, hch⟩ := h.fits n hn
  simp only [view] at hdisj hopt hch
  rw [← List.contains_iff_mem, ← hopt]
  simp only [keeps, Bool.not_false, Bool.true_and, Bool.and_eq_true, Bool.not_eq_true']
  constructor
  · exact fun h => h.1
  · -- an optimistic peer holds no regular slot, so it is not choked
    intro ho
    refine ⟨ho, ?_⟩
    rw [hopt] at ho
    rw [hch, ho]
    simp

/-- A choked peer holds no slot. -/
theorem Slots.not_mem_of_choking {live : List String} (h : Slots u live) (hn : n ∈ live)
    (hc : (u.peer n).choking = true) : n ∉ u.unchoked ∧ n ∉ u.optimisticUnchoked := by
  obtain ⟨-, -, hch⟩ := h.fits n hn
  rw [mem_unchoked_iff, mem_optimisticUnchoked_iff]
  simp only [view] at hch ⊢
  rw [hc] at hch
  cases h₁ : u.unchoked.contains n <;> cases h₂ : u.optimisticUnchoked.contains n <;>
    simp_all

/-- In a round, the peers competing for regular slots are the ranked ones, less, in a round
that does not draw, those holding an optimistic slot. -/
theorem Slots.contenders_eq {live l : List String} (h : Slots u live)
    (hl : ∀ n ∈ l, n ∈ live) :
    contenders (u.round == 0) u l =
      l.filter fun n => u.round == 0 || !u.optimisticUnchoked.contains n := by
  unfold contenders
  refine List.filter_congr fun n hn => ?_
  by_cases hr : u.round = 0
  · simp [hr, keeps]
  · have hr' : (u.round == 0) = false := by simp [hr]
    have hk := h.keeps_iff (hl n hn)
    rw [hr', Bool.false_or]
    by_cases ho : n ∈ u.optimisticUnchoked
    · simp [hk.2 ho, ho]
    · have : keeps false u n = false := Bool.eq_false_iff.2 fun h' => ho (hk.1 h')
      simp [this, ho]

/-- What a round does: it ranks the interested peers, fastest first and otherwise in their
order; the regular slots go to the first contenders, the ranked peers less, in a round that does
not draw, those holding an optimistic slot; in a round that draws the optimistic slots go to
distinct left-over contenders, as many as there are slots or left-over contenders; in the other
rounds an optimistic slot is kept exactly by an interested peer holding it. The round counter
moves on, and the slot counts stay. -/
structure Round (u : Unchoker) (names : List String) (completed : Bool) (u' : Unchoker) :
    Prop where
  perm : (u.ranked names completed).Perm (names.filter fun n => (u.peer n).interested)
  sorted : (u.ranked names completed).Pairwise
    fun a b => u.speed completed b ≤ u.speed completed a
  stable : ∀ a b, [a, b].Sublist (names.filter fun n => (u.peer n).interested) →
    u.speed completed b ≤ u.speed completed a → [a, b].Sublist (u.ranked names completed)
  regular : ∀ n, n ∈ u'.unchoked ↔ n ∈ ((u.ranked names completed).filter
    fun n => u.round == 0 || !u.optimisticUnchoked.contains n).take u.regularSlots.toNat
  drawn : u.round = 0 → ∀ n ∈ u'.optimisticUnchoked, n ∈ ((u.ranked names completed).filter
    fun n => u.round == 0 || !u.optimisticUnchoked.contains n).drop u.regularSlots.toNat
  numDrawn : u.round = 0 → u'.optimisticUnchoked.length = min u.optimisticSlots.toNat
    (((u.ranked names completed).filter
      fun n => u.round == 0 || !u.optimisticUnchoked.contains n).drop u.regularSlots.toNat).length
  kept : u.round ≠ 0 → ∀ n, n ∈ u'.optimisticUnchoked ↔
    n ∈ u.optimisticUnchoked ∧ (u.peer n).interested = true
  round : u'.round = (u.round + 1) % 3
  regularSlots : u'.regularSlots = u.regularSlots
  optimisticSlots : u'.optimisticSlots = u.optimisticSlots

/-- The ranking is the interested peers, sorted by speed, fastest first, and stable. -/
theorem ranked_spec (u : Unchoker) (names : List String) (completed : Bool) :
    (u.ranked names completed).Perm (names.filter fun n => (u.peer n).interested) ∧
    (u.ranked names completed).Pairwise
      (fun a b => u.speed completed b ≤ u.speed completed a) ∧
    ∀ a b, [a, b].Sublist (names.filter fun n => (u.peer n).interested) →
      u.speed completed b ≤ u.speed completed a → [a, b].Sublist (u.ranked names completed) := by
  have htrans : ∀ a b c : String, decide (u.speed completed a ≥ u.speed completed b) = true →
      decide (u.speed completed b ≥ u.speed completed c) = true →
      decide (u.speed completed a ≥ u.speed completed c) = true := by
    intro a b c hab hbc
    simp only [decide_eq_true_eq] at *
    omega
  have htotal : ∀ a b : String, (decide (u.speed completed a ≥ u.speed completed b) ||
      decide (u.speed completed b ≥ u.speed completed a)) = true := by
    intro a b
    simp only [Bool.or_eq_true, decide_eq_true_eq]
    omega
  refine ⟨List.mergeSort_perm _ _, ?_, fun a b hab hle => ?_⟩
  · exact (List.pairwise_mergeSort htrans htotal _).imp fun h => by simpa using h
  · exact List.sublist_mergeSort htrans htotal (by simpa using hle) hab

/-- A peer holding a regular slot keeps no optimistic one. -/
theorem Slots.not_keeps {live : List String} (h : Slots u live) (hn : n ∈ u.unchoked)
    (b : Bool) : keeps b u n = false := by
  cases b
  · have hl := h.live_of_regular n hn
    obtain ⟨hdisj, -, -⟩ := h.fits n hl
    refine Bool.eq_false_iff.2 fun hk => hdisj ⟨?_, ?_⟩
    · exact mem_unchoked_iff.1 hn
    · exact mem_optimisticUnchoked_iff.1 ((h.keeps_iff hl).1 hk)
  · simp [keeps]

/-- **A round keeps the invariant**, and does what `Round` says, when it goes over the connected
peers. -/
theorem Slots.tick {live names : List String} (h : Slots u live) (hp : names.Perm live)
    (completed : Bool) :
    Slots (u.tick names completed) live ∧ Round u names completed (u.tick names completed) := by
  have hlive : ∀ n, n ∈ names ↔ n ∈ live := fun n => hp.mem_iff
  obtain ⟨drawn, hdnd, hdsub, hdlen, hg', hknown, hreg, hopt, hround, hview⟩ :=
    tick_spec h.good (hp.nodup_iff.2 h.nodup_live) (fun n hn => h.known n ((hlive n).1 hn))
      completed
  have hranked : ∀ n ∈ u.ranked names completed, n ∈ live := fun n hn =>
    (hlive n).1 (mem_ranked.1 hn).1
  have hpicks : ∀ m ∈ u.regularPicks names completed,
      m ∈ contenders (u.round == 0) u (u.ranked names completed) := fun m hm =>
    List.mem_of_mem_take hm
  have hleft : ∀ m ∈ u.leftOver names completed,
      m ∈ contenders (u.round == 0) u (u.ranked names completed) := fun m hm =>
    List.mem_of_mem_drop hm
  have hcont : ∀ m ∈ contenders (u.round == 0) u (u.ranked names completed), m ∈ live :=
    fun m hm => hranked m (List.mem_filter.1 hm).1
  -- the regular slots go to the regular picks, and no drawn peer is one of them
  have hregular : ∀ m, m ∈ (u.tick names completed).unchoked ↔
      m ∈ u.regularPicks names completed := by
    intro m
    rw [mem_unchoked_iff, hview m]
    split_ifs with h₁ h₂ h₃
    · simp [View.regular, h₁]
    · simp [View.optimistic, h₁]
    · simp [View.choked, h₁]
    · -- a peer left as it was holds no regular slot: one holding it is connected, not kept
      simp only [h₁, iff_false]
      intro hm
      rw [← mem_unchoked_iff] at hm
      exact h₃ ⟨(hlive m).2 (h.live_of_regular m hm), by simp [h.not_keeps hm]⟩
  have hdisj : ∀ m ∈ u.regularPicks names completed, m ∉ drawn := fun m hm hd =>
    List.disjoint_take_drop ((nodup_ranked (hp.nodup_iff.2 h.nodup_live) completed).filter _)
      (Nat.le_refl _) hm (hdsub m hd)
  -- in a round that draws, the optimistic slots go to the drawn peers
  have hdrawn : u.round = 0 → ∀ m, m ∈ (u.tick names completed).optimisticUnchoked ↔
      m ∈ drawn := by
    intro hr m
    have hkeep : keeps (u.round == 0) u m = false := by simp [hr, keeps]
    rw [mem_optimisticUnchoked_iff, hview m]
    split_ifs with h₁ h₂ h₃
    · simp [View.regular, hdisj m h₁]
    · simp [View.optimistic, h₂]
    · simp [View.choked, h₂]
    · -- a peer left as it was is not connected, so it held no optimistic slot
      simp only [h₂, iff_false]
      intro hm
      rw [← mem_optimisticUnchoked_iff] at hm
      exact h₃ ⟨(hlive m).2 (h.live_of_optimistic m hm), by simp [hkeep]⟩
  -- in the other rounds an optimistic slot stays with an interested peer holding it
  have hkept : u.round ≠ 0 → ∀ m, m ∈ (u.tick names completed).optimisticUnchoked ↔
      m ∈ u.optimisticUnchoked ∧ (u.peer m).interested = true := by
    intro hr m
    have hnil : drawn = [] := List.eq_nil_of_length_eq_zero (by rw [hdlen, if_neg hr])
    have hr' : (u.round == 0) = false := by simp [hr]
    rw [mem_optimisticUnchoked_iff, hview m]
    split_ifs with h₁ h₂ h₃
    · -- a regular pick is a contender, which holds no optimistic slot
      have hc := (List.mem_filter.1 (hpicks m h₁)).2
      rw [hr'] at hc
      simp only [View.regular, Bool.false_eq_true, false_iff, not_and]
      intro ho
      have := (h.keeps_iff (h.live_of_optimistic m ho)).2 ho
      simp [this] at hc
    · simp [hnil] at h₂
    · simp only [View.choked, Bool.false_eq_true, false_iff, not_and]
      intro ho hi
      rw [hr'] at h₃
      exact h₃.2 ⟨(h.keeps_iff (h.live_of_optimistic m ho)).2 ho, hi⟩
    · rw [← mem_optimisticUnchoked_iff]
      refine ⟨fun ho => ⟨ho, ?_⟩, fun ho => ho.1⟩
      by_contra hi
      exact h₃ ⟨(hlive m).2 (h.live_of_optimistic m ho), fun hk => hi hk.2⟩
  have hslots : Slots (u.tick names completed) live := {
    nodup_live := h.nodup_live
    known := fun m hm => by rw [hknown]; exact h.known m hm
    good := hg'
    live_of_regular := fun m hm => hcont m (hpicks m ((hregular m).1 hm))
    live_of_optimistic := fun m hm => by
      by_cases hr : u.round = 0
      · exact hcont m (hleft m (hdsub m ((hdrawn hr m).1 hm)))
      · exact h.live_of_optimistic m ((hkept hr m).1 hm).1
    fits := fun m hm => by
      rw [hview m]
      split_ifs
      · exact fits_regular _
      · exact fits_optimistic _
      · exact fits_choked _
      · exact h.fits m hm
    regular_le := by
      rw [hreg]
      calc _ ≤ (u.regularPicks names completed).length :=
            (hg'.unchoked.subperm fun m hm => (hregular m).1 hm).length_le
        _ ≤ u.regularSlots.toNat := List.length_take_le _ _
    optimistic_le := by
      rw [hopt]
      by_cases hr : u.round = 0
      · calc _ ≤ drawn.length :=
              (hg'.optimistic.subperm fun m hm => (hdrawn hr m).1 hm).length_le
          _ ≤ u.optimisticSlots.toNat := by rw [hdlen, if_pos hr]; exact Nat.min_le_left _ _
      · calc _ ≤ u.optimisticUnchoked.length :=
              (hg'.optimistic.subperm fun m hm => ((hkept hr m).1 hm).1).length_le
          _ ≤ u.optimisticSlots.toNat := h.optimistic_le }
  have hC := h.contenders_eq hranked
  have hpicks_eq : u.regularPicks names completed = ((u.ranked names completed).filter
      fun n => u.round == 0 || !u.optimisticUnchoked.contains n).take u.regularSlots.toNat := by
    rw [regularPicks, hC]
  have hleft_eq : u.leftOver names completed = ((u.ranked names completed).filter
      fun n => u.round == 0 || !u.optimisticUnchoked.contains n).drop u.regularSlots.toNat := by
    rw [leftOver, hC]
  obtain ⟨hperm, hsorted, hstable⟩ := ranked_spec u names completed
  refine ⟨hslots, hperm, hsorted, hstable, fun m => by rw [hregular, hpicks_eq],
    fun hr m hm => ?_, fun hr => ?_, hkept, hround, hreg, hopt⟩
  · rw [← hleft_eq]
    exact hdsub m ((hdrawn hr m).1 hm)
  · -- the optimistic slots and the drawn peers are the same peers, none twice
    have h₁ := (hg'.optimistic.subperm fun m hm => (hdrawn hr m).1 hm).length_le
    have h₂ := (hdnd.subperm fun m hm => (hdrawn hr m).2 hm).length_le
    rw [if_pos hr] at hdlen
    rw [← hleft_eq, ← hdlen]
    omega

/-! ## Steps on one peer -/

theorem length_addName {s : List String} (hn : n ∉ s) : (addName n s).length = s.length + 1 := by
  simp [addName, hn]

/-- A step that gives one connected peer a view that fits and leaves the others' views as they
were keeps the invariant, within the slot counts. -/
theorem Slots.of_view_one {live : List String} {u' : Unchoker} {E : Bool × Bool × Contender →
    Bool × Bool × Contender} (h : Slots u live) (hn : n ∈ live) (hg : u'.Good)
    (hf : Frame u u') (hview : ∀ m, u'.view m = if m = n then E (u.view n) else u.view m)
    (hfit : Fits (E (u.view n))) (hreg : u'.unchoked.length ≤ u.regularSlots.toNat)
    (hopt : u'.optimisticUnchoked.length ≤ u.optimisticSlots.toNat) : Slots u' live := by
  -- a slot holder after the step is the peer itself or held a slot before
  have hlive : ∀ (sel : Bool × Bool × Contender → Bool), (∀ m, sel (u.view m) = true → m ∈ live) →
      ∀ m, sel (u'.view m) = true → m ∈ live := by
    intro sel hsel m hm
    rw [hview m] at hm
    split_ifs at hm with hmn
    · exact hmn ▸ hn
    · exact hsel m hm
  refine ⟨h.nodup_live, fun m hm => ?_, hg, fun m hm => ?_, fun m hm => ?_, fun m hm => ?_,
    by rw [hf.regularSlots]; exact hreg, by rw [hf.optimisticSlots]; exact hopt⟩
  · rw [hf.known]
    exact h.known m hm
  · exact hlive (·.1) (fun m hm => h.live_of_regular m (mem_unchoked_iff.2 hm)) m
      (mem_unchoked_iff.1 hm)
  · exact hlive (·.2.1) (fun m hm => h.live_of_optimistic m (mem_optimisticUnchoked_iff.2 hm)) m
      (mem_optimisticUnchoked_iff.1 hm)
  · rw [hview m]
    split_ifs with hmn
    · exact hfit
    · exact h.fits m hm

/-- Unchoking a choked connected peer into a free regular slot keeps the invariant. -/
theorem Slots.unchoke {live : List String} (h : Slots u live) (hn : n ∈ live)
    (hc : (u.peer n).choking = true) (hfree : (u.unchoked.length : Int) < u.regularSlots) :
    Slots (u.unchoke n) live := by
  obtain ⟨hr, ho⟩ := sets_unchoke (u := u) n
  refine h.of_view_one hn (good_unchoke h.good n) (frame_unchoke n)
    (view_unchoke h.good (h.known n hn)) (fits_regular _) ?_ ?_
  · rw [hr, length_addName (h.not_mem_of_choking hn hc).1]
    omega
  · rw [ho]
    exact Nat.le_trans List.length_erase_le h.optimistic_le

/-- Unchoking a choked connected peer into a free optimistic slot keeps the invariant. -/
theorem Slots.unchokeOptimistic {live : List String} (h : Slots u live) (hn : n ∈ live)
    (hc : (u.peer n).choking = true)
    (hfree : (u.optimisticUnchoked.length : Int) < u.optimisticSlots) :
    Slots (u.unchokeOptimistic n) live := by
  obtain ⟨hr, ho⟩ := sets_unchokeOptimistic (u := u) n
  refine h.of_view_one hn (good_unchokeOptimistic h.good n) (frame_unchokeOptimistic n)
    (view_unchokeOptimistic h.good (h.known n hn)) (fits_optimistic _) ?_ ?_
  · rw [hr]
    exact Nat.le_trans List.length_erase_le h.regular_le
  · rw [ho, length_addName (h.not_mem_of_choking hn hc).2]
    omega

/-- **A fast unchoke keeps the invariant**: it only fills a free slot. -/
theorem Slots.fastUnchoke {live : List String} (h : Slots u live) (hn : n ∈ live) :
    Slots (u.fastUnchoke n) live := by
  unfold Unchoker.fastUnchoke
  dsimp only
  split_ifs with h₁ h₂ h₃
  · exact h
  · have hc : (u.peer n).choking = true := by simp_all
    exact h.unchoke hn hc h₂
  · have hc : (u.peer n).choking = true := by simp_all
    exact h.unchokeOptimistic hn hc h₃
  · exact h

/-- **A disconnection keeps the invariant** over the peers still connected. -/
theorem Slots.disconnect {live : List String} (h : Slots u live) (n : String) :
    Slots (u.disconnect n) (live.erase n) := by
  have hview : ∀ m ≠ n, (u.disconnect n).view m = u.view m := by
    intro m hmn
    show ((u.unchoked.erase n).contains m, (u.optimisticUnchoked.erase n).contains m,
      u.peer m) = u.view m
    rw [contains_erase h.good.unchoked, contains_erase h.good.optimistic, if_neg hmn, if_neg hmn]
    rfl
  -- a slot holder after the disconnection is another peer, still connected
  have hlive : ∀ {l : List String}, l.Nodup → (∀ m ∈ l, m ∈ live) → ∀ m ∈ l.erase n,
      m ∈ live.erase n := by
    intro l hl hsub m hm
    have hmn : m ≠ n := fun hmn => hl.not_mem_erase (hmn ▸ hm)
    exact (List.mem_erase_of_ne hmn).2 (hsub m (List.mem_of_mem_erase hm))
  refine ⟨h.nodup_live.erase n, fun m hm => h.known m (List.mem_of_mem_erase hm),
    ⟨h.good.unchoked.erase n, h.good.optimistic.erase n⟩,
    hlive h.good.unchoked h.live_of_regular, hlive h.good.optimistic h.live_of_optimistic,
    fun m hm => ?_, Nat.le_trans List.length_erase_le h.regular_le,
    Nat.le_trans List.length_erase_le h.optimistic_le⟩
  have hmn : m ≠ n := fun hmn => h.nodup_live.not_mem_erase (hmn ▸ hm)
  rw [hview m hmn]
  exact h.fits m (List.mem_of_mem_erase hm)

@[simp] theorem unchoked_modify (f : Contender → Contender) :
    (u.modify n f).unchoked = u.unchoked := rfl

@[simp] theorem optimisticUnchoked_modify (f : Contender → Contender) :
    (u.modify n f).optimisticUnchoked = u.optimisticUnchoked := rfl

theorem Good.modify (h : u.Good) {f : Contender → Contender} : (u.modify n f).Good :=
  ⟨h.unchoked, h.optimistic⟩

theorem modify_of_not_mem (f : Contender → Contender) (hn : n ∉ u.known) : u.modify n f = u := by
  have hid : ∀ p ∈ u.peers, (if p.name == n then f p else p) = p := by
    intro p hp
    have : p.name ≠ n := fun h => hn (h ▸ List.mem_map_of_mem hp)
    simp [this]
  simp only [modify, List.map_congr_left hid, List.map_id']

/-- **A peer that connects keeps the invariant**: its new session starts choked and not
optimistic, and it holds no slot, since every slot holder is connected. -/
theorem Slots.connect {live : List String} (h : Slots u live) (hk : n ∈ u.known)
    (hn : n ∉ live) : Slots (u.modify n Contender.choked) (n :: live) := by
  have hfree : u.unchoked.contains n = false ∧ u.optimisticUnchoked.contains n = false := by
    constructor
    · simpa using fun hm => hn (h.live_of_regular n hm)
    · simpa using fun hm => hn (h.live_of_optimistic n hm)
  have hview : ∀ m, (u.modify n Contender.choked).view m =
      if m = n then View.choked (u.view n) else u.view m := by
    intro m
    simp only [view, View.choked, peer_modify Contender.choked (fun _ => rfl) hk m]
    split_ifs with hmn
    · rw [unchoked_modify, optimisticUnchoked_modify, hmn, hfree.1, hfree.2]
    · rfl
  refine ⟨List.nodup_cons.2 ⟨hn, h.nodup_live⟩,
    fun m hm => ?_, h.good.modify, fun m hm => List.mem_cons_of_mem n (h.live_of_regular m hm),
    fun m hm => List.mem_cons_of_mem n (h.live_of_optimistic m hm), fun m hm => ?_,
    h.regular_le, h.optimistic_le⟩
  · rw [known_modify Contender.choked (fun _ => rfl)]
    rcases List.mem_cons.1 hm with rfl | hm
    · exact hk
    · exact h.known m hm
  · rw [hview m]
    split_ifs with hmn
    · exact fits_choked _
    · exact h.fits m ((List.mem_cons.1 hm).resolve_left hmn)

/-- **A change of interest or speeds keeps the invariant**: it leaves the flags alone. -/
theorem Slots.update {live : List String} (h : Slots u live) (n : String) (i : Bool)
    (d up : Int) :
    Slots (u.modify n fun p => { p with interested := i, download := d, upload := up }) live := by
  by_cases hk : n ∈ u.known
  · have hf : ∀ p : Contender,
        ({ p with interested := i, download := d, upload := up } : Contender).name = p.name :=
      fun _ => rfl
    refine ⟨h.nodup_live, fun m hm => ?_, h.good.modify, h.live_of_regular, h.live_of_optimistic,
      fun m hm => ?_, h.regular_le, h.optimistic_le⟩
    · rw [known_modify _ hf]
      exact h.known m hm
    · have hfit := h.fits m hm
      simp only [Fits, view, peer_modify _ hf hk m] at hfit ⊢
      split_ifs with hmn
      · subst hmn
        exact hfit
      · exact hfit
  · rw [modify_of_not_mem _ hk]
    exact h

/-! ## Runs -/

/-- What happens to the unchoker between two looks at it: a round over the connected peers, a
fast unchoke of a peer that became interested, a peer going away or coming, and a peer's interest
and speeds changing. -/
inductive Event where
  | tick (names : List String) (completed : Bool)
  | fastUnchoke (n : String)
  | disconnect (n : String)
  | connect (n : String)
  | update (n : String) (interested : Bool) (download upload : Int)
  deriving DecidableEq, Repr

namespace Event

/-- An event, on the unchoker and the connected peers. A peer that comes has a new session, which
starts choked and not optimistic. -/
def apply : Event → Unchoker × List String → Unchoker × List String
  | tick names completed, (u, live) => (u.tick names completed, live)
  | fastUnchoke n, (u, live) => (u.fastUnchoke n, live)
  | disconnect n, (u, live) => (u.disconnect n, live.erase n)
  | connect n, (u, live) => (u.modify n Contender.choked, n :: live)
  | update n i d up, (u, live) =>
    (u.modify n fun p => { p with interested := i, download := d, upload := up }, live)

/-- The torrent's promises: a round goes over the connected peers, each once; only a connected
peer is fast-unchoked or goes away, so none leaves a round without going away first; a peer that
comes is not yet connected. -/
def Allowed : Event → Unchoker × List String → Prop
  | tick names _, (_, live) => names.Perm live
  | fastUnchoke n, (_, live) => n ∈ live
  | disconnect n, (_, live) => n ∈ live
  | connect n, (u, live) => n ∈ u.known ∧ n ∉ live
  | update _ _ _ _, _ => True

instance instDecidableAllowed : (e : Event) → (s : Unchoker × List String) →
    Decidable (e.Allowed s)
  | tick names _, (_, live) => inferInstanceAs (Decidable (names.Perm live))
  | fastUnchoke n, (_, live) => inferInstanceAs (Decidable (n ∈ live))
  | disconnect n, (_, live) => inferInstanceAs (Decidable (n ∈ live))
  | connect n, (u, live) => inferInstanceAs (Decidable (n ∈ u.known ∧ n ∉ live))
  | update _ _ _ _, _ => inferInstanceAs (Decidable True)

def isTick : Event → Bool
  | tick _ _ => true
  | _ => false

end Event

/-- A run whose every event keeps the torrent's promises. -/
def Legal : Unchoker × List String → List Event → Prop
  | _, [] => True
  | s, e :: es => e.Allowed s ∧ Legal (e.apply s) es

instance instDecidableLegal : (s : Unchoker × List String) → (es : List Event) →
    Decidable (Legal s es)
  | _, [] => inferInstanceAs (Decidable True)
  | s, e :: es =>
    have := instDecidableLegal (e.apply s) es
    inferInstanceAs (Decidable (e.Allowed s ∧ Legal (e.apply s) es))

/-- The unchoker and the connected peers after a run. -/
def run (s : Unchoker × List String) (es : List Event) : Unchoker × List String :=
  es.foldl (fun s e => e.apply s) s

/-- **One event keeps the invariant** and the slot counts, and only a round moves the round
counter on. -/
theorem Slots.apply {s : Unchoker × List String} (h : Slots s.1 s.2) {e : Event}
    (he : e.Allowed s) :
    Slots (e.apply s).1 (e.apply s).2 ∧ (e.apply s).1.regularSlots = s.1.regularSlots ∧
      (e.apply s).1.optimisticSlots = s.1.optimisticSlots ∧
      (e.apply s).1.round = if e.isTick then (s.1.round + 1) % 3 else s.1.round := by
  obtain ⟨u, live⟩ := s
  cases e with
  | tick names completed =>
    obtain ⟨hs, hround⟩ := h.tick he completed
    exact ⟨hs, hround.regularSlots, hround.optimisticSlots, hround.round⟩
  | fastUnchoke n =>
    have hf : Frame u (u.fastUnchoke n) := by
      unfold Unchoker.fastUnchoke
      dsimp only
      split_ifs
      · exact Frame.refl u
      · exact frame_unchoke n
      · exact frame_unchokeOptimistic n
      · exact Frame.refl u
    exact ⟨h.fastUnchoke he, hf.regularSlots, hf.optimisticSlots, hf.round⟩
  | disconnect n => exact ⟨h.disconnect n, rfl, rfl, rfl⟩
  | connect n => exact ⟨h.connect he.1 he.2, rfl, rfl, rfl⟩
  | update n i d up => exact ⟨h.update n i d up, rfl, rfl, rfl⟩

/-- **Every legal run keeps the invariant** and the slot counts, and its round counter is the
number of rounds run, modulo three. -/
theorem Slots.run : ∀ {es : List Event} {s : Unchoker × List String}, Slots s.1 s.2 →
    Legal s es → s.1.round < 3 →
    Slots (run s es).1 (run s es).2 ∧ (run s es).1.regularSlots = s.1.regularSlots ∧
      (run s es).1.optimisticSlots = s.1.optimisticSlots ∧
      (run s es).1.round = (s.1.round + es.countP Event.isTick) % 3
  | [], _, h, _, hr => ⟨h, rfl, rfl, by simp [Unchoker.run, Nat.mod_eq_of_lt hr]⟩
  | e :: es, s, h, hl, hr => by
    obtain ⟨h', hreg, hopt, hround⟩ := h.apply hl.1
    -- the round counter stays below three, so the next events see a counter modulo three
    have hr' : (e.apply s).1.round < 3 := by
      rw [hround]
      split
      · exact Nat.mod_lt _ (by decide)
      · exact hr
    obtain ⟨hs, hreg', hopt', hround'⟩ := Slots.run h' hl.2 hr'
    refine ⟨hs, hreg'.trans hreg, hopt'.trans hopt, ?_⟩
    change (Unchoker.run (e.apply s) es).1.round = _
    rw [hround', hround, List.countP_cons]
    split <;> omega

/-- Under the invariant the unchoked connected peers hold the slots, so there are no more of
them than slots. -/
theorem Slots.unchoked_le {live : List String} (h : Slots u live) :
    (live.filter fun n => !(u.peer n).choking).length ≤
      u.regularSlots.toNat + u.optimisticSlots.toNat := by
  have hsub : ∀ n ∈ live.filter (fun n => !(u.peer n).choking),
      n ∈ u.unchoked ++ u.optimisticUnchoked := by
    intro n hn
    obtain ⟨hn, hc⟩ := List.mem_filter.1 hn
    obtain ⟨-, -, hch⟩ := h.fits n hn
    simp only [view] at hch
    rw [hch] at hc
    simpa [Bool.not_not] using hc
  calc _ ≤ (u.unchoked ++ u.optimisticUnchoked).length :=
        ((h.nodup_live.filter _).subperm hsub).length_le
    _ = u.unchoked.length + u.optimisticUnchoked.length := List.length_append
    _ ≤ u.regularSlots.toNat + u.optimisticSlots.toNat := Nat.add_le_add h.regular_le h.optimistic_le

/-- **Upload slots along every run.** From an unchoker at its first round that holds no slot,
with no peer connected, a run that keeps the torrent's promises ends with the slot invariant over
the peers then connected, so that no more of them are unchoked than there are slots; the round
counter is the number of rounds run, modulo three, so that every third round from the first
draws; and a round over the connected peers then does what `Round` says. -/
theorem upload_slots (h₀ : u.unchoked = [] ∧ u.optimisticUnchoked = []) (hr : u.round = 0)
    {es : List Event} (hl : Legal (u, []) es) :
    Slots (Unchoker.run (u, []) es).1 (Unchoker.run (u, []) es).2 ∧
      ((Unchoker.run (u, []) es).2.filter
        fun n => !((Unchoker.run (u, []) es).1.peer n).choking).length ≤
        u.regularSlots.toNat + u.optimisticSlots.toNat ∧
      (Unchoker.run (u, []) es).1.round = es.countP Event.isTick % 3 ∧
      ∀ names completed, names.Perm (Unchoker.run (u, []) es).2 →
        Round (Unchoker.run (u, []) es).1 names completed
          ((Unchoker.run (u, []) es).1.tick names completed) := by
  obtain ⟨hs, hreg, hopt, hround⟩ := (slots_nil h₀).run hl (by rw [hr]; decide)
  refine ⟨hs, ?_, by rw [hround, hr, Nat.zero_add], fun names completed hp =>
    (hs.tick hp completed).2⟩
  rw [← hreg, ← hopt]
  exact hs.unchoked_le

/-- Two peers, one slot of each kind. -/
def twoPeers : Unchoker :=
  { regularSlots := 1, optimisticSlots := 1, peers := [{ name := "a" }, { name := "b" }],
    draws := { values := [] } }

/-- Both peers connect and become interested, the first faster; a fast unchoke gives the second
the free regular slot; it goes away, freeing the slot, and comes back; a fast unchoke gives the
first the slot; and a round goes over both. -/
def twoPeerRun : List Event :=
  [.connect "a", .connect "b", .update "a" true 5 0, .update "b" true 3 0, .fastUnchoke "b",
    .disconnect "b", .connect "b", .fastUnchoke "a", .tick ["b", "a"] false]

theorem two_peers_upload_slots :
    Legal (twoPeers, []) twoPeerRun ∧
      Slots (Unchoker.run (twoPeers, []) twoPeerRun).1 (Unchoker.run (twoPeers, []) twoPeerRun).2 ∧
      (Unchoker.run (twoPeers, []) twoPeerRun).1.round = 1 := by
  have hl : Legal (twoPeers, []) twoPeerRun := by decide
  obtain ⟨hs, -, hround, -⟩ := upload_slots (u := twoPeers) ⟨rfl, rfl⟩ rfl hl
  exact ⟨hl, hs, by rw [hround]; decide⟩

example : (Unchoker.run (twoPeers, []) (twoPeerRun.take 8)).1.unchoked = ["a"] := by decide

end Unchoker

end BitTorrent
