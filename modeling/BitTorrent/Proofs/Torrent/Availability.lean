import BitTorrent.Proofs.Torrent.Agreement

/-!
# Holder counts follow the connected peers

The picker counts, for every piece, the connected peers that have it (`Picker.availability`).
The counts are kept by three paths: a `have` adds one to its piece unless the peer was already
known to have it (`Download.reportHave`), a bitfield takes the peer's previous bitfield off and
adds the new one (`Download.reportBitfield`), and a peer that disconnects takes its last
bitfield off (`Download.peerDisconnected`), where a count already at zero is left at zero.

`Download.Counted` says that the count of every piece is the number of connected peers whose
bitfield has it (`Download.holders`). It holds when a download with no peer records starts,
and every connect, `have`, bitfield and disconnect keeps it, in any order and from any number of
peers, as long as the peers are distinct sessions: a session reports its handshake once, so a
peer that connects is not connected already (`Download.PeerStep`). Hence:

* `Download.availability_counts_holders`: through any such run after a start, the count of every
  piece is the number of connected peers that have it; subtracting a connected peer's bitfield
  never meets a count at zero; and the statistics count as available exactly the pieces we have
  or some connected peer has.
-/

namespace BitTorrent

/-! ## Entries told apart by a key -/

namespace List

variable {α β : Type} [DecidableEq β]

/-- Replacing the one entry with a given key changes a count by what the two entries count. -/
theorem countP_map_replace {l : List α} {key : α → β} (hnd : (l.map key).Nodup) {a : α}
    (ha : a ∈ l) (a' : α) (p : α → Bool) :
    (l.map fun q => if key q = key a then a' else q).countP p + (if p a then 1 else 0) =
      l.countP p + (if p a' then 1 else 0) := by
  induction l with
  | nil => exact absurd ha List.not_mem_nil
  | cons b l ih =>
    rw [List.map_cons, List.nodup_cons] at hnd
    rcases List.mem_cons.1 ha with rfl | hmem
    · -- no other entry has the key of the head
      have hrest : (l.map fun q => if key q = key a then a' else q) = l := by
        refine (List.map_congr_left fun q hq => ?_).trans (List.map_id l)
        have hne : key q ≠ key a := fun h => hnd.1 (h ▸ List.mem_map_of_mem hq)
        simp [hne]
      rw [List.map_cons, if_pos rfl, hrest]
      simp only [List.countP_cons]
      omega
    · have hne : key b ≠ key a := fun h => hnd.1 (h ▸ List.mem_map_of_mem hmem)
      have := ih hnd.2 hmem
      simp only [List.map_cons, hne, ↓reduceIte, List.countP_cons]
      omega

/-- Dropping the one entry with a given key takes off what it counts. -/
theorem countP_filter_key {l : List α} {key : α → β} (hnd : (l.map key).Nodup) {a : α}
    (ha : a ∈ l) (p : α → Bool) :
    (l.filter fun q => key q ≠ key a).countP p + (if p a then 1 else 0) = l.countP p := by
  induction l with
  | nil => exact absurd ha List.not_mem_nil
  | cons b l ih =>
    rw [List.map_cons, List.nodup_cons] at hnd
    rcases List.mem_cons.1 ha with rfl | hmem
    · have hrest : (l.filter fun q => key q ≠ key a) = l := by
        refine List.filter_eq_self.2 fun q hq => ?_
        have hne : key q ≠ key a := fun h => hnd.1 (h ▸ List.mem_map_of_mem hq)
        simpa using hne
      simp only [List.filter_cons, ne_eq, not_true_eq_false, decide_false, Bool.false_eq_true,
        ↓reduceIte, hrest, List.countP_cons]
    · have hne : key b ≠ key a := fun h => hnd.1 (h ▸ List.mem_map_of_mem hmem)
      have := ih hnd.2 hmem
      rw [List.filter_cons_of_pos (by simpa using hne), List.countP_cons, List.countP_cons]
      omega

end List

/-! ## Holder counts in the picker -/

namespace Picker

variable {P : Type} {pk pk' : Picker P}

/-- The picker keeps its piece count and its holder counts. -/
structure SameCounts (pk pk' : Picker P) : Prop where
  numPieces : pk'.numPieces = pk.numPieces
  availability : pk'.availability = pk.availability

theorem SameCounts.refl (pk : Picker P) : SameCounts pk pk :=
  ⟨rfl, rfl⟩

theorem SameCounts.trans {pk₁ pk₂ pk₃ : Picker P} (h₁ : SameCounts pk₁ pk₂)
    (h₂ : SameCounts pk₂ pk₃) : SameCounts pk₁ pk₃ :=
  ⟨h₂.numPieces.trans h₁.numPieces, h₂.availability.trans h₁.availability⟩

/-- A picker that differs only in its partial pieces keeps its counts. -/
theorem sameCounts_of_partials {ps : List (PartialPiece P)} :
    SameCounts pk { pk with partials := ps } :=
  ⟨rfl, rfl⟩

/-- Restoring a block edits the partial pieces only. -/
theorem restoreReceived_sameCounts {index begin : UInt32} {b : Bool}
    (h : pk.restoreReceived index begin = .ok (b, pk')) : SameCounts pk pk' := by
  unfold restoreReceived at h
  simp only [bind, Except.bind, pure, Except.pure] at h
  repeat' split at h
  all_goals simp only [Except.ok.injEq, Prod.mk.injEq, reduceCtorEq] at h
  all_goals
    obtain ⟨-, rfl⟩ := h
    exact sameCounts_of_partials

section

variable [DecidableEq P]

/-- Withdrawing a request edits the partial pieces only. -/
theorem cancelRequest_sameCounts {pe : P} {r : Request} {b : Bool}
    (h : pk.cancelRequest pe r = .ok (b, pk')) : SameCounts pk pk' := by
  unfold cancelRequest at h
  simp only [bind, Except.bind, pure, Except.pure] at h
  repeat' split at h
  all_goals simp only [Except.ok.injEq, Prod.mk.injEq, reduceCtorEq] at h
  all_goals
    obtain ⟨-, rfl⟩ := h
    exact sameCounts_of_partials

/-- A disconnected peer's requests and reservations are dropped without touching the counts. -/
theorem releasePeer_sameCounts {pe : P} {n : Nat} (h : pk.releasePeer pe = .ok (n, pk')) :
    SameCounts pk pk' := by
  unfold releasePeer at h
  rw [Except.bind_eq_ok] at h
  obtain ⟨pk1, hfold, h⟩ := h
  have h1 : SameCounts pk pk1 := by
    refine List.foldlM_except_inv (Q := SameCounts pk) (fun q x c hq hstep => ?_) _ _ _
      (SameCounts.refl pk) hfold
    rw [Except.bind_eq_ok] at hstep
    obtain ⟨⟨b', c'⟩, hc, hstep⟩ := hstep
    rw [Except.pure_eq_ok] at hstep
    exact hstep ▸ hq.trans (cancelRequest_sameCounts hc)
  simp only [Except.pure_eq_ok, Prod.mk.injEq] at h
  rw [← h.2]
  exact h1.trans sameCounts_of_partials

end

theorem getD_set! (a : Array Nat) (i j : Nat) (v : Nat) (hi : i < a.size) :
    (a.set! i v).getD j 0 = if j = i then v else a.getD j 0 := by
  simp only [Array.getD_eq_getD_getElem?, Array.set!_eq_setIfInBounds,
    Array.getElem?_setIfInBounds]
  by_cases hj : j = i
  · subst hj
    simp [hi]
  · simp [Ne.symm hj, hj]

/-- A `have` adds one holder to its piece. -/
theorem handleHave_getD {i : UInt32} (h : pk.handleHave i = .ok pk') :
    pk'.numPieces = pk.numPieces ∧ pk'.availability.size = pk.availability.size ∧
      ∀ j, pk'.availability.getD j 0 = pk.availability.getD j 0 + if j = i.toNat then 1 else 0 := by
  unfold handleHave at h
  rw [Except.bind_eq_ok] at h
  obtain ⟨c, hc, h⟩ := h
  unfold Fault.get at hc
  split at hc
  · rename_i hi
    rw [Except.ok.injEq] at hc
    rw [Except.pure_eq_ok] at h
    subst h hc
    refine ⟨rfl, by simp, fun j => ?_⟩
    rw [getD_set! _ _ _ _ hi]
    by_cases hj : j = i.toNat
    · subst hj
      simp [Array.getD_eq_getD_getElem?, hi]
    · simp [hj]
  · cases hc

/-- Among the piece indexes, exactly the index `i` of a piece is `i`. -/
theorem countP_range_index {n : Nat} (hn : n ≤ 2 ^ 32) (f : UInt32 → Bool) {i : UInt32}
    (hi : i.toNat < n) :
    ((List.range n).map Nat.toUInt32).countP (fun k => k.toNat = i.toNat && f k) =
      if f i then 1 else 0 := by
  induction n with
  | zero => omega
  | succ n ih =>
    rw [List.range_succ, List.map_append, List.countP_append]
    have hn' : n < 2 ^ 32 := by omega
    have hlast : (Nat.toUInt32 n).toNat = n := by
      simp only [Nat.toUInt32_eq, UInt32.toNat_ofNat']
      exact Nat.mod_eq_of_lt hn'
    by_cases hin : i.toNat = n
    · -- the last index is `i`, and no earlier one is
      have hnone : ((List.range n).map Nat.toUInt32).countP
          (fun k => k.toNat = i.toNat && f k) = 0 := by
        rw [List.countP_eq_zero]
        intro k hk
        obtain ⟨m, hm, rfl⟩ := List.mem_map.1 hk
        have hm' : m < n := List.mem_range.1 hm
        simp only [Nat.toUInt32_eq, UInt32.toNat_ofNat', Nat.mod_eq_of_lt (by omega : m < 2 ^ 32)]
        simp [hin, Nat.ne_of_lt hm']
      have hi' : Nat.toUInt32 n = i := by
        rw [← hin, Nat.toUInt32_eq, UInt32.ofNat_toNat]
      simp [hnone, hi']
    · have := ih (by omega) (by omega)
      simp [this, hlast, Ne.symm hin]

/-- A bitfield adds one holder to each piece it has. -/
theorem handleBitfield_getD {bf : Bitfield} (h : pk.handleBitfield bf = .ok pk') :
    pk'.numPieces = pk.numPieces ∧ pk'.availability.size = pk.availability.size ∧
      ∀ j, pk'.availability.getD j 0 = pk.availability.getD j 0 +
        ((List.range pk.numPieces.toNat).map Nat.toUInt32).countP
          (fun k => k.toNat = j && bf.getD k) := by
  unfold handleBitfield at h
  generalize (List.range pk.numPieces.toNat).map Nat.toUInt32 = is at h ⊢
  -- the fold adds the holders of the indexes it has passed
  induction is generalizing pk with
  | nil =>
    rw [List.foldlM_nil, Except.pure_eq_ok] at h
    subst h
    simp
  | cons i is ih =>
    rw [List.foldlM_cons, Except.bind_eq_ok] at h
    obtain ⟨q, hq, h⟩ := h
    obtain ⟨hn, hs, hc⟩ := ih h
    rw [Except.bind_eq_ok] at hq
    obtain ⟨v, hv, hq⟩ := hq
    have hbit := Bitfield.getD_of_test_eq_ok hv
    cases v with
    | true =>
      obtain ⟨hn', hs', hc'⟩ := handleHave_getD hq
      refine ⟨hn.trans hn', hs.trans hs', fun j => ?_⟩
      rw [hc, hc', List.countP_cons]
      by_cases hj : i.toNat = j
      · simp [hj, hbit]
        omega
      · simp [hj, Ne.symm hj]
    | false =>
      simp only [Bool.false_eq_true, ↓reduceIte, Except.pure_eq_ok] at hq
      subst hq
      refine ⟨hn, hs, fun j => ?_⟩
      simp [hc, hbit]

/-- A count above zero is the count of a piece of the picker's counts. -/
theorem lt_size_of_getD_pos {a : Array Nat} {j : Nat} (h : 0 < a.getD j 0) : j < a.size := by
  by_contra hj
  simp [Array.getD_eq_getD_getElem?, Array.getElem?_eq_none (Nat.le_of_not_lt hj)] at h

/-- A disconnected peer's bitfield takes one holder off each piece it has, leaving a count at
zero as it is. -/
theorem handleDisconnect_getD {bf : Bitfield} (h : pk.handleDisconnect bf = .ok pk') :
    pk'.numPieces = pk.numPieces ∧ pk'.availability.size = pk.availability.size ∧
      ∀ j, pk'.availability.getD j 0 = pk.availability.getD j 0 -
        ((List.range pk.numPieces.toNat).map Nat.toUInt32).countP
          (fun k => k.toNat = j && bf.getD k) := by
  unfold handleDisconnect at h
  generalize (List.range pk.numPieces.toNat).map Nat.toUInt32 = is at h ⊢
  -- the fold takes off the holders of the indexes it has passed
  induction is generalizing pk with
  | nil =>
    rw [List.foldlM_nil, Except.pure_eq_ok] at h
    subst h
    simp
  | cons i is ih =>
    rw [List.foldlM_cons, Except.bind_eq_ok] at h
    obtain ⟨q, hq, h⟩ := h
    obtain ⟨hn, hs, hc⟩ := ih h
    rw [Except.bind_eq_ok] at hq
    obtain ⟨v, hv, hq⟩ := hq
    have hbit := Bitfield.getD_of_test_eq_ok hv
    -- what one index does: one holder less, unless the count is at zero
    have hstep : q.numPieces = pk.numPieces ∧ q.availability.size = pk.availability.size ∧
        ∀ j, q.availability.getD j 0 =
          pk.availability.getD j 0 - if i.toNat = j ∧ bf.getD i = true then 1 else 0 := by
      cases v with
      | true =>
        simp only [↓reduceIte, gt_iff_lt] at hq
        split at hq
        · rename_i hpos
          rw [Except.pure_eq_ok] at hq
          subst hq
          have hi := lt_size_of_getD_pos hpos
          refine ⟨rfl, by simp, fun j => ?_⟩
          rw [getD_set! _ _ _ _ hi]
          by_cases hj : i.toNat = j
          · subst hj
            simp [hbit]
          · simp [hj, Ne.symm hj]
        · rename_i hzero
          rw [Except.pure_eq_ok] at hq
          subst hq
          refine ⟨rfl, rfl, fun j => ?_⟩
          by_cases hj : i.toNat = j
          · subst hj
            simp only [hbit, and_self, ↓reduceIte]
            omega
          · simp [hj]
      | false =>
        simp only [Bool.false_eq_true, ↓reduceIte, Except.pure_eq_ok] at hq
        subst hq
        exact ⟨rfl, rfl, fun j => by simp [hbit]⟩
    obtain ⟨hn', hs', hc'⟩ := hstep
    refine ⟨hn.trans hn', hs.trans hs', fun j => ?_⟩
    rw [hc, hc', List.countP_cons]
    by_cases hj : i.toNat = j
    · simp only [hj, true_and, decide_true, Bool.true_and]
      split <;> omega
    · simp [hj]

end Picker

/-! ## Holders among the connected peers -/

namespace Torrent

namespace Download

variable {σ : Type} {d d' : Download σ}

/-- The number of connected peers whose bitfield has piece `i`. -/
def holders (d : Download σ) (i : UInt32) : Nat :=
  d.peers.countP (·.holds.getD i)

/-- The holder counts of a picker are the connected peers' bitfields. -/
structure Tallies (d : Download σ) (pk : Picker String) : Prop where
  numPieces : pk.numPieces = d.info.numPieces
  size : pk.availability.size = d.info.numPieces.toNat
  count : ∀ i, i < d.info.numPieces → pk.availability.getD i.toNat 0 = d.holders i

/-- The connected peers are distinct sessions, and the picker, while there is one, counts their
bitfields. -/
structure Counted (d : Download σ) : Prop where
  names : (d.peers.map (·.name)).Nodup
  tallies : ∀ pk, d.picker = some pk → d.Tallies pk

/-- The operations by which sessions tell a download which pieces their peers have. A session
reports its handshake once, so a peer that connects is not connected already. -/
inductive PeerStep : Download σ → Download σ → Prop
  | peerConnected {d d' : Download σ} (name : String) (id : List UInt8) (outgoing : Bool)
      (ours : Option Bitfield) (hnew : name ∉ d.peers.map (·.name))
      (h : d.peerConnected name id outgoing = (ours, d')) : PeerStep d d'
  | reportHave {d d' : Download σ} (name : String) (i : UInt32) (b : Bool)
      (h : d.reportHave name i = .ok (b, d')) : PeerStep d d'
  | reportBitfield {d d' : Download σ} (name : String) (bf : Bitfield) (b : Bool)
      (h : d.reportBitfield name bf = .ok (b, d')) : PeerStep d d'
  | peerDisconnected {d d' : Download σ} (name : String)
      (h : d.peerDisconnected name = .ok d') : PeerStep d d'

theorem record?_eq_some {name : String} {rec : PeerRecord} (h : d.record? name = some rec) :
    rec ∈ d.peers ∧ rec.name = name :=
  ⟨List.mem_of_find?_eq_some h, by simpa using List.find?_some h⟩

theorem names_setRecord (d : Download σ) (rec : PeerRecord) (holds : Bitfield) : (d.setRecord { rec with holds }).peers.map (·.name) = d.peers.map (·.name) := by
  simp only [setRecord, List.map_map]
  refine List.map_congr_left fun q _ => ?_
  by_cases hq : q.name = rec.name <;> simp [hq]

/-- A new bitfield of a connected peer changes the holders by what the two bitfields have. -/
theorem holders_setRecord (hnd : (d.peers.map (·.name)).Nodup) {rec : PeerRecord}
    (hrec : rec ∈ d.peers) (holds : Bitfield) (i : UInt32) :
    (d.setRecord { rec with holds }).holders i + (if rec.holds.getD i then 1 else 0) =
      d.holders i + (if holds.getD i then 1 else 0) := by
  unfold holders setRecord
  simp only [beq_iff_eq]
  exact List.countP_map_replace hnd hrec _ _

/-- A peer that leaves takes off what its bitfield has. -/
theorem holders_filter (hnd : (d.peers.map (·.name)).Nodup) {rec : PeerRecord}
    (hrec : rec ∈ d.peers) (i : UInt32) :
    (d.peers.filter (·.name != rec.name)).countP (·.holds.getD i) +
        (if rec.holds.getD i then 1 else 0) = d.holders i := by
  have hf : d.peers.filter (·.name != rec.name) = d.peers.filter fun q => q.name ≠ rec.name :=
    List.filter_congr fun q _ => by by_cases hq : q.name = rec.name <;> simp [hq]
  rw [hf]
  exact List.countP_filter_key hnd hrec _

/-! ## Each operation keeps the counts -/

/-- A peer that connects is counted with a bitfield that has nothing. -/
theorem Counted.append (hc : d.Counted) {rec : PeerRecord}
    (hnew : rec.name ∉ d.peers.map (·.name)) (hnone : ∀ i, rec.holds.getD i = false) :
    ({ d with peers := d.peers ++ [rec] } : Download σ).Counted := by
  have hholders : ∀ i, ({ d with peers := d.peers ++ [rec] } : Download σ).holders i =
      d.holders i := fun i => by
    simp [holders, List.countP_append, hnone i]
  refine ⟨?_, fun pk hpk => ?_⟩
  · rw [List.map_append, List.nodup_append]
    refine ⟨hc.names, List.nodup_singleton _, fun a ha b hb hab => hnew ?_⟩
    rw [List.map_cons, List.map_nil, List.mem_singleton] at hb
    rw [← hb, ← hab]
    exact ha
  · have ht := hc.tallies pk hpk
    exact ⟨ht.numPieces, ht.size, fun i hi => (ht.count i hi).trans (hholders i).symm⟩

theorem Counted.peerConnected (hc : d.Counted) {name : String} {id : List UInt8}
    {outgoing : Bool} {ours : Option Bitfield} (hnew : name ∉ d.peers.map (·.name))
    (h : d.peerConnected name id outgoing = (ours, d')) : d'.Counted := by
  unfold Download.peerConnected at h
  split at h
  · exact (Prod.mk.inj h).2 ▸ hc
  split at h
  · exact (Prod.mk.inj h).2 ▸ hc
  split at h
  · exact (Prod.mk.inj h).2 ▸ hc
  rw [← (Prod.mk.inj h).2]
  exact hc.append hnew fun i => Disk.getD_new _ i

/-- A `have` of a piece the peer was not known to have adds it to the peer's bitfield and one
holder to the piece's count. -/
theorem Counted.reportHave (hc : d.Counted) {name : String} {i : UInt32} {b : Bool}
    (h : d.reportHave name i = .ok (b, d')) : d'.Counted := by
  unfold Download.reportHave at h
  cases hrec : d.record? name with
  | none =>
    simp only [hrec, Except.pure_eq_ok, Prod.mk.injEq] at h
    exact h.2 ▸ hc
  | some rec =>
    simp only [hrec] at h
    have hmem := (record?_eq_some hrec).1
    rw [Except.bind_eq_ok] at h
    obtain ⟨has, htest, h⟩ := h
    split at h
    · -- the peer was known to have the piece
      simp only [pure_bind] at h
      split at h
      · exact eq_of_read h ▸ hc
      · cases h
    rename_i hnot
    rw [Except.bind_eq_ok] at h
    obtain ⟨holds, hset, h⟩ := h
    rw [Except.bind_eq_ok] at h
    obtain ⟨pk, hpk, h⟩ := h
    rw [Except.bind_eq_ok] at h
    obtain ⟨pk', hhave, h⟩ := h
    simp only [pure_bind] at h
    split at h
    · rw [eq_of_read h]
      have hold : rec.holds.getD i = false := by
        rw [Bitfield.getD_of_test_eq_ok htest]
        simpa using hnot
      refine ⟨by simpa [names_setRecord] using hc.names, fun q hq => ?_⟩
      simp only [Option.some.injEq] at hq
      subst hq
      have ht := hc.tallies pk (picker!_eq_ok hpk)
      obtain ⟨hn, hs, hcount⟩ := Picker.handleHave_getD hhave
      refine ⟨hn.trans ht.numPieces, hs.trans ht.size, fun j hj => ?_⟩
      have hrep := holders_setRecord hc.names hmem holds j
      rw [hcount, ht.count j hj]
      change _ = (d.setRecord { rec with holds }).holders j
      by_cases hji : j = i
      · subst hji
        rw [hold, Bitfield.getD_set_self hset] at hrep
        simp only [Bool.false_eq_true, ↓reduceIte] at hrep ⊢
        omega
      · have hne : j.toNat ≠ i.toNat := fun h => hji (UInt32.toNat_inj.1 h)
        rw [Bitfield.getD_set_of_ne hset hji] at hrep
        simp only [hne, ↓reduceIte] at hrep ⊢
        omega
    · cases h

/-- A bitfield of a connected peer replaces its previous one in the counts. -/
theorem Counted.reportBitfield (hc : d.Counted) {name : String} {bf : Bitfield} {b : Bool}
    (h : d.reportBitfield name bf = .ok (b, d')) : d'.Counted := by
  unfold Download.reportBitfield at h
  cases hrec : d.record? name with
  | none =>
    simp only [hrec, Except.pure_eq_ok, Prod.mk.injEq] at h
    exact h.2 ▸ hc
  | some rec =>
    simp only [hrec] at h
    have hmem := (record?_eq_some hrec).1
    rw [Except.bind_eq_ok] at h
    obtain ⟨pk, hpk, h⟩ := h
    rw [Except.bind_eq_ok] at h
    obtain ⟨pk1, hdis, h⟩ := h
    rw [Except.bind_eq_ok] at h
    obtain ⟨pk2, hbf, h⟩ := h
    split at h
    · rw [eq_of_read h]
      refine ⟨by simpa [names_setRecord] using hc.names, fun q hq => ?_⟩
      simp only [Option.some.injEq] at hq
      subst hq
      have ht := hc.tallies pk (picker!_eq_ok hpk)
      obtain ⟨hn1, hs1, hc1⟩ := Picker.handleDisconnect_getD hdis
      obtain ⟨hn2, hs2, hc2⟩ := Picker.handleBitfield_getD hbf
      have hsmall : pk.numPieces.toNat ≤ 2 ^ 32 := Nat.le_of_lt pk.numPieces.toNat_lt
      refine ⟨hn2.trans (hn1.trans ht.numPieces), hs2.trans (hs1.trans ht.size), fun j hj => ?_⟩
      have hjn : j.toNat < pk.numPieces.toNat := by
        rw [ht.numPieces]
        exact UInt32.lt_iff_toNat_lt.1 hj
      have hjn1 : j.toNat < pk1.numPieces.toNat := hn1 ▸ hjn
      rw [hc2, Picker.countP_range_index (hn1 ▸ hsmall) _ hjn1, hc1, Picker.countP_range_index hsmall _ hjn,
        ht.count j hj]
      change _ = (d.setRecord { rec with holds := bf }).holders j
      -- the old bitfield was counted, so taking it off meets no count at zero
      have hkept := holders_filter hc.names hmem j
      have hrep := holders_setRecord hc.names hmem bf j
      split <;> split <;> simp_all <;> omega
    · cases h

/-- A peer that disconnects gives back its requests and is taken off the counts. -/
theorem Counted.peerDisconnected (hc : d.Counted) {name : String}
    (h : d.peerDisconnected name = .ok d') : d'.Counted := by
  unfold Download.peerDisconnected at h
  cases hrec : d.record? name with
  | none =>
    simp only [hrec, Except.pure_eq_ok] at h
    exact h ▸ hc
  | some rec =>
    simp only [hrec] at h
    obtain ⟨hmem, hname⟩ := record?_eq_some hrec
    rw [Except.bind_eq_ok] at h
    obtain ⟨pk, hpk, h⟩ := h
    rw [Except.bind_eq_ok] at h
    obtain ⟨⟨n, pk1⟩, hrel, h⟩ := h
    rw [Except.bind_eq_ok] at h
    obtain ⟨pk2, hdis, h⟩ := h
    split at h
    · rw [Except.pure_eq_ok] at h
      rw [← h]
      have hpk' : d.picker = some pk := picker!_eq_ok hpk
      subst hname
      refine ⟨(hc.names.sublist (List.filter_sublist.map _)), fun q hq => ?_⟩
      simp only [Option.some.injEq] at hq
      subst hq
      have ht := hc.tallies pk hpk'
      have hsame := Picker.releasePeer_sameCounts hrel
      obtain ⟨hn2, hs2, hc2⟩ := Picker.handleDisconnect_getD hdis
      have hsmall : pk1.numPieces.toNat ≤ 2 ^ 32 := Nat.le_of_lt pk1.numPieces.toNat_lt
      refine ⟨hn2.trans (hsame.numPieces.trans ht.numPieces),
        hs2.trans (hsame.availability ▸ ht.size), fun j hj => ?_⟩
      have hjn : j.toNat < pk1.numPieces.toNat := by
        rw [hsame.numPieces, ht.numPieces]
        exact UInt32.lt_iff_toNat_lt.1 hj
      rw [hc2, Picker.countP_range_index hsmall _ hjn, hsame.availability, ht.count j hj]
      have hkept := holders_filter hc.names hmem j
      change _ = (d.peers.filter (·.name != rec.name)).countP (·.holds.getD j)
      -- whether the leaving peer held piece j decides if its count drops by one
      split
      · simp_all; omega
      · simp_all
    · cases h

theorem Counted.step (hc : d.Counted) (hs : PeerStep d d') : d'.Counted := by
  cases hs with
  | peerConnected name id outgoing ours hnew h => exact hc.peerConnected hnew h
  | reportHave name i b h => exact hc.reportHave h
  | reportBitfield name bf b h => exact hc.reportBitfield h
  | peerDisconnected name h => exact hc.peerDisconnected h

theorem Counted.run (hc : d.Counted) (hr : Relation.ReflTransGen PeerStep d d') : d'.Counted := by
  induction hr with
  | refl => exact hc
  | tail _ hs ih => exact ih.step hs

/-! ## Starting -/

@[simp] theorem peers_writeResume (d : Download σ) : d.writeResume.peers = d.peers := by
  unfold writeResume
  split <;> rfl

@[simp] theorem info_writeResume (d : Download σ) : d.writeResume.info = d.info := by
  unfold writeResume
  split <;> rfl

@[simp] theorem peers_stop (d : Download σ) : d.stop.peers = d.peers := by
  unfold stop
  split <;> simp

@[simp] theorem info_stop (d : Download σ) : d.stop.info = d.info := by
  unfold stop
  split <;> simp

theorem picker_stop (h : d.status ≠ .stopped) : d.stop.picker = none := by
  unfold stop
  rw [if_neg (by simpa using h)]

/-- Restoring the saved state leaves the counts alone. -/
theorem restorePartial_sameCounts {numPieces : UInt32} {pieceLen : UInt32 → UInt32}
    {bf : Bitfield} {disk : Disk} {pk : Picker String} {pending : List Resume.PartialPiece}
    {res : Disk × Picker String}
    (hr : restorePartial numPieces pieceLen bf disk pk pending = .ok res) :
    Picker.SameCounts pk res.2 := by
  unfold Download.restorePartial at hr
  refine List.foldlM_except_inv (Q := fun x => Picker.SameCounts pk x.2) ?_ pending _ _
    (Picker.SameCounts.refl pk) hr
  rintro ⟨disk, pk'⟩ pp c hQ hstep
  dsimp only at hstep hQ
  split at hstep
  · rw [Except.pure_eq_ok] at hstep
    exact hstep ▸ hQ
  rw [Except.bind_eq_ok] at hstep
  obtain ⟨t, -, hstep⟩ := hstep
  split at hstep
  · rw [Except.pure_eq_ok] at hstep
    exact hstep ▸ hQ
  split at hstep
  · rw [Except.pure_eq_ok] at hstep
    exact hstep ▸ hQ
  -- the blocks of the piece, one after another
  refine List.foldlM_except_inv (Q := fun x => Picker.SameCounts pk x.2) ?_ pp.blocks _ _ hQ
    hstep
  rintro ⟨disk, pk''⟩ begin c hQ' hblk
  dsimp only at hblk hQ'
  split at hblk
  · rw [Except.pure_eq_ok] at hblk
    exact hblk ▸ hQ'
  rw [Except.bind_eq_ok] at hblk
  obtain ⟨⟨b, pk3⟩, hrr, hblk⟩ := hblk
  rw [Except.pure_eq_ok] at hblk
  exact hblk ▸ hQ'.trans (Picker.restoreReceived_sameCounts hrr)

/-- Verifying the files gives a picker that counts no holder, or fails and drops the picker. -/
theorem verify_fresh {disk : Disk} (h : d.verify disk = .ok d') (hst : d.status ≠ .stopped)
    (hnone : d.lastErr = none) :
    d'.peers = d.peers ∧ d'.info = d.info ∧ ∀ pk, d'.picker = some pk →
      pk.numPieces = d.info.numPieces ∧
        pk.availability = Array.replicate d.info.numPieces.toNat 0 := by
  unfold verify at h
  obtain ⟨⟨r, progress⟩, hs⟩ : ∃ x, disk.scan d.fs d.store false = x := ⟨_, rfl⟩
  have hscan : (∃ bf, (disk.scan d.fs d.store false).1 = .ok bf ∧
      bf.length = disk.pieces.size.toUInt32) ∨
      ∃ e, (disk.scan d.fs d.store false).1 = .error (.disk e) := Disk.scan_ok_or_disk
  rw [hs] at h hscan
  dsimp only at h hscan
  rcases hscan with ⟨bf, rfl, -⟩ | ⟨e, rfl⟩
  · dsimp only at h
    -- the picker is a new one, with blocks of the saved state restored or not
    split at h
    all_goals
      rw [Except.bind_eq_ok] at h
      obtain ⟨⟨disk1, pk1⟩, hrp, h⟩ := h
    on_goal 1 => have hpk1 := restorePartial_sameCounts hrp
    on_goal 2 =>
      rw [Except.pure_eq_ok] at hrp
      have hpk1 : Picker.SameCounts (Picker.new d.info.numPieces d.info.pieceLen bf d.ranker)
          (disk1, pk1).2 := by
        rw [← hrp]
        exact Picker.SameCounts.refl _
    all_goals
      rw [Except.pure_eq_ok] at h
      subst h
      simp only [picker_dialAddresses, info_dialAddresses]
      refine ⟨?_, ?_, fun pk hpk => ?_⟩
      · unfold dialAddresses setCompleted
        split <;> split <;> rfl
      · split <;> rfl
      · have : pk1 = pk := by
          split at hpk <;> simpa [setCompleted] using hpk
        subst this
        exact ⟨hpk1.numPieces, hpk1.availability⟩
  · -- a failed scan fails the download, which stops it
    dsimp only at h
    rw [Except.pure_eq_ok] at h
    subst h
    have hst' : ({ d with checked := progress.getLastD d.checked } : Download σ).status ≠
        .stopped := hst
    simp only [fail, hnone, Option.isSome_none, Bool.false_or, beq_iff_eq, hst',
      ↓reduceIte]
    refine ⟨by simp, by simp, fun pk hpk => ?_⟩
    rw [picker_stop (by simpa using hst)] at hpk
    cases hpk

/-- A download that starts with no peer records counts no holder. -/
theorem start_counted {d₀ : Download σ} (hstop : d.status = .stopped) (hpeers : d.peers = [])
    (hstart : d.start = .ok (none, d₀)) : d₀.Counted := by
  unfold start at hstart
  split at hstart
  · simp only [Except.pure_eq_ok, Prod.mk.injEq, reduceCtorEq, false_and] at hstart
  split at hstart
  · rename_i hst
    simp [hstop] at hst
  split at hstart
  · simp only [Except.pure_eq_ok, Prod.mk.injEq, reduceCtorEq, false_and] at hstart
  dsimp only at hstart
  split at hstart
  · simp only [Except.pure_eq_ok, Prod.mk.injEq, reduceCtorEq, false_and] at hstart
  rw [Except.bind_eq_ok] at hstart
  obtain ⟨d2, hv, hstart⟩ := hstart
  simp only [Except.pure_eq_ok, Prod.mk.injEq, true_and] at hstart
  subst hstart
  obtain ⟨hp, hi, hfresh⟩ := verify_fresh hv (by simp) rfl
  simp only at hp hi
  have hnil : d2.peers = [] := hp.trans hpeers
  refine ⟨by simp [hnil], fun pk hpk => ?_⟩
  obtain ⟨hn, ha⟩ := hfresh pk hpk
  refine ⟨hn.trans (by rw [hi]), by rw [ha, hi]; simp, fun i _ => ?_⟩
  simp only [ha, holders, hnil, List.countP_nil, Array.getD_eq_getD_getElem?,
    Array.getElem?_replicate]
  split <;> rfl

/-! ## Holder counts through a run -/

theorem holders_pos_iff (d : Download σ) (i : UInt32) :
    0 < d.holders i ↔ d.peers.any (·.holds.getD i) = true := by
  simp [holders, List.countP_pos_iff]

theorem Tallies.availabilityOf {pk : Picker String} (ht : d.Tallies pk) {i : UInt32}
    (hi : i < d.info.numPieces) : pk.availabilityOf i = .ok (d.holders i) := by
  have hlt : i.toNat < pk.availability.size := by
    rw [ht.size]
    exact UInt32.lt_iff_toNat_lt.1 hi
  rw [← ht.count i hi]
  simp [Picker.availabilityOf, Fault.get, hlt, Array.getD_eq_getD_getElem?]

/-- The statistics count as available the pieces we have or some connected peer has. -/
theorem Tallies.available {pk : Picker String} {bf : Bitfield} (ht : d.Tallies pk)
    (hpk : d.picker = some pk) (hbf : d.bitfield = some bf) :
    d.stats.pieces.available = ((List.range d.info.numPieces.toNat).filter fun i =>
      bf.getD i.toUInt32 || d.peers.any (·.holds.getD i.toUInt32)).length := by
  simp only [stats, hpk, hbf]
  congr 1
  refine List.filter_congr fun i hi => ?_
  have hi' : i < d.info.numPieces.toNat := List.mem_range.1 hi
  have hidx : i.toUInt32.toNat = i := by
    simp only [Nat.toUInt32_eq, UInt32.toNat_ofNat']
    exact Nat.mod_eq_of_lt (Nat.lt_trans hi' d.info.numPieces.toNat_lt)
  have hlt : i.toUInt32 < d.info.numPieces := UInt32.lt_iff_toNat_lt.2 (by rw [hidx]; exact hi')
  have hcount := ht.count _ hlt
  rw [hidx] at hcount
  rw [hcount]
  congr 1
  exact Bool.eq_iff_iff.2 (by simpa using holders_pos_iff d i.toUInt32)

/-- **Holder counts follow the connected peers.** Start a stopped download that has no peer
records, and let any connected peers, distinct sessions, send `have`s (again for a piece they
have, too) and bitfields (after `have`s, too) and disconnect, in any order. Then while the
download has a picker:

* the count of every piece is the number of connected peers whose bitfield has it;
* every piece in a connected peer's bitfield has a count above zero, so taking the bitfield off
  when the peer disconnects or sends another never meets a count at zero;
* the statistics count as available exactly the pieces we have or some connected peer has. -/
theorem availability_counts_holders {d₀ d' : Download σ} (hstop : d.status = .stopped)
    (hpeers : d.peers = []) (hstart : d.start = .ok (none, d₀))
    (hrun : Relation.ReflTransGen PeerStep d₀ d') {pk : Picker String}
    (hpk : d'.picker = some pk) :
    (∀ i, i < d'.info.numPieces → pk.availabilityOf i = .ok (d'.holders i)) ∧
      (∀ rec ∈ d'.peers, ∀ i, i < d'.info.numPieces → rec.holds.getD i = true →
        0 < pk.availability.getD i.toNat 0) ∧
      (∀ bf, d'.bitfield = some bf → d'.stats.pieces.available =
        ((List.range d'.info.numPieces.toNat).filter fun i =>
          bf.getD i.toUInt32 || d'.peers.any (·.holds.getD i.toUInt32)).length) := by
  have ht := ((start_counted hstop hpeers hstart).run hrun).tallies pk hpk
  refine ⟨fun i hi => ht.availabilityOf hi, fun rec hrec i hi hbit => ?_,
    fun bf hbf => ht.available hpk hbf⟩
  rw [ht.count i hi, holders_pos_iff]
  exact List.any_eq_true.2 ⟨rec, hrec, hbit⟩

def shortFile : Download MemStore :=
  { Pipeline.onePiece with store := { files := [([97], { data := [] })] } }

/-- After one peer announces piece 0, the picker counts exactly one holder of it. -/
theorem availability_after_have : ∃ (d₀ d₂ : Download MemStore) (pk : Picker String),
    shortFile.start = .ok (none, d₀) ∧ Relation.ReflTransGen PeerStep d₀ d₂ ∧
      d₂.picker = some pk ∧ pk.availabilityOf 0 = .ok 1 := by
  -- The run is evaluated once, by the kernel; the case splits then name its states.
  have hrun : (shortFile.start.toOption.any fun r =>
      r.1.isNone && !(r.2.peers.map (·.name)).contains "a" &&
        ((r.2.peerConnected "a" [1] true).2.reportHave "a" 0).toOption.any fun s =>
          s.1 && s.2.picker.isSome && decide (0 < s.2.info.numPieces) &&
            s.2.holders 0 == 1) = true := by
    decide +kernel
  cases hstart : shortFile.start with
  | error e => simp [hstart, Except.toOption] at hrun
  | ok r =>
    obtain ⟨o, d₀⟩ := r
    simp only [hstart, Except.toOption, Option.any_some, Bool.and_eq_true,
      Option.isNone_iff_eq_none, Bool.not_eq_true'] at hrun
    obtain ⟨⟨rfl, hfresh⟩, hrun⟩ := hrun
    have hnew : "a" ∉ d₀.peers.map (·.name) := by simpa using hfresh
    cases hhave : (d₀.peerConnected "a" [1] true).2.reportHave "a" 0 with
    | error e => simp [hhave] at hrun
    | ok s =>
      obtain ⟨b, d₂⟩ := s
      simp only [hhave, Option.any_some, Bool.and_eq_true, beq_iff_eq,
        decide_eq_true_eq, Option.isSome_iff_exists] at hrun
      obtain ⟨⟨⟨rfl, pk, hpk⟩, hpos⟩, hone⟩ := hrun
      have hsteps : Relation.ReflTransGen PeerStep d₀ d₂ :=
        .tail (.single (.peerConnected "a" [1] true _ hnew rfl)) (.reportHave "a" 0 true hhave)
      have hcount := (availability_counts_holders rfl rfl hstart hsteps hpk).1 0 hpos
      exact ⟨d₀, d₂, pk, rfl, hsteps, hpk, hone ▸ hcount⟩

end Download

end Torrent

end BitTorrent
