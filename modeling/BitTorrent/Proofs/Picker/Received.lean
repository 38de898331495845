import BitTorrent.Proofs.Picker.Invariant

/-!
# The received blocks of the picker

A block of a partial piece is received once a peer delivered it (or it was restored from saved
state), until its piece is verified or reset. `Picker.Received pk i k` says that block `k` of
piece `i` is received.

The operations that hand out, cancel and give back requests, and those that count holders, leave
the received blocks, the pieces and the verified pieces as they are (`Picker.Keeps`). Of the
others, an answer that wins marks the one block it answers, a verification or a reset forgets
the piece, and a verification succeeds whenever every block of the piece is received
(`markVerified_ok`).
-/

namespace BitTorrent

namespace PartialPiece

variable {P : Type}

/-- Block `k` of the piece is received. -/
def ReceivedAt (pp : PartialPiece P) (k : Nat) : Prop :=
  ∃ s, pp.slots[k]? = some s ∧ s.state = .received

theorem receivedAt_iff {pp : PartialPiece P} {k : Nat} :
    pp.ReceivedAt k ↔ (pp.slots.toList.map (·.state == BlockState.received))[k]? = some true := by
  simp [ReceivedAt, List.getElem?_map]

/-- Pieces whose slots agree on which blocks are received agree block by block. -/
theorem receivedAt_congr {pp pp' : PartialPiece P}
    (h : pp'.slots.toList.map (·.state == BlockState.received) =
      pp.slots.toList.map (·.state == BlockState.received)) (k : Nat) :
    pp'.ReceivedAt k ↔ pp.ReceivedAt k := by
  rw [receivedAt_iff, receivedAt_iff, h]

/-- Replacing slot `i` changes only whether block `i` is received. -/
theorem receivedAt_set {pp : PartialPiece P} {i : Nat} {t : Slot P} (hi : i < pp.slots.size)
    (k : Nat) :
    ({ pp with slots := pp.slots.set! i t } : PartialPiece P).ReceivedAt k ↔
      if k = i then t.state = .received else pp.ReceivedAt k := by
  simp only [ReceivedAt, Array.set!_eq_setIfInBounds, Array.getElem?_setIfInBounds]
  by_cases hk : k = i
  · subst hk; simp [hi]
  · simp [hk, Ne.symm hk]

/-- The lookup by offset finds the block the offset starts. -/
theorem slotAt?_eq_some {pp : PartialPiece P} {b l : UInt32} {k : Nat}
    (h : pp.slotAt? b l = some k) : b % blockSize = 0 ∧ k = (b / blockSize).toNat := by
  unfold slotAt? at h
  split at h
  · cases h
  · rename_i hmod
    simp only [bne_iff_ne, ne_eq, Decidable.not_not] at hmod
    dsimp only at h
    split at h
    · split at h
      · cases h
        exact ⟨hmod, rfl⟩
      · cases h
    · cases h

end PartialPiece

namespace Picker

variable {P : Type}

/-- Block `k` of piece `i` is received. -/
def Received (pk : Picker P) (i : UInt32) (k : Nat) : Prop :=
  ∃ pp, pk.partial? i = some pp ∧ pp.ReceivedAt k

/-- Every block of piece `i` is received. -/
def AllReceived (pk : Picker P) (i : UInt32) : Prop :=
  ∀ k < (Block.count (pk.pieceLength i)).toNat, pk.Received i k

/-! ## Lookup after the edits of the partial pieces -/

theorem partial?_update (pk : Picker P) (pp : PartialPiece P) (i : UInt32) :
    (pk.update pp).partial? i =
      (pk.partial? i).map fun q => if q.index == pp.index then pp else q := by
  simp only [partial?, update, List.find?_map]
  congr 2
  funext q
  by_cases hq : q.index = pp.index <;> simp [hq]

theorem partial?_removePartial (pk : Picker P) (idx i : UInt32) :
    (pk.removePartial idx).partial? i = if i = idx then none else pk.partial? i := by
  simp only [partial?, removePartial, List.find?_filter]
  by_cases h : i = idx
  · subst h
    simp only [↓reduceIte, List.find?_eq_none]
    intro q _
    by_cases hq : q.index = i <;> simp [hq]
  · rw [if_neg h]
    congr 1
    funext q
    by_cases hq : q.index = i <;> simp [hq, h]

theorem find?_insertPartial_of_ne {pp : PartialPiece P} {ps : List (PartialPiece P)} {i : UInt32}
    (hi : i ≠ pp.index) :
    (insertPartial pp ps).find? (·.index == i) = ps.find? (·.index == i) := by
  induction ps with
  | nil => simp [insertPartial, Ne.symm hi]
  | cons r ps ih =>
    unfold insertPartial
    split
    · simp [Ne.symm hi]
    · by_cases hr : r.index = i <;> simp [hr, ih]

theorem partial?_insertPartial (pk : Picker P) {pp : PartialPiece P}
    (hfresh : ∀ q ∈ pk.partials, q.index ≠ pp.index) (i : UInt32) :
    ({ pk with partials := insertPartial pp pk.partials } : Picker P).partial? i =
      if i = pp.index then some pp else pk.partial? i := by
  simp only [partial?]
  split
  · rename_i h
    subst h
    exact find?_insertPartial hfresh
  · exact find?_insertPartial_of_ne ‹_›

theorem partial?_map (pk : Picker P) {g : PartialPiece P → PartialPiece P}
    (hg : ∀ q, (g q).index = q.index) (i : UInt32) :
    ({ pk with partials := pk.partials.map g } : Picker P).partial? i = (pk.partial? i).map g := by
  simp only [partial?, List.find?_map]
  congr 2
  funext q
  simp [hg]

/-! ## Received blocks after the edits of the partial pieces -/

@[simp] theorem verified_removePartial (pk : Picker P) (i : UInt32) :
    (pk.removePartial i).verified = pk.verified := rfl

@[simp] theorem numPieces_removePartial (pk : Picker P) (i : UInt32) :
    (pk.removePartial i).numPieces = pk.numPieces := rfl

@[simp] theorem pieceLength_removePartial (pk : Picker P) (i : UInt32) :
    (pk.removePartial i).pieceLength = pk.pieceLength := rfl

theorem received_of_partials {pk pk' : Picker P} (hp : pk'.partials = pk.partials) (i : UInt32)
    (k : Nat) : pk'.Received i k ↔ pk.Received i k := by
  simp only [Received, partial?, hp]

/-- Replacing a partial piece by one with the same index and the same received blocks keeps
every received block. -/
theorem received_update_of_same {pk : Picker P} {pp pp' : PartialPiece P}
    (hp : pk.partial? pp.index = some pp) (hidx : pp'.index = pp.index)
    (hsame : ∀ k, pp'.ReceivedAt k ↔ pp.ReceivedAt k) (i : UInt32) (k : Nat) :
    (pk.update pp').Received i k ↔ pk.Received i k := by
  simp only [Received, partial?_update]
  by_cases hi : i = pp.index
  · subst hi
    simp [hp, hidx, hsame]
  · cases hq : pk.partial? i with
    | none => simp
    | some q =>
      have hqi : q.index ≠ pp'.index := hidx ▸ (mem_of_partial? hq).2 ▸ hi
      simp [hqi]

/-- Replacing the partial piece at an index changes only the blocks of that piece. -/
theorem received_update (pk : Picker P) (pp : PartialPiece P) (i : UInt32) (k : Nat) :
    (pk.update pp).Received i k ↔
      (i = pp.index ∧ (pk.partial? i).isSome ∧ pp.ReceivedAt k) ∨
        (i ≠ pp.index ∧ pk.Received i k) := by
  simp only [Received, partial?_update]
  cases hq : pk.partial? i with
  | none => simp
  | some q =>
    have hqi := (mem_of_partial? hq).2
    by_cases hi : i = pp.index
    · subst hi
      simp [hqi]
    · have hq' : q.index ≠ pp.index := hqi ▸ hi
      simp [hq', hi]

theorem received_removePartial (pk : Picker P) (idx i : UInt32) (k : Nat) :
    (pk.removePartial idx).Received i k ↔ pk.Received i k ∧ i ≠ idx := by
  simp only [Received, partial?_removePartial]
  by_cases hi : i = idx <;> simp [hi]

theorem received_insertPartial {pk pk' : Picker P} {pp : PartialPiece P}
    (hins : pk'.partials = insertPartial pp pk.partials)
    (hfresh : ∀ q ∈ pk.partials, q.index ≠ pp.index) (i : UInt32) (k : Nat) :
    pk'.Received i k ↔ (i = pp.index ∧ pp.ReceivedAt k) ∨ (i ≠ pp.index ∧ pk.Received i k) := by
  rw [received_of_partials
    (show pk'.partials = ({ pk with partials := insertPartial pp pk.partials } : Picker P).partials
      from hins)]
  simp only [Received, partial?_insertPartial pk hfresh]
  by_cases hi : i = pp.index <;> simp [hi]

theorem received_map {pk : Picker P} {g : PartialPiece P → PartialPiece P}
    (hg : ∀ q, (g q).index = q.index ∧ (g q).slots = q.slots) (i : UInt32) (k : Nat) :
    ({ pk with partials := pk.partials.map g } : Picker P).Received i k ↔ pk.Received i k := by
  simp only [Received, partial?_map pk (fun q => (hg q).1)]
  cases pk.partial? i with
  | none => simp
  | some q => simp [PartialPiece.ReceivedAt, (hg q).2]

/-- No block of an idle piece is received. -/
theorem PartialPiece.not_receivedAt_of_idle {pp : PartialPiece P} (h : pp.idle = true) (k : Nat) :
    ¬ pp.ReceivedAt k := by
  rintro ⟨s, hs, hrec⟩
  have hbusy : pp.idle = false := PartialPiece.idle_eq_false_iff.2
    ⟨s, Array.mem_toList_iff.2 (Array.mem_of_getElem? hs), by simp [hrec]⟩
  rw [h] at hbusy
  cases hbusy

/-! ## What the operations off the answers keep -/

/-- What an operation keeps when it neither answers, verifies nor resets: the torrent's pieces,
the verified pieces and the received blocks. -/
structure Keeps (pk pk' : Picker P) : Prop where
  numPieces : pk'.numPieces = pk.numPieces
  pieceLength : pk'.pieceLength = pk.pieceLength
  verified : pk'.verified = pk.verified
  received : ∀ i k, pk'.Received i k ↔ pk.Received i k

theorem Keeps.refl (pk : Picker P) : Keeps pk pk :=
  ⟨rfl, rfl, rfl, fun _ _ => Iff.rfl⟩

theorem Keeps.trans {pk₁ pk₂ pk₃ : Picker P} (h₁ : Keeps pk₁ pk₂) (h₂ : Keeps pk₂ pk₃) :
    Keeps pk₁ pk₃ :=
  ⟨h₂.numPieces.trans h₁.numPieces, h₂.pieceLength.trans h₁.pieceLength,
    h₂.verified.trans h₁.verified, fun i k => (h₂.received i k).trans (h₁.received i k)⟩

theorem Keeps.allReceived {pk pk' : Picker P} (h : Keeps pk pk') (i : UInt32) :
    pk'.AllReceived i ↔ pk.AllReceived i := by
  simp only [AllReceived, h.pieceLength, h.received]

/-- Changing only the holder counts keeps everything else. -/
theorem keeps_availability (pk : Picker P) (a : Array Nat) :
    Keeps pk { pk with availability := a } :=
  ⟨rfl, rfl, rfl, received_of_partials rfl⟩

/-- Replacing one slot by a slot that is not received, in place of one that is not either, keeps
the received blocks, also when the piece is dropped for being idle. -/
theorem keeps_replaceSlot {pk : Picker P} {idx : UInt32} {pp : PartialPiece P}
    (hp : pk.partial? idx = some pp) {i : Nat} {s t : Slot P} (hs : pp.slots[i]? = some s)
    (hsr : s.state ≠ .received) (htr : t.state ≠ .received) :
    Keeps pk (if ({ pp with slots := pp.slots.set! i t } : PartialPiece P).idle then
      (pk.update { pp with slots := pp.slots.set! i t }).removePartial pp.index
    else pk.update { pp with slots := pp.slots.set! i t }) := by
  have hpi := (mem_of_partial? hp).2
  have hp' : pk.partial? pp.index = some pp := hpi ▸ hp
  have hi : i < pp.slots.size := (Array.getElem?_eq_some_iff.1 hs).1
  -- the piece has the same received blocks before and after
  have hsame : ∀ k, ({ pp with slots := pp.slots.set! i t } : PartialPiece P).ReceivedAt k ↔
      pp.ReceivedAt k := by
    intro k
    rw [PartialPiece.receivedAt_set hi]
    split
    · rename_i hk
      subst hk
      simp only [htr, false_iff]
      rintro ⟨s', hs', hrec⟩
      rw [hs] at hs'
      cases hs'
      exact hsr hrec
    · exact Iff.rfl
  have hupd := received_update_of_same hp'
    (show ({ pp with slots := pp.slots.set! i t } : PartialPiece P).index = pp.index from rfl) hsame
  split
  · rename_i hidle
    refine ⟨rfl, rfl, rfl, fun j k => ?_⟩
    rw [received_removePartial, hupd]
    by_cases hj : j = pp.index
    · subst hj
      simp only [ne_eq, not_true_eq_false, and_false, false_iff]
      rintro ⟨q, hq, hrec⟩
      rw [hp'] at hq
      cases hq
      exact PartialPiece.not_receivedAt_of_idle hidle k ((hsame k).2 hrec)
    · simp [hj]
  · exact ⟨rfl, rfl, rfl, hupd⟩

section

variable [DecidableEq P]

theorem keeps_cancelRequest {pk pk' : Picker P} (h : pk.Inv) {pe : P} {r : Request} {b : Bool}
    (hc : pk.cancelRequest pe r = .ok (b, pk')) : Keeps pk pk' := by
  rcases cancelRequest_cases h hc with rfl | ⟨pp, i, s, t, hp, hs, hst, -, -, htr, rfl⟩
  · exact Keeps.refl _
  · exact keeps_replaceSlot hp hs (by simp [hst]) htr

/-- Withdrawing requests one after another keeps the invariant and the received blocks. -/
theorem keeps_foldCancel {pk pk' : Picker P} (h : pk.Inv) {pe : P} {rs : List Request}
    (hf : rs.foldlM (fun pk r => do return (← pk.cancelRequest pe r).2) pk = .ok pk') :
    pk'.Inv ∧ Keeps pk pk' := by
  -- each cancel keeps the invariant, which the next cancel needs
  refine List.foldlM_except_inv (Q := fun q => q.Inv ∧ Keeps pk q)
    (fun q x c ⟨hq, hk⟩ hstep => ?_) _ _ _ ⟨h, Keeps.refl pk⟩ hf
  rw [Except.bind_eq_ok] at hstep
  obtain ⟨⟨b', c'⟩, hc, hstep⟩ := hstep
  simp only [pure, Except.pure, Except.ok.injEq] at hstep
  exact hstep ▸ ⟨hq.cancelRequest hc, hk.trans (keeps_cancelRequest hq hc)⟩

theorem keeps_releasePeer {pk pk' : Picker P} (h : pk.Inv) {pe : P} {n : Nat}
    (hr : pk.releasePeer pe = .ok (n, pk')) : Keeps pk pk' := by
  unfold Picker.releasePeer at hr
  rw [Except.bind_eq_ok] at hr
  obtain ⟨pk1, hfold, hr⟩ := hr
  have h1 := keeps_foldCancel h hfold
  simp only [pure, Except.pure, Except.ok.injEq, Prod.mk.injEq] at hr
  rw [← hr.2]
  exact h1.2.trans ⟨rfl, rfl, rfl, received_map (fun q => by split <;> simp)⟩

end

theorem keeps_handleHave {pk pk' : Picker P} {index : UInt32}
    (hr : pk.handleHave index = .ok pk') : Keeps pk pk' := by
  obtain ⟨a, rfl⟩ := handleHave_eq hr
  exact keeps_availability pk a

theorem keeps_handleBitfield {pk pk' : Picker P} {bf : Bitfield}
    (hr : pk.handleBitfield bf = .ok pk') : Keeps pk pk' := by
  obtain ⟨a, rfl⟩ := handleBitfield_eq hr
  exact keeps_availability pk a

theorem keeps_handleDisconnect {pk pk' : Picker P} {bf : Bitfield}
    (hr : pk.handleDisconnect bf = .ok pk') : Keeps pk pk' := by
  obtain ⟨a, rfl⟩ := handleDisconnect_eq hr
  exact keeps_availability pk a

/-! ## Answers, resets and verification -/

section

variable [DecidableEq P]

/-- An answer that wins marks its block received; the block was requested before, not
received. -/
theorem received_markReceived {pk pk' : Picker P} {pe : P} {r : Request} {others : List P}
    (hr : pk.markReceived pe r = .ok (true, others, pk')) :
    r.begin % blockSize = 0 ∧ ¬ pk.Received r.index (r.begin / blockSize).toNat ∧
      (∀ i k, pk'.Received i k ↔
        pk.Received i k ∨ (i = r.index ∧ k = (r.begin / blockSize).toNat)) ∧
      pk'.numPieces = pk.numPieces ∧ pk'.pieceLength = pk.pieceLength ∧
      pk'.verified = pk.verified := by
  rcases markReceived_cases hr with ⟨h, -⟩ | ⟨pp, i, s, hp, hi, hs, hst, -, -, -, -, rfl⟩
  · cases h
  obtain ⟨hmod, rfl⟩ := PartialPiece.slotAt?_eq_some hi
  have hpi := (mem_of_partial? hp).2
  have hp' : pk.partial? pp.index = some pp := hpi ▸ hp
  have hlt : (r.begin / blockSize).toNat < pp.slots.size := (Array.getElem?_eq_some_iff.1 hs).1
  refine ⟨hmod, ?_, fun j k => ?_, rfl, rfl, rfl⟩
  · -- the block was requested
    rintro ⟨q, hq, s', hs', hrec⟩
    rw [hp] at hq
    cases hq
    rw [hs] at hs'
    cases hs'
    rw [hst] at hrec
    cases hrec
  · have hrec : ∀ k, pk.Received r.index k ↔ pp.ReceivedAt k := fun k => by
      simp [Received, hp]
    rw [received_update, PartialPiece.receivedAt_set hlt]
    generalize (r.begin / blockSize).toNat = K
    simp only [hpi]
    by_cases hj : j = r.index
    · subst hj
      by_cases hk : k = K <;> simp [hk, hp, hrec]
    · simp [hj]

/-- A reset never faults: every requested or received block may go back to free. -/
theorem resetPiece_ok (pk : Picker P) (index : UInt32) :
    ∃ cs pk', pk.resetPiece index = .ok (cs, pk') := by
  unfold resetPiece
  cases pk.partial? index with
  | none => exact ⟨_, _, rfl⟩
  | some pp =>
    -- resetting one block never faults
    have hstep : ∀ s : Slot P, ∃ t, (if s.state == .requested || s.state == .received then
        s.moveTo .free else pure s : Except Fault (Slot P)) = .ok t := by
      intro s
      cases hs : s.state <;>
        simp [hs, Slot.moveTo, BlockState.Legal, pure, Except.pure]
    have hall : ∀ ss : List (Slot P), ∃ u, ss.mapM (fun s =>
        if s.state == .requested || s.state == .received then s.moveTo .free else pure s) =
          (.ok u : Except Fault (List (Slot P))) := by
      intro ss
      induction ss with
      | nil => exact ⟨[], rfl⟩
      | cons s ss ih =>
        obtain ⟨u, hu⟩ := ih
        obtain ⟨t, ht⟩ := hstep s
        refine ⟨t :: u, ?_⟩
        rw [List.mapM_cons, ht, hu]
        rfl
    obtain ⟨u, hu⟩ := hall pp.slots.toList
    refine ⟨pp.contributors, pk.removePartial index, ?_⟩
    simp only [bind, Except.bind] at hu ⊢
    rw [hu]
    rfl

/-- A reset forgets the blocks of its piece. -/
theorem received_resetPiece {pk pk' : Picker P} {index : UInt32} {cs : List P}
    (hr : pk.resetPiece index = .ok (cs, pk')) (i : UInt32) (k : Nat) :
    pk'.Received i k ↔ pk.Received i k ∧ i ≠ index := by
  rw [resetPiece_eq hr, received_removePartial]

end

/-- Moving blocks that are all received to verified never faults. -/
theorem moveAll_verified_ok {ss : List (Slot P)} (h : ∀ s ∈ ss, s.state = .received) :
    ∃ u, moveAll ss .verified = .ok u := by
  induction ss with
  | nil => exact ⟨[], rfl⟩
  | cons s ss ih =>
    obtain ⟨u, hu⟩ := ih fun t ht => h t (List.mem_cons_of_mem s ht)
    have hs := h s List.mem_cons_self
    have hmove : s.moveTo .verified = .ok { s with state := .verified } := by
      simp [Slot.moveTo, hs, BlockState.Legal]
    refine ⟨{ s with state := .verified } :: u, ?_⟩
    simp only [moveAll, List.mapM_cons] at hu ⊢
    rw [hmove, hu]
    rfl

/-- A partial piece of the picker has a slot per block of its piece. -/
theorem Inv.size_slots {pk : Picker P} (h : pk.Inv) {index : UInt32} {pp : PartialPiece P}
    (hp : pk.partial? index = some pp) :
    pp.slots.size = (Block.count (pk.pieceLength index)).toNat := by
  have ht := h.tracks pp (mem_of_partial? hp).1
  rw [← Array.length_toList, ← List.length_map (f := (·.block)), ht.sound.blocks,
    Block.length_all, ht.length, (mem_of_partial? hp).2]

/-- A received block is a block of its piece. -/
theorem Inv.lt_of_received {pk : Picker P} (h : pk.Inv) {i : UInt32} {k : Nat}
    (hr : pk.Received i k) : k < (Block.count (pk.pieceLength i)).toNat := by
  obtain ⟨pp, hp, s, hs, -⟩ := hr
  rw [← h.size_slots hp]
  exact (Array.getElem?_eq_some_iff.1 hs).1

/-- The slots of a piece of the picker whose blocks are all received are all received. -/
theorem AllReceived.slots {pk : Picker P} (h : pk.Inv) {index : UInt32}
    (hall : pk.AllReceived index) {pp : PartialPiece P} (hp : pk.partial? index = some pp) :
    ∀ s ∈ pp.slots.toList, s.state = .received := by
  have hsize := h.size_slots hp
  intro s hs
  obtain ⟨k, hk, rfl⟩ := List.getElem_of_mem hs
  have hk' : k < (Block.count (pk.pieceLength index)).toNat := by simpa [hsize] using hk
  obtain ⟨q, hq, s', hs', hrec⟩ := hall k hk'
  rw [hp] at hq
  cases hq
  rw [Array.getElem?_eq_some_iff] at hs'
  obtain ⟨_, rfl⟩ := hs'
  simpa using hrec

section

variable [DecidableEq P]

/-- **Verification never faults** on a piece of the torrent whose blocks are all received, in a
picker whose verified pieces have a bit per piece: the piece leaves the partial pieces and its
bit is set. -/
theorem markVerified_ok {pk : Picker P} (h : pk.Inv) {index : UInt32}
    (hlt : index < pk.numPieces) (hall : pk.AllReceived index)
    (hlen : pk.verified.length = pk.numPieces) (hsmall : pk.numPieces.toNat + 7 < 2 ^ 32) :
    ∃ sender bf, pk.verified.set index = .ok bf ∧
      pk.markVerified index = .ok (sender, { pk.removePartial index with verified := bf }) := by
  have hpos := Block.count_pos (h.length_pos index hlt)
  obtain ⟨pp, hp, -⟩ := hall 0 hpos
  have ht := h.tracks pp (mem_of_partial? hp).1
  have hunv : pk.verified.getD index = false := (mem_of_partial? hp).2 ▸ ht.unverified
  have htest := Bitfield.test_ok_of_lt (hlen ▸ hlt) (hlen ▸ hsmall)
  have hset := Bitfield.set_ok_of_lt (hlen ▸ hlt) (hlen ▸ hsmall)
  obtain ⟨u, hu⟩ := moveAll_verified_ok (hall.slots h hp)
  refine ⟨pp.soleSender, _, hset, ?_⟩
  simp [markVerified, htest, hunv, hp, hu, hset, bind, Except.bind, pure, Except.pure]

end

/-! ## Blocks restored from saved state -/

/-- No block is requested: every block of a partial piece is free or received. So it is while
blocks are restored from saved state, before any peer is asked. -/
def Unrequested (pk : Picker P) : Prop :=
  ∀ pp ∈ pk.partials, ∀ s ∈ pp.slots.toList, s.state = .free ∨ s.state = .received

theorem unrequested_new (numPieces : UInt32) (pieceLength : UInt32 → UInt32) (verified : Bitfield)
    (ranker : Ranker) : (new numPieces pieceLength verified ranker : Picker P).Unrequested :=
  fun _ h => absurd h List.not_mem_nil

/-- Slots of a piece after a free or received slot is put in place of slot `i` of a piece whose
slots are free or received. -/
theorem unrequested_set {pp : PartialPiece P}
    (hpp : ∀ s ∈ pp.slots.toList, s.state = .free ∨ s.state = .received) {i : Nat} {t : Slot P}
    (ht : t.state = .received) :
    ∀ s ∈ (pp.slots.set! i t).toList, s.state = .free ∨ s.state = .received := by
  intro s hs
  simp only [Array.set!_eq_setIfInBounds, Array.toList_setIfInBounds] at hs
  rcases List.mem_or_eq_of_mem_set hs with hs | rfl
  · exact hpp s hs
  · exact .inr ht

theorem Unrequested.restoreReceived {pk pk' : Picker P} (h : pk.Inv) (hu : pk.Unrequested)
    {index begin : UInt32} {b : Bool} (hr : pk.restoreReceived index begin = .ok (b, pk')) :
    pk'.Unrequested := by
  rcases restoreReceived_cases h hr with ⟨-, rfl, -⟩ |
      ⟨-, -, -, -, ⟨pp, s, hp, -, -, rfl⟩ | ⟨hp, s, -, rfl⟩⟩
  · exact hu
  · intro q hq
    rcases mem_update hq with rfl | hq
    · exact unrequested_set (hu pp (mem_of_partial? hp).1) rfl
    · exact hu q hq
  · intro q hq
    rcases mem_insertPartial.1 hq with rfl | hq
    · exact unrequested_set (fun s hs => .inl (PartialPiece.fresh_slots _ _ s hs).2) rfl
    · exact hu q hq

/-- Restoring a block of an unverified piece of the torrent, at a block boundary within the piece,
leaves it received, whatever it was before, and changes nothing else. -/
theorem received_restoreReceived {pk pk' : Picker P} (h : pk.Inv) (hu : pk.Unrequested)
    {index begin : UInt32} {b : Bool} (hr : pk.restoreReceived index begin = .ok (b, pk'))
    (hlt : index < pk.numPieces) (hv : pk.verified.getD index = false)
    (hmod : begin % blockSize = 0)
    (hk : (begin / blockSize).toNat < (Block.count (pk.pieceLength index)).toNat) :
    pk'.numPieces = pk.numPieces ∧ pk'.pieceLength = pk.pieceLength ∧
      pk'.verified = pk.verified ∧
      ∀ i m, pk'.Received i m ↔ pk.Received i m ∨ (i = index ∧ m = (begin / blockSize).toNat) := by
  rcases restoreReceived_cases h hr with ⟨-, rfl, hwhy⟩ |
      ⟨-, -, -, -, ⟨pp, s, hp, hs, -, rfl⟩ | ⟨hp, s, hs, rfl⟩⟩
  · -- nothing changed: the block was already received
    refine ⟨rfl, rfl, rfl, fun i m => ⟨.inl, ?_⟩⟩
    rintro (hrec | ⟨rfl, rfl⟩)
    · exact hrec
    rcases hwhy with hge | hver | hne | hle | ⟨pp, s, hp, hs, hnf⟩
    · exact absurd hlt (UInt32.not_lt.2 hge)
    · rw [hv] at hver; cases hver
    · exact absurd hmod hne
    · omega
    · have hfr := hu pp (mem_of_partial? hp).1 s (Array.mem_toList_iff.2 (Array.mem_of_getElem? hs))
      exact ⟨pp, hp, s, hs, hfr.resolve_left hnf⟩
  · have hpi := (mem_of_partial? hp).2
    have hlt' : (begin / blockSize).toNat < pp.slots.size := (Array.getElem?_eq_some_iff.1 hs).1
    have hrec : ∀ m, pk.Received index m ↔ pp.ReceivedAt m := fun m => by simp [Received, hp]
    refine ⟨rfl, rfl, rfl, fun i m => ?_⟩
    rw [received_update, PartialPiece.receivedAt_set hlt']
    generalize (begin / blockSize).toNat = K
    simp only [hpi]
    by_cases hi : i = index
    · subst hi
      by_cases hm : m = K <;> simp [hm, hrec, hp]
    · simp [hi]
  · have hfresh := partial?_eq_none.1 hp
    have hlt' : (begin / blockSize).toNat <
        (PartialPiece.fresh index (pk.pieceLength index) : PartialPiece P).slots.size :=
      (Array.getElem?_eq_some_iff.1 hs).1
    refine ⟨rfl, rfl, rfl, fun i m => ?_⟩
    rw [received_insertPartial rfl hfresh, PartialPiece.receivedAt_set hlt']
    have hnone : ∀ m, ¬ pk.Received index m := by
      rintro m ⟨q, hq, -⟩
      rw [hp] at hq
      cases hq
    -- the fresh piece has no received block
    have hfree : ∀ m, ¬ (PartialPiece.fresh index (pk.pieceLength index) : PartialPiece P).ReceivedAt m := by
      rintro m ⟨t, ht, hrec⟩
      have := (PartialPiece.fresh_slots (P := P) index (pk.pieceLength index) t
        (Array.mem_toList_iff.2 (Array.mem_of_getElem? ht))).2
      rw [this] at hrec
      cases hrec
    have hidx : (PartialPiece.fresh index (pk.pieceLength index) : PartialPiece P).index = index :=
      rfl
    generalize (begin / blockSize).toNat = K
    by_cases hi : i = index
    · subst hi
      by_cases hm : m = K
      · simp [hm, hidx]
      · simp [hm, hnone m, hfree m, hidx]
    · simp [hi, hidx]

end Picker

end BitTorrent
