import BitTorrent.Proofs.Bitfield
import BitTorrent.Proofs.Picker.Layout

/-!
# The representation invariant of the piece picker

The picker keeps one list of partial pieces by ascending index; it stands for both the ordered
tree and the map by index that a picker keeps, and the per-peer request sets are read off the
blocks (`Picker.requestsOf`). `Picker.Inv` says what every reachable picker satisfies:

* every piece of the torrent has a positive length, so a piece started gets a block;
* the partial pieces are strictly ascending by index, so a lookup by index (`Picker.partial?`)
  finds exactly the listed piece with that index (`Inv.partial?_iff`);
* every partial piece is tracked (`Picker.Tracks`): it is sound (its slots are the blocks of its
  piece, each with distinct requesters, requesters exactly when requested, a sender only when
  received, and some block busy), it is one of the torrent's pieces with that piece's length,
  and it is not verified.

From it, a peer's requests are exactly the requested blocks that list the peer
(`Inv.mem_requestsOf_iff`), and no request is held twice (`Inv.nodup_requestsOf`).

This module proves that the small edits of the partial pieces keep the invariant (replace one
piece, drop one, insert a fresh one) and that every operation but the selection keeps it; the
selection is in `BitTorrent.Proofs.Picker.Selection`.
-/

namespace BitTorrent

/-! ## Steps that may fail -/

theorem Except.bind_eq_ok {ε α β : Type} {x : Except ε α} {f : α → Except ε β} {b : β} :
    x >>= f = .ok b ↔ ∃ a, x = .ok a ∧ f a = .ok b := by
  cases x <;> simp [bind, Except.bind]

theorem Except.pure_eq_ok {ε α : Type} {a b : α} : (pure a : Except ε α) = .ok b ↔ a = b := by
  simp [pure, Except.pure]

/-- A thrown error never succeeds, whatever follows it. -/
theorem Except.throw_bind_ne_ok {ε α β : Type} (e : ε) (k : α → Except ε β) (r : β) :
    (throw e >>= k) ≠ Except.ok r := by
  simp [throw, throwThe, MonadExceptOf.throw, bind, Except.bind]

/-- A check of the answer of a step that may fail holds exactly when the step answers. -/
theorem Except.toOption_any_eq_true {ε α : Type} {x : Except ε α} {p : α → Bool} :
    x.toOption.any p = true ↔ ∃ a, x = .ok a ∧ p a = true := by
  cases x <;> simp [Except.toOption]

/-- A property that every step of a fold keeps holds of what the fold returns. -/
theorem List.foldlM_except_inv {ε α β : Type} {Q : β → Prop} {f : β → α → Except ε β}
    (hf : ∀ b x c, Q b → f b x = .ok c → Q c) :
    ∀ (l : List α) (b c : β), Q b → l.foldlM f b = .ok c → Q c := by
  intro l
  induction l with
  | nil =>
    intro b c hb h
    simp only [List.foldlM_nil, Except.pure_eq_ok] at h
    exact h ▸ hb
  | cons x l ih =>
    intro b c hb h
    rw [List.foldlM_cons, Except.bind_eq_ok] at h
    obtain ⟨b', hstep, hrest⟩ := h
    exact ih b' c (hf b x b' hb hstep) hrest

namespace Picker

variable {P : Type}

/-! ## The invariant -/

/-- What the picker keeps of a partial piece: the piece is sound, it is one of the torrent's
pieces, it has that piece's length, and it is not verified. -/
structure Tracks (pk : Picker P) (pp : PartialPiece P) : Prop where
  sound : pp.Sound
  lt : pp.index < pk.numPieces
  length : pp.length = pk.pieceLength pp.index
  unverified : pk.verified.getD pp.index = false

/-- The representation invariant: every piece of the torrent has a positive length, and the
partial pieces are strictly ascending by index, each tracked. -/
structure Inv (pk : Picker P) : Prop where
  length_pos : ∀ i, i < pk.numPieces → 0 < pk.pieceLength i
  ascending : pk.partials.Pairwise (fun a b => a.index < b.index)
  tracks : ∀ pp ∈ pk.partials, pk.Tracks pp

/-- Whether a piece is tracked reads only the piece count and lengths and the verified pieces. -/
theorem Tracks.frame {pk pk' : Picker P} {pp : PartialPiece P} (h : pk.Tracks pp)
    (hn : pk'.numPieces = pk.numPieces) (hl : pk'.pieceLength = pk.pieceLength)
    (hv : pk'.verified = pk.verified) : pk'.Tracks pp :=
  ⟨h.sound, hn ▸ h.lt, hl ▸ h.length, hv ▸ h.unverified⟩

/-- The invariant reads only the partial pieces, the piece count and lengths, and the verified
pieces. -/
theorem Inv.frame {pk pk' : Picker P} (h : pk.Inv) (hp : pk'.partials = pk.partials)
    (hn : pk'.numPieces = pk.numPieces) (hl : pk'.pieceLength = pk.pieceLength)
    (hv : pk'.verified = pk.verified) : pk'.Inv :=
  ⟨fun i hi => hl ▸ h.length_pos i (hn ▸ hi), hp ▸ h.ascending,
    fun pp hpp => (h.tracks pp (hp ▸ hpp)).frame hn hl hv⟩

/-- A new picker over pieces of positive length satisfies the invariant: it has no partial
pieces. -/
theorem new_inv {numPieces : UInt32} {pieceLength : UInt32 → UInt32}
    (hpos : ∀ i, i < numPieces → 0 < pieceLength i) (verified : Bitfield) (ranker : Ranker) :
    (new numPieces pieceLength verified ranker : Picker P).Inv :=
  ⟨hpos, List.Pairwise.nil, fun _ h => absurd h List.not_mem_nil⟩

/-! ## Lookup by index -/

theorem mem_of_partial? {pk : Picker P} {i : UInt32} {pp : PartialPiece P}
    (h : pk.partial? i = some pp) : pp ∈ pk.partials ∧ pp.index = i :=
  ⟨List.mem_of_find?_eq_some h, by simpa using List.find?_some h⟩

theorem partial?_eq_none {pk : Picker P} {i : UInt32} :
    pk.partial? i = none ↔ ∀ q ∈ pk.partials, q.index ≠ i := by
  simp [partial?, List.find?_eq_none]

/-- In a list strictly ascending by index, the search by index finds each member. -/
theorem find?_index_of_mem {ps : List (PartialPiece P)}
    (hs : ps.Pairwise (fun a b => a.index < b.index)) {pp : PartialPiece P} (hpp : pp ∈ ps) :
    ps.find? (·.index == pp.index) = some pp := by
  induction ps with
  | nil => exact absurd hpp List.not_mem_nil
  | cons q ps ih =>
    rw [List.pairwise_cons] at hs
    rcases List.mem_cons.1 hpp with rfl | hmem
    · simp
    · have hne : q.index ≠ pp.index := fun heq => by
        have := hs.1 pp hmem
        rw [heq, UInt32.lt_iff_toNat_lt] at this
        omega
      simp [hne, ih hs.2 hmem]

/-- The lookup by index is the listed piece with that index: one tree and one map in step. -/
theorem Inv.partial?_iff {pk : Picker P} (h : pk.Inv) {i : UInt32} {pp : PartialPiece P} :
    pk.partial? i = some pp ↔ pp ∈ pk.partials ∧ pp.index = i := by
  refine ⟨mem_of_partial?, ?_⟩
  rintro ⟨hpp, rfl⟩
  exact find?_index_of_mem h.ascending hpp

/-! ## Replacing, dropping and inserting a partial piece -/

theorem mem_update {pk : Picker P} {pp q : PartialPiece P} (hq : q ∈ (pk.update pp).partials) :
    q = pp ∨ q ∈ pk.partials := by
  simp only [update, List.mem_map] at hq
  obtain ⟨q0, hq0, rfl⟩ := hq
  by_cases hidx : q0.index = pp.index
  · simp [hidx]
  · simp [hidx, hq0]

theorem Inv.update {pk : Picker P} (h : pk.Inv) {pp : PartialPiece P} (hpp : pk.Tracks pp) :
    (pk.update pp).Inv := by
  refine ⟨h.length_pos, ?_, fun q hq => ?_⟩
  · simp only [Picker.update]
    rw [List.pairwise_map]
    refine h.ascending.imp fun {a b} hab => ?_
    by_cases ha : a.index = pp.index <;> by_cases hb : b.index = pp.index <;>
      simp [ha, hb] at hab ⊢ <;> exact hab
  · rcases mem_update hq with rfl | hq
    · exact hpp.frame rfl rfl rfl
    · exact (h.tracks q hq).frame rfl rfl rfl

theorem Inv.removePartial {pk : Picker P} (h : pk.Inv) (i : UInt32) :
    (pk.removePartial i).Inv := by
  refine ⟨h.length_pos, h.ascending.filter _, fun q hq => ?_⟩
  simp only [Picker.removePartial, List.mem_filter] at hq
  exact (h.tracks q hq.1).frame rfl rfl rfl

/-- Dropping a piece after replacing it is dropping it. -/
theorem removePartial_update (pk : Picker P) (pp : PartialPiece P) :
    (pk.update pp).removePartial pp.index = pk.removePartial pp.index := by
  simp only [Picker.removePartial, Picker.update]
  congr 1
  induction pk.partials with
  | nil => rfl
  | cons q ps ih => by_cases hq : q.index = pp.index <;> simp_all

theorem removePartial_of_partial?_eq_none {pk : Picker P} {i : UInt32}
    (h : pk.partial? i = none) : pk.removePartial i = pk := by
  have hall := partial?_eq_none.1 h
  simp only [Picker.removePartial]
  rw [List.filter_eq_self.2 fun q hq => by simpa using hall q hq]

theorem mem_insertPartial {pp q : PartialPiece P} {ps : List (PartialPiece P)} :
    q ∈ insertPartial pp ps ↔ q = pp ∨ q ∈ ps := by
  induction ps with
  | nil => simp [insertPartial]
  | cons r ps ih =>
    unfold insertPartial
    split
    · simp
    · rw [List.mem_cons, ih, List.mem_cons]
      exact or_left_comm

theorem pairwise_insertPartial {pp : PartialPiece P} {ps : List (PartialPiece P)}
    (hs : ps.Pairwise (fun a b => a.index < b.index)) (hfresh : ∀ q ∈ ps, q.index ≠ pp.index) :
    (insertPartial pp ps).Pairwise (fun a b => a.index < b.index) := by
  induction ps with
  | nil => simp [insertPartial]
  | cons r ps ih =>
    rw [List.pairwise_cons] at hs
    unfold insertPartial
    split
    · rename_i hlt
      refine List.pairwise_cons.2 ⟨fun q hq => ?_, List.pairwise_cons.2 hs⟩
      rcases List.mem_cons.1 hq with rfl | hq
      · exact hlt
      · have := hs.1 q hq
        rw [UInt32.lt_iff_toNat_lt] at this hlt ⊢
        omega
    · rename_i hge
      refine List.pairwise_cons.2 ⟨fun q hq => ?_, ih hs.2 fun q hq => hfresh q (by simp [hq])⟩
      rcases mem_insertPartial.1 hq with rfl | hq
      · have hne := hfresh r (by simp)
        rw [UInt32.lt_iff_toNat_lt] at hge ⊢
        have : r.index.toNat ≠ q.index.toNat := fun h => hne (UInt32.toNat_inj.1 h)
        omega
      · exact hs.1 q hq

/-- Starting a piece that is not partial yet keeps the invariant when the piece is tracked. -/
theorem Inv.insert {pk : Picker P} (h : pk.Inv) {pp : PartialPiece P} (hpp : pk.Tracks pp)
    (hfresh : ∀ q ∈ pk.partials, q.index ≠ pp.index) :
    ({ pk with partials := insertPartial pp pk.partials } : Picker P).Inv := by
  refine ⟨h.length_pos, pairwise_insertPartial h.ascending hfresh, fun q hq => ?_⟩
  rcases mem_insertPartial.1 hq with rfl | hq
  · exact hpp.frame rfl rfl rfl
  · exact (h.tracks q hq).frame rfl rfl rfl

/-- Replacing a piece just inserted is inserting the replacement. -/
theorem update_insertPartial {pp pp' : PartialPiece P} {ps : List (PartialPiece P)}
    (hfresh : ∀ q ∈ ps, q.index ≠ pp.index) (hidx : pp'.index = pp.index) :
    (insertPartial pp ps).map (fun q => if q.index == pp'.index then pp' else q) =
      insertPartial pp' ps := by
  rw [hidx]
  induction ps with
  | nil => simp [insertPartial]
  | cons r ps ih =>
    have hr : r.index ≠ pp.index := hfresh r (by simp)
    have ih := ih fun q hq => hfresh q (by simp [hq])
    have hps : ps.map (fun q => if q.index == pp.index then pp' else q) = ps := by
      refine (List.map_congr_left fun q hq => ?_).trans (List.map_id ps)
      simp [hfresh q (by simp [hq])]
    simp only [beq_iff_eq] at hps ih
    unfold insertPartial
    rw [hidx]
    split
    · simp [hr, hps]
    · simp [hr, ih]

theorem find?_insertPartial {pp : PartialPiece P} {ps : List (PartialPiece P)}
    (hfresh : ∀ q ∈ ps, q.index ≠ pp.index) :
    (insertPartial pp ps).find? (·.index == pp.index) = some pp := by
  induction ps with
  | nil => simp [insertPartial]
  | cons r ps ih =>
    have hr : r.index ≠ pp.index := hfresh r (by simp)
    unfold insertPartial
    split
    · simp
    · simp [hr, ih fun q hq => hfresh q (by simp [hq])]

/-- Dropping a piece just inserted gives back the pieces before. -/
theorem filter_insertPartial {pp : PartialPiece P} {ps : List (PartialPiece P)}
    (hfresh : ∀ q ∈ ps, q.index ≠ pp.index) :
    (insertPartial pp ps).filter (·.index != pp.index) = ps := by
  induction ps with
  | nil => simp [insertPartial]
  | cons r ps ih =>
    have hr : r.index ≠ pp.index := hfresh r (by simp)
    unfold insertPartial
    split
    · simp only [List.filter_cons, bne_self_eq_false, Bool.false_eq_true, ↓reduceIte]
      simp only [bne_iff_ne, ne_eq, hr, not_false_eq_true, ↓reduceIte]
      rw [List.filter_eq_self.2 fun q hq => by simpa using hfresh q (by simp [hq])]
    · simp [hr, ih fun q hq => hfresh q (by simp [hq])]

/-! ## Pieces that change only outside their blocks -/

/-- Changing partial pieces only outside their index, length and slots (their reservation)
keeps the invariant. -/
theorem Inv.map {pk : Picker P} (h : pk.Inv) (g : PartialPiece P → PartialPiece P)
    (hg : ∀ q, (g q).index = q.index ∧ (g q).length = q.length ∧ (g q).slots = q.slots) :
    ({ pk with partials := pk.partials.map g } : Picker P).Inv := by
  refine ⟨h.length_pos, ?_, fun q hq => ?_⟩
  · rw [List.pairwise_map]
    exact h.ascending.imp fun {a b} hab => by rw [(hg a).1, (hg b).1]; exact hab
  · obtain ⟨q0, hq0, rfl⟩ := List.mem_map.1 hq
    obtain ⟨hidx, hlen, hslots⟩ := hg q0
    have ht := h.tracks q0 hq0
    refine ⟨⟨?_, ?_, ?_⟩, ?_, ?_, ?_⟩
    · rw [hslots, hlen]; exact ht.sound.blocks
    · rw [hslots]; exact ht.sound.slots
    · simp only [PartialPiece.idle, PartialPiece.count, hslots]; exact ht.sound.busy
    · rw [hidx]; exact ht.lt
    · rw [hidx, hlen]; exact ht.length
    · rw [hidx]; exact ht.unverified

/-! ## Replacing one slot -/

/-- Putting a sound slot for the same block in place of slot `i` keeps a piece tracked, as long
as some block stays busy. -/
theorem Tracks.set {pk : Picker P} {pp : PartialPiece P} (hpp : pk.Tracks pp) {i : Nat}
    {s t : Slot P} (hs : pp.slots[i]? = some s) (hblock : t.block = s.block) (ht : t.Sound)
    (hbusy : ({ pp with slots := pp.slots.set! i t } : PartialPiece P).idle = false) :
    pk.Tracks { pp with slots := pp.slots.set! i t } :=
  ⟨PartialPiece.sound_set hpp.sound.blocks hpp.sound.slots hs hblock ht hbusy, hpp.lt,
    hpp.length, hpp.unverified⟩

/-- Replacing one slot of a tracked piece by a sound slot for the same block, and dropping the
piece when that leaves it idle, keeps the invariant. -/
theorem Inv.replaceSlot {pk : Picker P} (h : pk.Inv) {idx : UInt32} {pp : PartialPiece P}
    (hp : pk.partial? idx = some pp) {i : Nat} {s t : Slot P} (hs : pp.slots[i]? = some s)
    (ht : t.Sound) (hblock : t.block = s.block) :
    (if ({ pp with slots := pp.slots.set! i t } : PartialPiece P).idle then
      (pk.update { pp with slots := pp.slots.set! i t }).removePartial pp.index
    else pk.update { pp with slots := pp.slots.set! i t }).Inv := by
  split
  · exact removePartial_update pk _ ▸ h.removePartial pp.index
  · rename_i hidle
    exact h.update ((h.tracks pp (mem_of_partial? hp).1).set hs hblock ht (by simpa using hidle))

/-! ## Availability -/

/-- Counting holders changes nothing but the counts. -/
theorem handleHave_eq {pk pk' : Picker P} {index : UInt32} (hr : pk.handleHave index = .ok pk') :
    ∃ a, pk' = { pk with availability := a } := by
  unfold Picker.handleHave at hr
  rw [Except.bind_eq_ok] at hr
  obtain ⟨c, -, hr⟩ := hr
  simp only [pure, Except.pure, Except.ok.injEq] at hr
  exact ⟨_, hr.symm⟩

theorem handleBitfield_eq {pk pk' : Picker P} {bf : Bitfield} (hr : pk.handleBitfield bf = .ok pk') :
    ∃ a, pk' = { pk with availability := a } := by
  refine List.foldlM_except_inv (Q := fun q => ∃ a, q = { pk with availability := a })
    (fun q x c ⟨a, hq⟩ hstep => ?_) _ _ _ ⟨_, rfl⟩ hr
  rw [Except.bind_eq_ok] at hstep
  obtain ⟨v, -, hstep⟩ := hstep
  cases v with
  | true =>
    obtain ⟨a', rfl⟩ := handleHave_eq hstep
    exact ⟨a', by rw [hq]⟩
  | false =>
    simp only [Bool.false_eq_true, ↓reduceIte, pure, Except.pure, Except.ok.injEq] at hstep
    exact ⟨a, hstep ▸ hq⟩

theorem handleDisconnect_eq {pk pk' : Picker P} {bf : Bitfield}
    (hr : pk.handleDisconnect bf = .ok pk') : ∃ a, pk' = { pk with availability := a } := by
  refine List.foldlM_except_inv (Q := fun q => ∃ a, q = { pk with availability := a })
    (fun q x c ⟨a, hq⟩ hstep => ?_) _ _ _ ⟨_, rfl⟩ hr
  rw [Except.bind_eq_ok] at hstep
  obtain ⟨v, -, hstep⟩ := hstep
  cases v with
  | true =>
    simp only [↓reduceIte] at hstep
    split at hstep <;>
      simp only [pure, Except.pure, Except.ok.injEq] at hstep <;>
      exact ⟨_, by rw [← hstep, hq]⟩
  | false =>
    simp only [Bool.false_eq_true, ↓reduceIte, pure, Except.pure, Except.ok.injEq] at hstep
    exact ⟨a, hstep ▸ hq⟩

theorem Inv.handleHave {pk pk' : Picker P} (h : pk.Inv) {index : UInt32}
    (hr : pk.handleHave index = .ok pk') : pk'.Inv := by
  obtain ⟨a, rfl⟩ := handleHave_eq hr
  exact h.frame rfl rfl rfl rfl

theorem Inv.handleBitfield {pk pk' : Picker P} (h : pk.Inv) {bf : Bitfield}
    (hr : pk.handleBitfield bf = .ok pk') : pk'.Inv := by
  obtain ⟨a, rfl⟩ := handleBitfield_eq hr
  exact h.frame rfl rfl rfl rfl

theorem Inv.handleDisconnect {pk pk' : Picker P} (h : pk.Inv) {bf : Bitfield}
    (hr : pk.handleDisconnect bf = .ok pk') : pk'.Inv := by
  obtain ⟨a, rfl⟩ := handleDisconnect_eq hr
  exact h.frame rfl rfl rfl rfl

/-! ## Blocks restored from saved state -/

/-- A restored block moves from free to received, with no requesters and no sender. -/
theorem Slot.sound_restored {s : Slot P} (hs : s.Sound) (hfree : s.state = .free) :
    ({ s with state := .received } : Slot P).Sound :=
  ⟨hs.nodup, by simp [hs.requested_eq_nil (by simp [hfree])],
    by simp [hs.sender_eq_none (by simp [hfree])]⟩

/-- What restoring the block at `begin` of piece `index` can do: nothing, when the piece is past
the end or verified, no block of it starts at `begin`, or that block is not free; otherwise the
free block is received, in the partial piece or in a piece started for it. -/
theorem restoreReceived_cases {pk pk' : Picker P} (h : pk.Inv) {index begin : UInt32} {b : Bool}
    (hr : pk.restoreReceived index begin = .ok (b, pk')) :
    (b = false ∧ pk' = pk ∧
      (pk.numPieces ≤ index ∨ pk.verified.getD index = true ∨ begin % blockSize ≠ 0 ∨
        (Block.count (pk.pieceLength index)).toNat ≤ (begin / blockSize).toNat ∨
        ∃ pp s, pk.partial? index = some pp ∧ pp.slots[(begin / blockSize).toNat]? = some s ∧
          s.state ≠ .free)) ∨
    (b = true ∧ index < pk.numPieces ∧ pk.verified.getD index = false ∧
      begin % blockSize = 0 ∧
      ((∃ pp s, pk.partial? index = some pp ∧ pp.slots[(begin / blockSize).toNat]? = some s ∧
          s.state = .free ∧
          pk' = pk.update { pp with
            slots := (pp.slots.set! (begin / blockSize).toNat { s with state := .received }) }) ∨
       (pk.partial? index = none ∧
          ∃ s, (PartialPiece.fresh index (pk.pieceLength index) : PartialPiece P).slots[
            (begin / blockSize).toNat]? = some s ∧
          pk' = { pk with partials := (insertPartial
            { (PartialPiece.fresh index (pk.pieceLength index) : PartialPiece P) with
              slots := ((PartialPiece.fresh index (pk.pieceLength index)).slots.set!
                (begin / blockSize).toNat { s with state := .received }) } pk.partials) }))) := by
  unfold Picker.restoreReceived at hr
  by_cases hn : index ≥ pk.numPieces
  · simp only [hn, ↓reduceIte, pure, Except.pure, Except.ok.injEq, Prod.mk.injEq] at hr
    exact .inl ⟨hr.1.symm, hr.2.symm, .inl hn⟩
  simp only [hn, ↓reduceIte] at hr
  rw [Except.bind_eq_ok] at hr
  obtain ⟨v, hv, hr⟩ := hr
  have hvd := Bitfield.getD_of_test_eq_ok hv
  cases v with
  | true =>
    simp only [↓reduceIte, pure, Except.pure, Except.ok.injEq, Prod.mk.injEq] at hr
    exact .inl ⟨hr.1.symm, hr.2.symm, .inr (.inl hvd)⟩
  | false =>
  simp only [Bool.false_eq_true, ↓reduceIte] at hr
  have hlt : index < pk.numPieces := by
    rw [UInt32.lt_iff_toNat_lt]; rw [ge_iff_le, UInt32.le_iff_toNat_le] at hn; omega
  -- a piece of this index has one slot per block of the piece
  have hsize : ∀ pp : PartialPiece P,
      pp.slots.toList.map (·.block) = Block.all (pk.pieceLength index) →
      pp.slots.size = (Block.count (pk.pieceLength index)).toNat := by
    intro pp hb
    rw [← Array.length_toList, ← List.length_map (f := (·.block)), hb, Block.length_all]
  cases hp : pk.partial? index with
  | some pp =>
    have ht := h.tracks pp (mem_of_partial? hp).1
    have hb : pp.slots.toList.map (·.block) = Block.all (pk.pieceLength index) := by
      rw [ht.sound.blocks, ht.length, (mem_of_partial? hp).2]
    simp only [hp] at hr
    split at hr
    · -- no block of the piece starts at `begin`
      rename_i hk
      simp only [ht.sound.busy, Bool.false_eq_true, ↓reduceIte, pure, Except.pure,
        Except.ok.injEq, Prod.mk.injEq] at hr
      simp only [Bool.or_eq_true, bne_iff_ne, ne_eq, decide_eq_true_eq, ge_iff_le,
        hsize pp hb] at hk
      refine .inl ⟨hr.1.symm, hr.2.symm, ?_⟩
      rcases hk with hk | hk
      · exact .inr (.inr (.inl hk))
      · exact .inr (.inr (.inr (.inl hk)))
    · rename_i hk
      simp only [Bool.or_eq_true, bne_iff_ne, ne_eq, decide_eq_true_eq, not_or,
        Decidable.not_not, ge_iff_le, Nat.not_le] at hk
      have hs := Array.getElem?_eq_getElem hk.2
      rw [hs] at hr
      simp only at hr
      split at hr
      · -- the block is not free
        rename_i hnf
        simp only [pure, Except.pure, Except.ok.injEq, Prod.mk.injEq] at hr
        exact .inl ⟨hr.1.symm, hr.2.symm, .inr (.inr (.inr (.inr
          ⟨pp, _, rfl, hs, by simpa using hnf⟩)))⟩
      · rename_i hfree
        have hfree' : pp.slots[(begin / blockSize).toNat].state = .free := by simpa using hfree
        simp only [Slot.moveTo, hfree', BlockState.Legal, ↓reduceIte, bind, Except.bind, pure,
          Except.pure, Except.ok.injEq, Prod.mk.injEq] at hr
        exact .inr ⟨hr.1.symm, hlt, hvd, hk.1, .inl ⟨pp, _, rfl, hs, hfree', hr.2.symm⟩⟩
  | none =>
    have hfresh := partial?_eq_none.1 hp
    simp only [hp] at hr
    split at hr
    · -- the fresh piece has no block at `begin` and is dropped again
      rename_i hk
      simp only [PartialPiece.fresh_idle, start, ↓reduceIte, pure, Except.pure, Except.ok.injEq,
        Prod.mk.injEq] at hr
      simp only [start, Bool.or_eq_true, bne_iff_ne, ne_eq, decide_eq_true_eq, ge_iff_le,
        hsize _ (PartialPiece.fresh_blocks index _)] at hk
      refine .inl ⟨hr.1.symm, ?_, ?_⟩
      · rw [← hr.2]
        exact congrArg (fun ps => ({ pk with partials := ps } : Picker P))
          (@filter_insertPartial P (PartialPiece.fresh index (pk.pieceLength index)) _ hfresh)
      · rcases hk with hk | hk
        · exact .inr (.inr (.inl hk))
        · exact .inr (.inr (.inr (.inl hk)))
    · rename_i hk
      simp only [Bool.or_eq_true, bne_iff_ne, ne_eq, decide_eq_true_eq, not_or,
        Decidable.not_not, ge_iff_le, Nat.not_le] at hk
      have hs := Array.getElem?_eq_getElem hk.2
      rw [hs] at hr
      simp only at hr
      have hfree' : ((pk.start index).1.slots[(begin / blockSize).toNat]).state = .free :=
        (PartialPiece.fresh_slots (P := P) index (pk.pieceLength index) _
          (Array.mem_toList_iff.2 (Array.getElem_mem hk.2))).2
      simp only [hfree', bne_self_eq_false, Bool.false_eq_true, ↓reduceIte, Slot.moveTo,
        BlockState.Legal, bind, Except.bind, pure, Except.pure, Except.ok.injEq,
        Prod.mk.injEq] at hr
      refine .inr ⟨hr.1.symm, hlt, hvd, hk.1, .inr ⟨rfl, _, hs, ?_⟩⟩
      rw [← hr.2]
      exact congrArg (fun ps => ({ pk with partials := ps } : Picker P))
        (update_insertPartial hfresh rfl)

/-- A block restored from saved state is received from nobody; a piece started for a block that
it does not have is dropped again. -/
theorem Inv.restoreReceived {pk pk' : Picker P} (h : pk.Inv) {index begin : UInt32} {b : Bool}
    (hr : pk.restoreReceived index begin = .ok (b, pk')) : pk'.Inv := by
  rcases restoreReceived_cases h hr with ⟨-, rfl, -⟩ |
      ⟨-, hlt, hv, -, ⟨pp, s, hp, hs, hfree, rfl⟩ | ⟨hp, s, hs, rfl⟩⟩
  · exact h
  · have ht := h.tracks pp (mem_of_partial? hp).1
    have hk := (Array.getElem?_eq_some_iff.1 hs).1
    exact h.update (ht.set hs rfl (Slot.sound_restored (ht.sound.slots s
      (Array.mem_toList_iff.2 (Array.mem_of_getElem? hs))) hfree)
      (PartialPiece.idle_set_eq_false hk (by simp)))
  · have hfresh := partial?_eq_none.1 hp
    have hk := (Array.getElem?_eq_some_iff.1 hs).1
    have hslot := PartialPiece.fresh_slots (P := P) index (pk.pieceLength index) s
      (Array.mem_toList_iff.2 (Array.mem_of_getElem? hs))
    have hsound := PartialPiece.sound_set (PartialPiece.fresh_blocks _ _)
      (fun s hs => (PartialPiece.fresh_slots _ _ s hs).1) hs
      (t := { s with state := .received }) rfl (Slot.sound_restored hslot.1 hslot.2)
      (PartialPiece.idle_set_eq_false hk (by simp))
    exact h.insert ⟨hsound, hlt, rfl, hv⟩ hfresh

/-! ## The requests of a peer -/

variable [DecidableEq P]

theorem mem_requestsOf {pk : Picker P} {pe : P} {r : Request} :
    r ∈ pk.requestsOf pe ↔
      ∃ pp ∈ pk.partials, ∃ s ∈ pp.slots.toList, pe ∈ s.requested ∧ s.toRequest pp.index = r := by
  simp [requestsOf, PartialPiece.requestsOf, and_assoc]

/-- A peer's requests are exactly the requested blocks that list the peer among their
requesters: the request sets of the peers are the inverse of the blocks' requester lists. -/
theorem Inv.mem_requestsOf_iff {pk : Picker P} (h : pk.Inv) {pe : P} {r : Request} :
    r ∈ pk.requestsOf pe ↔
      ∃ pp i s, pk.partial? r.index = some pp ∧ pp.slotAt? r.begin r.length = some i ∧
        pp.slots[i]? = some s ∧ s.state = .requested ∧ pe ∈ s.requested := by
  rw [mem_requestsOf]
  constructor
  · rintro ⟨pp, hpp, s, hs, hpe, rfl⟩
    obtain ⟨i, hi⟩ := List.mem_iff_getElem?.1 hs
    have hi' : pp.slots[i]? = some s := by simpa using hi
    have ht := h.tracks pp hpp
    exact ⟨pp, i, s, h.partial?_iff.2 ⟨hpp, rfl⟩, PartialPiece.slotAt?_block ht.sound.blocks hi',
      hi', (ht.sound.slots s hs).state_of_mem hpe, hpe⟩
  · rintro ⟨pp, i, s, hp, hi, hs, -, hpe⟩
    obtain ⟨hpp, hidx⟩ := mem_of_partial? hp
    obtain ⟨s', hs', hb, hl⟩ := PartialPiece.block_of_slotAt? (h.tracks pp hpp).sound.blocks hi
    rw [hs] at hs'
    cases hs'
    refine ⟨pp, hpp, s, Array.mem_toList_iff.2 (Array.mem_of_getElem? hs), hpe, ?_⟩
    simp [Slot.toRequest, Block.toRequest, hidx, hb, hl]

theorem index_of_mem_requestsOf {pp : PartialPiece P} {pe : P} {r : Request}
    (hr : r ∈ pp.requestsOf pe) : r.index = pp.index := by
  simp only [PartialPiece.requestsOf, List.mem_map, List.mem_filter] at hr
  obtain ⟨s, -, rfl⟩ := hr
  rfl

/-- No two blocks of a piece start at the same offset. -/
theorem pairwise_begin_all (len : UInt32) :
    (Block.all len).Pairwise (fun a b => a.begin ≠ b.begin) := by
  unfold Block.all
  rw [List.pairwise_map]
  refine List.pairwise_lt_range.imp_of_mem fun {a b} ha hb hab heq => ?_
  have ha' := Block.begin_nth_toNat (List.mem_range.1 ha)
  have hb' := Block.begin_nth_toNat (List.mem_range.1 hb)
  rw [heq] at ha'
  omega

/-- No request is held twice by one peer, so the number of requests of a peer counts distinct
blocks. -/
theorem Inv.nodup_requestsOf {pk : Picker P} (h : pk.Inv) (pe : P) : (pk.requestsOf pe).Nodup := by
  unfold requestsOf
  refine List.pairwise_flatMap.2 ⟨fun pp hpp => ?_, ?_⟩
  · have hbegin : pp.slots.toList.Pairwise (fun a b => a.block.begin ≠ b.block.begin) := by
      have := pairwise_begin_all pp.length
      rwa [← (h.tracks pp hpp).sound.blocks, List.pairwise_map] at this
    unfold PartialPiece.requestsOf
    rw [List.pairwise_map]
    refine (hbegin.sublist List.filter_sublist).imp fun {a b} hab heq => hab ?_
    simpa [Slot.toRequest, Block.toRequest] using congrArg Request.begin heq
  · refine h.ascending.imp fun {a b} hab x hx y hy heq => ?_
    rw [← index_of_mem_requestsOf hx, ← index_of_mem_requestsOf hy, heq,
      UInt32.lt_iff_toNat_lt] at hab
    omega

/-! ## Answers, verification and reset -/

theorem markReceived_cases {pk pk' : Picker P} {pe : P} {r : Request} {ok : Bool}
    {others : List P} (hr : pk.markReceived pe r = .ok (ok, others, pk')) :
    (ok = false ∧ others = [] ∧ pk' = pk) ∨
      ∃ pp i s, pk.partial? r.index = some pp ∧ pp.slotAt? r.begin r.length = some i ∧
        pp.slots[i]? = some s ∧ s.state = .requested ∧ pe ∈ s.requested ∧ ok = true ∧
        others = s.requested.filter (· ≠ pe) ∧
        pk' = pk.update { pp with slots := (pp.slots.set! i
          { s with requested := [], state := .received, sender := some pe }) } := by
  have unchanged : (pure (false, [], pk) : Except Fault _) = .ok (ok, others, pk') →
      ok = false ∧ others = [] ∧ pk' = pk := by
    simp only [pure, Except.pure, Except.ok.injEq, Prod.mk.injEq]
    exact fun ⟨h1, h2, h3⟩ => ⟨h1.symm, h2.symm, h3.symm⟩
  unfold markReceived at hr
  cases hp : pk.partial? r.index with
  | none => exact .inl (unchanged (by simpa [hp] using hr))
  | some pp =>
    cases hi : pp.slotAt? r.begin r.length with
    | none => exact .inl (unchanged (by simpa [hp, hi] using hr))
    | some i =>
      cases hs : pp.slots[i]? with
      | none => exact .inl (unchanged (by simpa [hp, hi, hs] using hr))
      | some s =>
        simp only [hp, hi, hs] at hr
        split at hr
        · exact .inl (unchanged hr)
        · rename_i hc
          simp only [Bool.or_eq_true, bne_iff_ne, ne_eq, Bool.not_eq_eq_eq_not, Bool.not_true,
            decide_eq_false_iff_not, not_or, Decidable.not_not] at hc
          simp only [Slot.moveTo, hc.1, BlockState.Legal, ↓reduceIte, bind, Except.bind, pure,
            Except.pure, Except.ok.injEq, Prod.mk.injEq] at hr
          obtain ⟨rfl, rfl, rfl⟩ := hr
          exact .inr ⟨pp, i, s, rfl, hi, hs, hc.1, hc.2, rfl, rfl, rfl⟩

/-- A delivered block leaves its piece busy and its bookkeeping sound: it has no requesters
left and names its sender. -/
theorem Inv.markReceived {pk pk' : Picker P} (h : pk.Inv) {pe : P} {r : Request} {ok : Bool}
    {others : List P} (hr : pk.markReceived pe r = .ok (ok, others, pk')) : pk'.Inv := by
  rcases markReceived_cases hr with ⟨-, -, rfl⟩ | ⟨pp, i, s, hp, -, hs, -, -, -, -, rfl⟩
  · exact h
  · have ht := h.tracks pp (mem_of_partial? hp).1
    have hi : i < pp.slots.size := (Array.getElem?_eq_some_iff.1 hs).1
    exact h.update (ht.set hs rfl ⟨List.nodup_nil, by simp, fun _ => rfl⟩
      (PartialPiece.idle_set_eq_false hi (by simp)))

theorem markVerified_cases {pk pk' : Picker P} {index : UInt32} {sender : Option P}
    (h : pk.markVerified index = .ok (sender, pk')) :
    pk' = pk ∨ ∃ bf, pk.verified.set index = .ok bf ∧
      pk' = { pk.removePartial index with verified := bf } := by
  unfold markVerified at h
  rw [Except.bind_eq_ok] at h
  obtain ⟨v, -, h⟩ := h
  cases v with
  | true =>
    simp only [↓reduceIte, pure, Except.pure, Except.ok.injEq, Prod.mk.injEq] at h
    exact .inl h.2.symm
  | false =>
    simp only [Bool.false_eq_true, ↓reduceIte] at h
    cases hp : pk.partial? index with
    | none =>
      simp only [hp, bind, Except.bind, pure, Except.pure] at h
      cases hbf : pk.verified.set index with
      | error e => simp [hbf] at h
      | ok bf =>
        simp only [hbf, Except.ok.injEq, Prod.mk.injEq] at h
        rw [removePartial_of_partial?_eq_none hp]
        exact .inr ⟨bf, rfl, h.2.symm⟩
    | some pp =>
      simp only [hp, bind, Except.bind, pure, Except.pure] at h
      cases hm : moveAll pp.slots.toList BlockState.verified with
      | error e => simp [hm] at h
      | ok u =>
        cases hbf : pk.verified.set index with
        | error e => simp [hm, hbf, Picker.removePartial] at h
        | ok bf =>
          simp only [hm, Picker.removePartial, hbf, Except.ok.injEq, Prod.mk.injEq] at h
          exact .inr ⟨bf, rfl, h.2.symm⟩

/-- A verified piece leaves the partial pieces, so no partial piece is verified. -/
theorem Inv.markVerified {pk pk' : Picker P} (h : pk.Inv) {index : UInt32} {sender : Option P}
    (hv : pk.markVerified index = .ok (sender, pk')) : pk'.Inv := by
  rcases markVerified_cases hv with rfl | ⟨bf, hbf, rfl⟩
  · exact h
  · have hr := h.removePartial index
    refine ⟨hr.length_pos, hr.ascending, fun q hq => ?_⟩
    have hne : q.index ≠ index := by
      simp only [Picker.removePartial, List.mem_filter, bne_iff_ne, ne_eq] at hq
      exact hq.2
    have ht := hr.tracks q hq
    exact ⟨ht.sound, ht.lt, ht.length,
      (Bitfield.getD_set_of_ne hbf hne).trans ht.unverified⟩

theorem resetPiece_eq {pk pk' : Picker P} {index : UInt32} {cs : List P}
    (h : pk.resetPiece index = .ok (cs, pk')) : pk' = pk.removePartial index := by
  unfold resetPiece at h
  cases hp : pk.partial? index with
  | none =>
    simp only [hp, pure, Except.pure, Except.ok.injEq, Prod.mk.injEq] at h
    rw [← h.2, removePartial_of_partial?_eq_none hp]
  | some pp =>
    simp only [hp] at h
    rw [Except.bind_eq_ok] at h
    obtain ⟨-, -, h⟩ := h
    simp only [pure, Except.pure, Except.ok.injEq, Prod.mk.injEq] at h
    exact h.2.symm

theorem Inv.resetPiece {pk pk' : Picker P} (h : pk.Inv) {index : UInt32} {cs : List P}
    (hr : pk.resetPiece index = .ok (cs, pk')) : pk'.Inv :=
  resetPiece_eq hr ▸ h.removePartial index

/-- What withdrawing a request can do: nothing, when the peer does not hold it; otherwise the
requested block loses the peer from its requesters and goes back to free when none is left, and
a piece left idle stops being partial. -/
theorem cancelRequest_cases {pk pk' : Picker P} (h : pk.Inv) {pe : P} {r : Request} {b : Bool}
    (hc : pk.cancelRequest pe r = .ok (b, pk')) :
    pk' = pk ∨ ∃ pp i s t, pk.partial? r.index = some pp ∧ pp.slots[i]? = some s ∧
      s.state = .requested ∧ t.block = s.block ∧ t.Sound ∧ t.state ≠ .received ∧
      pk' = if ({ pp with slots := pp.slots.set! i t } : PartialPiece P).idle then
        (pk.update { pp with slots := pp.slots.set! i t }).removePartial pp.index
      else pk.update { pp with slots := pp.slots.set! i t } := by
  unfold Picker.cancelRequest at hc
  by_cases hmem : r ∈ pk.requestsOf pe
  · obtain ⟨pp, i, s, hp, hi, hs, hst, hpe⟩ := h.mem_requestsOf_iff.1 hmem
    have hsound := (h.tracks pp (mem_of_partial? hp).1).sound.slots s
      (Array.mem_toList_iff.2 (Array.mem_of_getElem? hs))
    have hsender := hsound.sender_eq_none (by simp [hst])
    have hnodup := hsound.nodup.erase pe
    have hcont : (!(pk.requestsOf pe).contains r) = false := by simpa using hmem
    simp only [hp, hi, hs, hcont, Bool.false_eq_true, ↓reduceIte] at hc
    split at hc
    · -- the last requester withdrew: the block is free again
      rename_i hempty
      simp only [Slot.moveTo, hst, BlockState.Legal, ↓reduceIte, bind, Except.bind, pure,
        Except.pure, Except.ok.injEq, Prod.mk.injEq] at hc
      refine .inr ⟨pp, i, s, { s with requested := s.requested.erase pe, state := .free }, hp, hs,
        hst, rfl, ⟨hnodup, ?_, by simp [hsender]⟩, by simp, hc.2.symm⟩
      simp [List.isEmpty_iff.1 hempty]
    · rename_i hempty
      simp only [pure, Except.pure, Except.ok.injEq, Prod.mk.injEq, bind, Except.bind] at hc
      refine .inr ⟨pp, i, s, { s with requested := s.requested.erase pe }, hp, hs, hst, rfl,
        ⟨hnodup, ?_, by simp [hsender]⟩, by simp [hst], hc.2.symm⟩
      simpa [hst] using hempty
  · have hcont : (!(pk.requestsOf pe).contains r) = true := by simpa using hmem
    simp only [hcont, ↓reduceIte, pure, Except.pure, Except.ok.injEq, Prod.mk.injEq] at hc
    exact .inl hc.2.symm

/-- Withdrawing a request keeps the invariant: the block keeps its other requesters, or goes
back to free, and a piece left idle stops being partial. -/
theorem Inv.cancelRequest {pk pk' : Picker P} (h : pk.Inv) {pe : P} {r : Request} {b : Bool}
    (hc : pk.cancelRequest pe r = .ok (b, pk')) : pk'.Inv := by
  rcases cancelRequest_cases h hc with rfl | ⟨pp, i, s, t, hp, hs, -, hblock, ht, -, rfl⟩
  · exact h
  · exact h.replaceSlot hp hs ht hblock

/-- A disconnected peer gives back every request and reservation, keeping the invariant. -/
theorem Inv.releasePeer {pk pk' : Picker P} (h : pk.Inv) {pe : P} {n : Nat}
    (hr : pk.releasePeer pe = .ok (n, pk')) : pk'.Inv := by
  unfold Picker.releasePeer at hr
  rw [Except.bind_eq_ok] at hr
  obtain ⟨pk1, hfold, hr⟩ := hr
  have h1 : pk1.Inv := by
    refine List.foldlM_except_inv (Q := Inv) (fun b x c hb hstep => ?_) _ _ _ h hfold
    rw [Except.bind_eq_ok] at hstep
    obtain ⟨⟨b', c'⟩, hc, hstep⟩ := hstep
    simp only [pure, Except.pure, Except.ok.injEq] at hstep
    exact hstep ▸ hb.cancelRequest hc
  simp only [pure, Except.pure, Except.ok.injEq, Prod.mk.injEq] at hr
  rw [← hr.2]
  exact h1.map _ fun q => by split <;> simp

end Picker

end BitTorrent
