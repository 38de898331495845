import BitTorrent.Proofs.Picker.Reachable
import BitTorrent.Proofs.Picker.Senders

/-!
# The first answer wins

A peer answers a request with the block's data, and the picker records it with
`Picker.markReceived`. In end game a block is requested from several peers, so several answers
may come for one block: the first wins, and the later ones must change nothing. `Picker.slot?`
reads the block a request names. In a picker that keeps its invariant:

* an answer wins exactly when the block it names is requested from its peer
  (`markReceived_eq_of_requested`), and otherwise loses and changes nothing
  (`markReceived_eq_of_not_requested`);
* the winning answer replaces one block in place, which changes what its own request names and
  nothing else, since an offset and a length name one block of a piece (`slot?_replace`);
* a block is done with (`Settled`) when it is received or its piece is verified. Every operation
  (`Op`) but a reset of its piece keeps it so (`Settled.apply`, and along a run `Settled.run`),
  and every answer for a block done with loses (`markReceived_of_settled`);
* `markReceived_first_wins` puts these together.
-/

namespace BitTorrent

namespace PartialPiece

variable {P : Type}

/-- Putting a slot with the same block in place of slot `i` keeps the lookup by offset. -/
theorem slotAt?_set {pp : PartialPiece P} {i : Nat} {s t : Slot P} (hs : pp.slots[i]? = some s)
    (hb : t.block = s.block) (b l : UInt32) :
    ({ pp with slots := pp.slots.set! i t } : PartialPiece P).slotAt? b l = pp.slotAt? b l := by
  have hi : i < pp.slots.size := (Array.getElem?_eq_some_iff.1 hs).1
  unfold slotAt?
  split
  · rfl
  · dsimp only
    generalize (b / blockSize).toNat = k
    rw [Array.set!_eq_setIfInBounds, Array.getElem?_setIfInBounds]
    by_cases hk : i = k
    · subst hk
      rw [if_pos rfl, if_pos hi, hs]
      simp only [hb]
    · rw [if_neg hk]

/-- In a piece whose slots are its blocks, one position is found for one offset and length
only. -/
theorem slotAt?_inj {pp : PartialPiece P} (hb : pp.slots.toList.map (·.block) = Block.all pp.length)
    {b b' l l' : UInt32} {k : Nat} (h : pp.slotAt? b l = some k) (h' : pp.slotAt? b' l' = some k) :
    b = b' ∧ l = l' := by
  obtain ⟨s, hs, hbs, hls⟩ := block_of_slotAt? hb h
  obtain ⟨s', hs', hbs', hls'⟩ := block_of_slotAt? hb h'
  rw [hs] at hs'
  cases hs'
  exact ⟨hbs.symm.trans hbs', hls.symm.trans hls'⟩

end PartialPiece

namespace Picker

variable {P : Type}

/-! ## The block a request names -/

/-- The block a request names, in its partial piece. -/
def slot? (pk : Picker P) (r : Request) : Option (Slot P) :=
  (pk.partial? r.index).bind fun pp => (pp.slotAt? r.begin r.length).bind fun i => pp.slots[i]?

theorem slot?_eq_some {pk : Picker P} {r : Request} {s : Slot P} :
    pk.slot? r = some s ↔ ∃ pp i, pk.partial? r.index = some pp ∧
      pp.slotAt? r.begin r.length = some i ∧ pp.slots[i]? = some s := by
  simp [slot?, Option.bind_eq_some_iff]

/-- Replacing the block a request names by one with the same place changes what that request
names, and what no other request names. -/
theorem slot?_replace {pk : Picker P} (h : pk.Inv) {r : Request} {pp : PartialPiece P} {i : Nat}
    {s t : Slot P} (hp : pk.partial? r.index = some pp) (hi : pp.slotAt? r.begin r.length = some i)
    (hs : pp.slots[i]? = some s) (hb : t.block = s.block) (r' : Request) :
    (pk.update { pp with slots := pp.slots.set! i t }).slot? r' =
      if r' = r then some t else pk.slot? r' := by
  have hpi := (mem_of_partial? hp).2
  have hblocks := (h.tracks pp (mem_of_partial? hp).1).sound.blocks
  have hlt : i < pp.slots.size := (Array.getElem?_eq_some_iff.1 hs).1
  rw [slot?, slot?, partial?_update]
  by_cases hidx : r'.index = r.index
  · -- the same piece: the block found is the replaced one exactly for the same request
    rw [hidx, hp, Option.map_some, if_pos (beq_self_eq_true pp.index), Option.bind_some,
      Option.bind_some]
    dsimp only
    rw [PartialPiece.slotAt?_set hs hb]
    cases hj : pp.slotAt? r'.begin r'.length with
    | none =>
      have hne : r' ≠ r := by
        rintro rfl
        rw [hi] at hj
        cases hj
      simp [hne]
    | some j =>
      by_cases hji : j = i
      · subst hji
        obtain ⟨hbeg, hlen⟩ := PartialPiece.slotAt?_inj hblocks hj hi
        have hrr : r' = r := by
          cases r
          cases r'
          simp_all
        simp [hrr, Array.set!_eq_setIfInBounds, Array.getElem?_setIfInBounds, hlt]
      · have hne : r' ≠ r := by
          rintro rfl
          rw [hi] at hj
          exact hji (Option.some.inj hj).symm
        simp [hne, Array.set!_eq_setIfInBounds, Array.getElem?_setIfInBounds, Ne.symm hji]
  · -- another piece keeps its blocks
    have hne : r' ≠ r := fun he => hidx (he ▸ rfl)
    cases hq : pk.partial? r'.index with
    | none => simp [hne]
    | some q =>
      have hqi : q.index ≠ pp.index := by
        rw [(mem_of_partial? hq).2, hpi]
        exact hidx
      simp [hne, hqi]

variable [DecidableEq P]

/-- Under the invariant, a peer holds a request exactly when the block it names is requested from
the peer. -/
theorem Inv.mem_requestsOf_iff_slot? {pk : Picker P} (h : pk.Inv) {pe : P} {r : Request} :
    r ∈ pk.requestsOf pe ↔ ∃ s, pk.slot? r = some s ∧ s.state = .requested ∧ pe ∈ s.requested := by
  rw [h.mem_requestsOf_iff]
  constructor
  · rintro ⟨pp, i, s, hp, hi, hs, hst, hpe⟩
    exact ⟨s, slot?_eq_some.2 ⟨pp, i, hp, hi, hs⟩, hst, hpe⟩
  · rintro ⟨s, hs, hst, hpe⟩
    obtain ⟨pp, i, hp, hi, hs⟩ := slot?_eq_some.1 hs
    exact ⟨pp, i, s, hp, hi, hs, hst, hpe⟩

/-! ## Answers -/

/-- An answer for a block requested from its peer wins: the block is received from the peer,
and the answer names the block's other requesters. -/
theorem markReceived_eq_of_requested {pk : Picker P} {pe : P} {r : Request} {pp : PartialPiece P}
    {i : Nat} {s : Slot P} (hp : pk.partial? r.index = some pp)
    (hi : pp.slotAt? r.begin r.length = some i) (hs : pp.slots[i]? = some s)
    (hst : s.state = .requested) (hpe : pe ∈ s.requested) :
    pk.markReceived pe r = .ok (true, s.requested.filter (· ≠ pe),
      pk.update { pp with slots := (pp.slots.set! i
        { s with requested := [], state := .received, sender := some pe }) }) := by
  unfold markReceived
  simp only [hp, hi, hs, hst, hpe, bne_self_eq_false, decide_true, Bool.not_true, Bool.or_false,
    Bool.false_eq_true, ↓reduceIte, Slot.moveTo, BlockState.Legal, bind, Except.bind, pure,
    Except.pure]

/-- An answer for a block not requested from its peer loses and changes nothing. -/
theorem markReceived_eq_of_not_requested {pk : Picker P} {pe : P} {r : Request}
    (h : ∀ s, pk.slot? r = some s → s.state = .requested → pe ∉ s.requested) :
    pk.markReceived pe r = .ok (false, [], pk) := by
  unfold markReceived
  cases hp : pk.partial? r.index with
  | none => rfl
  | some pp =>
    cases hi : pp.slotAt? r.begin r.length with
    | none => simp only [hi]; rfl
    | some i =>
      cases hs : pp.slots[i]? with
      | none => simp only [hi, hs]; rfl
      | some s =>
        have hlose := h s (slot?_eq_some.2 ⟨pp, i, hp, hi, hs⟩)
        have hcheck : (s.state != .requested || !decide (pe ∈ s.requested)) = true := by
          by_cases hst : s.state = .requested
          · simp [hlose hst]
          · simp [hst]
        simp only [hi, hs, hcheck, ↓reduceIte]
        rfl

/-! ## A received block stays received until its piece is reset -/

omit [DecidableEq P] in
/-- A restore only adds received blocks, and keeps the verified pieces. -/
theorem restoreReceived_grows {pk pk' : Picker P} (h : pk.Inv) {index begin : UInt32} {b : Bool}
    (hr : pk.restoreReceived index begin = .ok (b, pk')) :
    pk'.verified = pk.verified ∧ ∀ i k, pk.Received i k → pk'.Received i k := by
  rcases restoreReceived_cases h hr with ⟨-, rfl, -⟩ |
      ⟨-, -, -, -, ⟨pp, s, hp, hs, -, rfl⟩ | ⟨hp, s, -, rfl⟩⟩
  · exact ⟨rfl, fun _ _ hrec => hrec⟩
  · -- the restored block joins the received blocks of its partial piece
    have hpi := (mem_of_partial? hp).2
    have hlt := (Array.getElem?_eq_some_iff.1 hs).1
    refine ⟨rfl, fun i k hrec => ?_⟩
    rw [received_update]
    by_cases hi : i = pp.index
    · subst hi
      obtain ⟨q, hq, hk⟩ := hrec
      rw [hpi, hp] at hq
      cases hq
      refine .inl ⟨rfl, by simp [hpi, hp], ?_⟩
      rw [PartialPiece.receivedAt_set hlt]
      split
      · rfl
      · exact hk
    · exact .inr ⟨hi, hrec⟩
  · -- a piece started for the restored block had no received block before
    refine ⟨rfl, fun i k hrec => ?_⟩
    rw [received_insertPartial rfl (fun q hq => partial?_eq_none.1 hp q hq)]
    refine .inr ⟨fun hi => ?_, hrec⟩
    obtain ⟨q, hq, -⟩ := hrec
    rw [hi, show (PartialPiece.fresh index (pk.pieceLength index) : PartialPiece P).index = index
      from rfl, hp] at hq
    cases hq

/-- An operation of the picker with its arguments, as its caller makes it. -/
inductive Op (P : Type)
  | select (pe : P) (holds : Bitfield) (n : Int) (parole : Bool)
  | markReceived (pe : P) (r : Request)
  | markVerified (index : UInt32)
  | resetPiece (index : UInt32)
  | cancelRequest (pe : P) (r : Request)
  | releasePeer (pe : P)
  | restoreReceived (index begin : UInt32)
  | handleHave (index : UInt32)
  | handleBitfield (bf : Bitfield)
  | handleDisconnect (bf : Bitfield)

/-- The picker after an operation, its answer dropped. -/
def Op.apply : Op P → Picker P → Except Fault (Picker P)
  | .select pe holds n parole, pk => do return (← pk.select pe holds n parole).2
  | .markReceived pe r, pk => do return (← pk.markReceived pe r).2.2
  | .markVerified index, pk => do return (← pk.markVerified index).2
  | .resetPiece index, pk => do return (← pk.resetPiece index).2
  | .cancelRequest pe r, pk => do return (← pk.cancelRequest pe r).2
  | .releasePeer pe, pk => do return (← pk.releasePeer pe).2
  | .restoreReceived index begin, pk => do return (← pk.restoreReceived index begin).2
  | .handleHave index, pk => pk.handleHave index
  | .handleBitfield bf, pk => pk.handleBitfield bf
  | .handleDisconnect bf, pk => pk.handleDisconnect bf

/-- The block a request names is done with: it is received, or its piece is verified. -/
def Settled (pk : Picker P) (r : Request) : Prop :=
  pk.Received r.index (r.begin / blockSize).toNat ∨ pk.verified.getD r.index = true

omit [DecidableEq P] in
theorem Settled.of_keeps {pk pk' : Picker P} {r : Request} (hk : Keeps pk pk')
    (hs : pk.Settled r) : pk'.Settled r := by
  unfold Settled
  rw [hk.received, hk.verified]
  exact hs

/-- Every operation but a reset of its piece keeps a block done with, and the invariant. -/
theorem Settled.apply {pk pk' : Picker P} (h : pk.Inv) {r : Request} (hs : pk.Settled r)
    {op : Op P} (hop : op ≠ .resetPiece r.index) (ha : op.apply pk = .ok pk') :
    pk'.Inv ∧ pk'.Settled r := by
  cases op with
  | select pe holds n parole =>
    simp only [Op.apply, Except.bind_eq_ok, Except.pure_eq_ok] at ha
    obtain ⟨⟨rs, pk1⟩, hsel, rfl⟩ := ha
    obtain ⟨h1, -, hk⟩ := h.select hsel
    exact ⟨h1, hs.of_keeps hk⟩
  | markReceived pe r' =>
    simp only [Op.apply, Except.bind_eq_ok, Except.pure_eq_ok] at ha
    obtain ⟨⟨ok, others, pk1⟩, hm, rfl⟩ := ha
    refine ⟨h.markReceived hm, ?_⟩
    cases ok with
    | false =>
      rcases markReceived_cases hm with ⟨-, -, rfl⟩ | ⟨-, -, -, -, -, -, -, -, hok, -⟩
      · exact hs
      · cases hok
    | true =>
      -- a winning answer only adds a received block
      obtain ⟨-, -, hrec, -, -, hver⟩ := received_markReceived hm
      unfold Settled
      rw [hrec, hver]
      exact hs.imp_left .inl
  | markVerified index =>
    simp only [Op.apply, Except.bind_eq_ok, Except.pure_eq_ok] at ha
    obtain ⟨⟨sender, pk1⟩, hv, rfl⟩ := ha
    refine ⟨h.markVerified hv, ?_⟩
    rcases markVerified_cases hv with rfl | ⟨bf, hbf, rfl⟩
    · exact hs
    · -- the verified piece is set in the bitfield, every other piece keeps its blocks
      unfold Settled
      dsimp only
      by_cases hi : r.index = index
      · rw [hi]
        exact .inr (Bitfield.getD_set_self hbf)
      · rw [received_of_partials (show ({ pk.removePartial index with verified := bf } :
            Picker P).partials = (pk.removePartial index).partials from rfl), received_removePartial,
          Bitfield.getD_set_of_ne hbf hi]
        exact hs.imp_left fun hrec => ⟨hrec, hi⟩
  | resetPiece index =>
    simp only [Op.apply, Except.bind_eq_ok, Except.pure_eq_ok] at ha
    obtain ⟨⟨cs, pk1⟩, hr, rfl⟩ := ha
    have hi : r.index ≠ index := fun hi => hop (hi ▸ rfl)
    refine ⟨h.resetPiece hr, ?_⟩
    unfold Settled
    rw [received_resetPiece hr, resetPiece_eq hr]
    exact hs.imp_left fun hrec => ⟨hrec, hi⟩
  | cancelRequest pe r' =>
    simp only [Op.apply, Except.bind_eq_ok, Except.pure_eq_ok] at ha
    obtain ⟨⟨b, pk1⟩, hc, rfl⟩ := ha
    exact ⟨h.cancelRequest hc, hs.of_keeps (keeps_cancelRequest h hc)⟩
  | releasePeer pe =>
    simp only [Op.apply, Except.bind_eq_ok, Except.pure_eq_ok] at ha
    obtain ⟨⟨n, pk1⟩, hr, rfl⟩ := ha
    exact ⟨h.releasePeer hr, hs.of_keeps (keeps_releasePeer h hr)⟩
  | restoreReceived index begin =>
    simp only [Op.apply, Except.bind_eq_ok, Except.pure_eq_ok] at ha
    obtain ⟨⟨b, pk1⟩, hr, rfl⟩ := ha
    obtain ⟨hver, hgrow⟩ := restoreReceived_grows h hr
    refine ⟨h.restoreReceived hr, ?_⟩
    unfold Settled
    rw [hver]
    exact hs.imp_left (hgrow _ _)
  | handleHave index =>
    exact ⟨h.handleHave ha, hs.of_keeps (keeps_handleHave ha)⟩
  | handleBitfield bf =>
    exact ⟨h.handleBitfield ha, hs.of_keeps (keeps_handleBitfield ha)⟩
  | handleDisconnect bf =>
    exact ⟨h.handleDisconnect ha, hs.of_keeps (keeps_handleDisconnect ha)⟩

/-- Along a run of operations none of which resets its piece, a block done with stays so. -/
theorem Settled.run {r : Request} :
    ∀ (ops : List (Op P)) (pk pk' : Picker P), pk.Inv → pk.Settled r →
      (∀ op ∈ ops, op ≠ .resetPiece r.index) →
      ops.foldlM (fun pk op => op.apply pk) pk = .ok pk' → pk'.Inv ∧ pk'.Settled r := by
  intro ops
  induction ops with
  | nil =>
    intro pk pk' h hs _ hrun
    simp only [List.foldlM_nil, Except.pure_eq_ok] at hrun
    exact hrun ▸ ⟨h, hs⟩
  | cons op ops ih =>
    intro pk pk' h hs hops hrun
    rw [List.foldlM_cons, Except.bind_eq_ok] at hrun
    obtain ⟨pk1, ha, hrun⟩ := hrun
    obtain ⟨h1, hs1⟩ := hs.apply h (hops op List.mem_cons_self) ha
    exact ih pk1 pk' h1 hs1 (fun op' hop' => hops op' (List.mem_cons_of_mem op hop')) hrun

/-- An answer for a block done with loses, whoever sends it. -/
theorem markReceived_of_settled {pk : Picker P} (h : pk.Inv) {r : Request} (hs : pk.Settled r)
    (pe : P) : pk.markReceived pe r = .ok (false, [], pk) := by
  refine markReceived_eq_of_not_requested fun s hsr hst _ => ?_
  obtain ⟨pp, i, hp, hi, hsi⟩ := slot?_eq_some.1 hsr
  rcases hs with ⟨q, hq, s', hs', hrec⟩ | hver
  · -- the block the request names is the received one
    rw [hp] at hq
    cases hq
    rw [← (PartialPiece.slotAt?_eq_some hi).2, hsi] at hs'
    cases hs'
    rw [hst] at hrec
    cases hrec
  · rw [partial?_eq_none_of_verified h hver] at hp
    cases hp

/-! ## The first answer wins -/

/-- **The first answer wins, and a losing answer changes nothing.** In a picker that keeps its
invariant, an answer of `pe` for `r` never faults, and wins exactly when `pe` holds the request.
A winning answer marks the block received from `pe` and changes no other block; it takes `r` from
every peer that held it and nothing else from anyone, and names, each once, exactly the other
peers that held `r`. Afterwards, along any run of operations that does not reset the piece, every
answer for `r` loses, whoever sends it. A losing answer names nobody and leaves the picker as it
was. -/
theorem markReceived_first_wins {pk : Picker P} (h : pk.Inv) (pe : P) (r : Request) :
    ∃ ok others pk', pk.markReceived pe r = .ok (ok, others, pk') ∧
      (ok = true ↔ r ∈ pk.requestsOf pe) ∧
      (ok = true →
        (∃ s, pk.slot? r = some s ∧
          pk'.slot? r = some { s with requested := [], state := .received, sender := some pe }) ∧
        (∀ r', r' ≠ r → pk'.slot? r' = pk.slot? r') ∧
        (∀ q r', r' ∈ pk'.requestsOf q ↔ r' ∈ pk.requestsOf q ∧ r' ≠ r) ∧
        others.Nodup ∧ (∀ q, q ∈ others ↔ q ≠ pe ∧ r ∈ pk.requestsOf q) ∧
        ∀ (ops : List (Op P)) (pk'' : Picker P), (∀ op ∈ ops, op ≠ .resetPiece r.index) →
          ops.foldlM (fun pk op => op.apply pk) pk' = .ok pk'' →
          ∀ q, pk''.markReceived q r = .ok (false, [], pk'')) ∧
      (ok = false → others = [] ∧ pk' = pk) := by
  by_cases hmem : r ∈ pk.requestsOf pe
  · obtain ⟨pp, i, s, hp, hi, hs, hst, hpe⟩ := h.mem_requestsOf_iff.1 hmem
    have hm := markReceived_eq_of_requested hp hi hs hst hpe
    have h' := h.markReceived hm
    have hsr : pk.slot? r = some s := slot?_eq_some.2 ⟨pp, i, hp, hi, hs⟩
    have hslot := slot?_replace h hp hi hs
      (show ({ s with requested := [], state := .received, sender := some pe } : Slot P).block =
        s.block from rfl)
    have hnodup := (h.tracks pp (mem_of_partial? hp).1).sound.slots s
      (Array.mem_toList_iff.2 (Array.mem_of_getElem? hs)) |>.nodup
    refine ⟨true, _, _, hm, iff_of_true rfl hmem, fun _ => ⟨⟨s, hsr, by rw [hslot, if_pos rfl]⟩,
      fun r' hr' => by rw [hslot, if_neg hr'], fun q r' => ?_, hnodup.filter _, fun q => ?_,
      fun ops pk'' hops hrun q => ?_⟩, fun hf => by cases hf⟩
    · -- the block of `r` is no longer requested; every other block is as it was
      rw [h'.mem_requestsOf_iff_slot?, h.mem_requestsOf_iff_slot?, hslot]
      by_cases hr' : r' = r
      · simp [hr']
      · simp [hr']
    · -- the other requesters of the block are the other peers holding `r`
      rw [h.mem_requestsOf_iff_slot?, List.mem_filter]
      constructor
      · rintro ⟨hq, hne⟩
        exact ⟨by simpa using hne, s, hsr, hst, hq⟩
      · rintro ⟨hne, s', hs', -, hq⟩
        rw [hsr] at hs'
        cases hs'
        exact ⟨hq, by simpa using hne⟩
    · -- the block is received now, and stays received or verified along the run
      obtain ⟨-, -, hrec, -⟩ := received_markReceived hm
      have hsettled : Settled _ r := .inl ((hrec _ _).2 (.inr ⟨rfl, rfl⟩))
      obtain ⟨h'', hs''⟩ := Settled.run ops _ pk'' h' hsettled hops hrun
      exact markReceived_of_settled h'' hs'' q
  · have hm := markReceived_eq_of_not_requested fun s hs hst hpe =>
      hmem (h.mem_requestsOf_iff_slot?.2 ⟨s, hs, hst, hpe⟩)
    exact ⟨false, [], pk, hm, iff_of_false (by simp) hmem, (fun hf => by cases hf),
      fun _ => ⟨rfl, rfl⟩⟩

/-- A peer asks for three blocks of a two-piece torrent: its answer for the first block wins, and
a later answer for that block from another peer loses. -/
theorem first_answer_after_select :
    ∃ pk : Picker Nat, pk.Inv ∧ ∃ others pk',
      pk.markReceived 7 ⟨0, 0, 16384⟩ = .ok (true, others, pk') ∧
      pk'.markReceived 8 ⟨0, 0, 16384⟩ = .ok (false, [], pk') := by
  have hr := Reachable.step Reachable.init
    (Step.select 7 ⟨2, #[0xc0], by decide⟩ 3 false _ (by rfl) :
      Step (new 2 (fun _ => 32768) (Bitfield.new 2) .indexOrder : Picker Nat) _)
  have h := hr.inv (fun _ _ => show (0 : UInt32) < 32768 by decide)
  obtain ⟨ok, others, pk', hm, hiff, hwin, -⟩ := markReceived_first_wins h 7 ⟨0, 0, 16384⟩
  have hok : ok = true := hiff.2 (by decide)
  subst hok
  obtain ⟨-, -, -, -, -, hlater⟩ := hwin rfl
  exact ⟨_, h, others, pk', hm, hlater [] pk' (by simp) rfl 8⟩

end Picker

end BitTorrent
