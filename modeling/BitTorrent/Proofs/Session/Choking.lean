import BitTorrent.Session.Setup

/-!
# No piece while the peer is choked

A session starts choking the peer, and serves the peer's requests only while it does not choke
it. On the wire this means: every piece message the peer reads comes after an unchoke message,
with no choke message in between (`Setup.pieces_after_unchoke`). A choke empties the queue of
the blocks waiting to be written, and a request that comes while we choke the peer is ignored.
The session carries out a choke or an unchoke of the torrent in the step that gives it: our flag
changes and the message is queued together, before the session reads on.

The proof follows what the session will still write: the message the writer holds and the queue
behind it (`Peer.pending`). From the choke state the peer is in, every piece in it comes while the
peer is unchoked, and when we do not choke the peer, it is unchoked after all of it (`Wire`).
Every step of the session keeps this; writing a message moves it from the pending messages to
those the peer read.
-/

namespace BitTorrent

namespace MessageId

/-- Whether the peer is unchoked after a message of this kind, from `u`. -/
def unchokes (u : Bool) : MessageId → Bool
  | choke => false
  | unchoke => true
  | _ => u

/-- Whether a message of this kind may come in choke state `u`: a piece only while unchoked. -/
def allowed (u : Bool) : MessageId → Bool
  | piece => u
  | _ => true

/-- A message that neither chokes, unchokes nor carries a piece. -/
def plain : MessageId → Bool
  | choke | unchoke | piece => false
  | _ => true

theorem unchokes_of_plain {k : MessageId} (hk : k.plain = true) (u : Bool) :
    k.unchokes u = u := by
  cases k <;> simp_all [plain, unchokes]

theorem allowed_of_plain {k : MessageId} (hk : k.plain = true) (u : Bool) :
    k.allowed u = true := by
  cases k <;> simp_all [plain, allowed]

@[simp] theorem unchokes_piece (u : Bool) : piece.unchokes u = u := rfl

end MessageId

/-- Every piece among messages of these kinds comes while the peer is unchoked, from state `u`. -/
def piecesUnchoked : Bool → List MessageId → Bool
  | _, [] => true
  | u, k :: ks => k.allowed u && piecesUnchoked (k.unchokes u) ks

/-- Whether the peer is unchoked after messages of these kinds, from state `u`. -/
def unchokedAfter (u : Bool) (ks : List MessageId) : Bool :=
  ks.foldl (fun u k => k.unchokes u) u

@[simp] theorem unchokedAfter_nil (u : Bool) : unchokedAfter u [] = u := rfl

@[simp] theorem unchokedAfter_cons (u : Bool) (k : MessageId) (ks : List MessageId) :
    unchokedAfter u (k :: ks) = unchokedAfter (k.unchokes u) ks := rfl

theorem unchokedAfter_append (u : Bool) (a b : List MessageId) :
    unchokedAfter u (a ++ b) = unchokedAfter (unchokedAfter u a) b := by
  simp [unchokedAfter, List.foldl_append]

@[simp] theorem piecesUnchoked_nil (u : Bool) : piecesUnchoked u [] = true := rfl

@[simp] theorem piecesUnchoked_cons (u : Bool) (k : MessageId) (ks : List MessageId) :
    piecesUnchoked u (k :: ks) = (k.allowed u && piecesUnchoked (k.unchokes u) ks) := rfl

theorem piecesUnchoked_append (u : Bool) (a b : List MessageId) :
    piecesUnchoked u (a ++ b) = (piecesUnchoked u a && piecesUnchoked (unchokedAfter u a) b) := by
  induction a generalizing u with
  | nil => simp
  | cons k a ih => simp [ih, Bool.and_assoc]

/-- Leaving out pieces keeps every other piece where it was and leaves the choke state after. -/
theorem piecesUnchoked_filter {α : Type} (g : α → MessageId) (f : α → Bool) :
    ∀ (l : List α), (∀ x ∈ l, f x = false → g x = .piece) → ∀ u,
      (piecesUnchoked u (l.map g) = true → piecesUnchoked u ((l.filter f).map g) = true) ∧
      unchokedAfter u ((l.filter f).map g) = unchokedAfter u (l.map g)
  | [], _, _ => by simp
  | x :: l, hl, u => by
    have ih := piecesUnchoked_filter g f l (fun y hy => hl y (List.mem_cons_of_mem x hy))
    by_cases hx : f x = true
    · simp only [List.filter_cons, hx, if_true, List.map_cons, piecesUnchoked_cons,
        unchokedAfter_cons, Bool.and_eq_true]
      exact ⟨fun h => ⟨h.1, (ih _).1 h.2⟩, (ih _).2⟩
    · -- a piece left out leaves the choke state as it was
      have hp : g x = .piece := hl x List.mem_cons_self (by simpa using hx)
      simp only [List.filter_cons, hx, List.map_cons, piecesUnchoked_cons, unchokedAfter_cons,
        hp, MessageId.unchokes_piece, Bool.and_eq_true, Bool.false_eq_true, if_false]
      exact ⟨fun h => (ih u).1 h.2, (ih u).2⟩

/-- Leaving out a piece keeps the others where they were. -/
theorem piecesUnchoked_drop_piece (a b : List MessageId) (u : Bool) :
    (piecesUnchoked u (a ++ .piece :: b) = true → piecesUnchoked u (a ++ b) = true) ∧
      unchokedAfter u (a ++ b) = unchokedAfter u (a ++ .piece :: b) := by
  simp only [piecesUnchoked_append, unchokedAfter_append, piecesUnchoked_cons,
    unchokedAfter_cons, MessageId.unchokes_piece, MessageId.allowed, Bool.and_eq_true]
  exact ⟨fun h => ⟨h.1, h.2.2⟩, trivial⟩

theorem piecesUnchoked_eraseIdx (l : List MessageId) {i : Nat} (hi : i < l.length)
    (hp : l[i] = .piece) (u : Bool) :
    (piecesUnchoked u l = true → piecesUnchoked u (l.eraseIdx i) = true) ∧
      unchokedAfter u (l.eraseIdx i) = unchokedAfter u l := by
  have hl : l.take i ++ l[i] :: l.drop (i + 1) = l := by simp
  have h := piecesUnchoked_drop_piece (l.take i) (l.drop (i + 1)) u
  rw [← hp, hl] at h
  rw [List.eraseIdx_eq_take_drop_succ]
  exact h

/-- The kind of message an item of the outgoing queue goes out as: a block as a piece. -/
def Outgoing.id : Outgoing → MessageId
  | .message m => m.id
  | .block _ _ => .piece

theorem Outgoing.id_of_toMessage? {o : Outgoing} {m : Message} (h : o.toMessage? = some m) :
    m.id = o.id := by
  cases o with
  | message m' =>
    simp only [Outgoing.toMessage?, Option.some.injEq] at h
    rw [h]
    rfl
  | block r src =>
    simp only [Outgoing.toMessage?, Option.map_eq_some_iff] at h
    obtain ⟨d, -, rfl⟩ := h
    rfl

theorem Outgoing.id_of_isBlock {o : Outgoing} (h : o.isBlock = true) : o.id = .piece := by
  cases o with
  | message m => simp [Outgoing.isBlock] at h
  | block r src => rfl

namespace Outbox

theorem queue_push_choke (ob : Outbox) :
    (ob.push (.message .choke)).queue = ob.queue.filter (!·.isBlock) ++ [.message .choke] := by
  show ob.dropBlocks.queue ++ _ = _
  rw [queue_dropBlocks]

theorem queue_push_message (ob : Outbox) {m : Message} (hm : m ≠ .choke) :
    (ob.push (.message m)).queue = ob.queue ++ [.message m] := by
  cases m <;> first | rfl | exact absurd rfl hm

theorem queue_push_block (ob : Outbox) (r : Request) (src : BlockSource) :
    (ob.push (.block r src)).queue = ob.queue ∨
      (ob.push (.block r src)).queue = ob.queue ++ [.block r src] := by
  simp only [push]
  split
  · exact Or.inl rfl
  · exact Or.inr rfl

/-- A cancel takes out at most one queued block. -/
theorem queue_cancel (ob : Outbox) (r : Request) :
    (ob.cancel r).queue = ob.queue ∨ ∃ (i : Nat) (hi : i < ob.queue.length),
      ob.queue[i].isBlock = true ∧ (ob.cancel r).queue = ob.queue.eraseIdx i := by
  unfold cancel
  split
  · rename_i i hi
    obtain ⟨hlt, hans, -⟩ := List.findIdx?_eq_some_iff_getElem.1 hi
    refine Or.inr ⟨i, hlt, ?_, rfl⟩
    -- only a block answers a request
    revert hans
    cases ob.queue[i] <;> simp [Outgoing.answers, Outgoing.isBlock]
  · exact Or.inl rfl

theorem queue_of_take? {ob ob' : Outbox} {o : Outgoing} (h : ob.take? = some (o, ob')) :
    ob.queue = o :: ob'.queue := by
  unfold take? at h
  split at h
  · simp at h
  · rename_i o' rest hq
    simp only [Option.some.injEq, Prod.mk.injEq] at h
    obtain ⟨rfl, rfl⟩ := h
    rw [queue_removeAt, hq]
    rfl

end Outbox

namespace Session

namespace Flags

/-- Whether we choke the peer is the lowest bit of the word. -/
theorem has_amChoking (f : Flags) : f.has amChoking = f.bits.toBitVec.getLsbD 0 := by
  have h : (f.bits &&& 1).toBitVec =
      BitVec.setWidth 32 (BitVec.ofBool (f.bits.toBitVec.getLsbD 0)) := by
    rw [UInt32.toBitVec_and]
    exact BitVec.and_one_eq_setWidth_ofBool_getLsbD
  unfold has amChoking
  cases hb : f.bits.toBitVec.getLsbD 0 <;> rw [hb] at h
  · have : f.bits &&& 1 ≠ 1 := fun e => by rw [e] at h; exact absurd h (by decide)
    simpa using this
  · have : f.bits &&& 1 = 1 := UInt32.toBitVec_inj.mp (by rw [h]; decide)
    simp [this]

/-- Setting or clearing flags whose bits miss the lowest one keeps whether we choke the peer. -/
theorem has_amChoking_setTo (f : Flags) {x : Flags} (hx : x.bits.toBitVec.getLsbD 0 = false)
    (v : Bool) : (f.setTo x v).has amChoking = f.has amChoking := by
  rw [has_amChoking, has_amChoking]
  unfold setTo
  cases v <;> simp_all

theorem has_setTo_amChoking (f : Flags) (v : Bool) :
    (f.setTo amChoking v).has amChoking = v := by
  rw [has_amChoking]
  unfold setTo amChoking
  cases v <;> simp

end Flags

namespace Peer

variable {u : Bool} {p p' : Peer}

/-- The kinds of what the session will still write, in order: the message the writer holds,
then the queue. -/
def pending (p : Peer) : List MessageId :=
  (p.inflight.map Message.id).toList ++ p.outbox.queue.map Outgoing.id

/-- What the session promises about what it will still write, the peer being unchoked exactly
when `u`: while the session runs, every piece it will write comes while the peer is unchoked,
and when we do not choke the peer, the peer is unchoked after all of it. -/
structure Wire (u : Bool) (p : Peer) : Prop where
  clean : p.running = true → piecesUnchoked u p.pending = true
  unchoked : p.running = true → p.flags.has Flags.amChoking = false →
    unchokedAfter u p.pending = true

theorem wire_of_not_running (h : p.running = false) (u : Bool) : Wire u p :=
  ⟨fun h' => absurd h' (by simp [h]), fun h' => absurd h' (by simp [h])⟩

/-- A change that cannot start the session, keeps whether we choke the peer and keeps what it
will write keeps the promise. -/
theorem Wire.of_eq (h : Wire u p) (hr : p'.running = true → p.running = true)
    (hf : p'.flags.has Flags.amChoking = p.flags.has Flags.amChoking)
    (hq : p'.pending = p.pending) : Wire u p' :=
  ⟨fun hr' => hq ▸ h.clean (hr hr'), fun hr' hc => hq ▸ h.unchoked (hr hr') (hf ▸ hc)⟩

theorem pending_with_outbox (p : Peer) (ob : Outbox) :
    ({ p with outbox := ob } : Peer).pending =
      (p.inflight.map Message.id).toList ++ ob.queue.map Outgoing.id := rfl

/-- The writer taking the next item keeps the promise: the item leaves the queue to be held, or
is a block whose data cannot be read, which ends the session. -/
theorem Wire.pump (h : Wire u p) : Wire u p.pump := by
  unfold Peer.pump
  split
  · exact h
  · rename_i hfree
    have hin : p.inflight = none := by
      cases hi : p.inflight <;> simp_all
    split
    · exact h
    · rename_i o ob htake
      have hq := Outbox.queue_of_take? htake
      split
      · exact wire_of_not_running (by simp [Peer.running]) u
      · rename_i m hm
        -- the item is now held by the writer, as the message it goes out as
        have hpend : ({ p with outbox := ob, inflight := some m } : Peer).pending = p.pending := by
          simp [pending, hin, hq, Outgoing.id_of_toMessage? hm]
        dsimp only
        split
        · split
          · exact h.of_eq id rfl hpend
          · exact h.of_eq id rfl hpend
        · exact h.of_eq id rfl hpend

/-- Queueing a message that neither chokes, unchokes nor carries a piece keeps the promise. -/
theorem Wire.push_plain (h : Wire u p) {m : Message} (hm : m.id.plain = true) :
    Wire u (p.push (.message m)) := by
  have hne : m ≠ .choke := by
    rintro rfl
    simp [Message.id, MessageId.plain] at hm
  have hpend : ({ p with outbox := p.outbox.push (.message m) } : Peer).pending =
      p.pending ++ [m.id] := by
    simp [Outbox.queue_push_message _ hne, pending, Outgoing.id]
  refine Wire.pump ⟨fun hr => ?_, fun hr hc => ?_⟩
  · rw [hpend, piecesUnchoked_append, h.clean hr]
    simp [MessageId.allowed_of_plain hm]
  · rw [hpend, unchokedAfter_append, h.unchoked hr hc]
    simp [MessageId.unchokes_of_plain hm]

/-- Queueing an unchoke keeps the promise, whatever our flag says: the peer is unchoked after
it. -/
theorem Wire.push_unchoke (h : p.running = true → piecesUnchoked u p.pending = true) :
    Wire u (p.push (.message .unchoke)) := by
  have hpend : ({ p with outbox := p.outbox.push (.message .unchoke) } : Peer).pending =
      p.pending ++ [.unchoke] := by
    simp [Outbox.queue_push_message p.outbox (show Message.unchoke ≠ .choke by simp), pending,
      Outgoing.id, Message.id]
  refine Wire.pump ⟨fun hr => ?_, fun _ _ => ?_⟩
  · rw [hpend, piecesUnchoked_append, h hr]
    rfl
  · rw [hpend, unchokedAfter_append]
    rfl

/-- Queueing a choke once we choke the peer keeps the promise: the queued blocks are dropped. -/
theorem Wire.push_choke (h : Wire u p) (hc : p.flags.has Flags.amChoking = true) :
    Wire u (p.push (.message .choke)) := by
  refine Wire.pump ⟨fun hr => ?_, fun _ hc' => absurd (hc'.symm.trans hc) (by simp)⟩
  have hf := piecesUnchoked_filter Outgoing.id (!·.isBlock) p.outbox.queue
    (fun x _ hx => Outgoing.id_of_isBlock (by simpa using hx))
    (unchokedAfter u (p.inflight.map Message.id).toList)
  have hclean := h.clean hr
  rw [pending, piecesUnchoked_append, Bool.and_eq_true] at hclean
  rw [pending_with_outbox, Outbox.queue_push_choke, List.map_append, ← List.append_assoc,
    piecesUnchoked_append, piecesUnchoked_append, hclean.1, hf.1 hclean.2]
  rfl

/-- Queueing a block while we do not choke the peer keeps the promise: the peer is unchoked after
the queue, so the block comes while it is unchoked. -/
theorem Wire.push_block (h : Wire u p) (hc : p.flags.has Flags.amChoking = false) (r : Request)
    (src : BlockSource) : Wire u (p.push (.block r src)) := by
  refine Wire.pump ?_
  rcases Outbox.queue_push_block p.outbox r src with hq | hq
  · exact h.of_eq id rfl (by rw [pending_with_outbox, hq]; rfl)
  · have hpend : ({ p with outbox := p.outbox.push (.block r src) } : Peer).pending =
        p.pending ++ [.piece] := by
      simp [hq, pending, Outgoing.id]
    refine ⟨fun hr => ?_, fun hr hc' => ?_⟩
    · rw [hpend, piecesUnchoked_append, h.clean hr]
      simp [MessageId.allowed, h.unchoked hr hc]
    · rw [hpend, unchokedAfter_append, h.unchoked hr hc]
      rfl

/-- Withdrawing a queued block keeps the promise. -/
theorem Wire.cancel (h : Wire u p) (r : Request) :
    Wire u { p with outbox := p.outbox.cancel r } := by
  rcases Outbox.queue_cancel p.outbox r with hq | ⟨i, hi, hb, hq⟩
  · exact h.of_eq id rfl (by rw [pending_with_outbox, hq]; rfl)
  · -- the block taken out is a piece among what the session will write
    have he := piecesUnchoked_eraseIdx (p.outbox.queue.map Outgoing.id) (i := i)
      (by simpa using hi) (by simpa using Outgoing.id_of_isBlock hb)
      (unchokedAfter u (p.inflight.map Message.id).toList)
    have hmap : (p.outbox.queue.eraseIdx i).map Outgoing.id =
        (p.outbox.queue.map Outgoing.id).eraseIdx i := by
      simp [List.eraseIdx_eq_take_drop_succ, List.map_take, List.map_drop]
    refine ⟨fun hr => ?_, fun hr hc => ?_⟩
    · have hclean := h.clean hr
      rw [pending, piecesUnchoked_append, Bool.and_eq_true] at hclean
      rw [pending_with_outbox, hq, hmap, piecesUnchoked_append, Bool.and_eq_true]
      exact ⟨hclean.1, he.1 hclean.2⟩
    · have hafter := h.unchoked hr hc
      rw [pending, unchokedAfter_append] at hafter
      rw [pending_with_outbox, hq, hmap, unchokedAfter_append, he.2]
      exact hafter

/-- Setting or clearing a flag other than our choking keeps the promise. -/
theorem Wire.setFlag (h : Wire u p) {f : Flags} (hf : f.bits.toBitVec.getLsbD 0 = false)
    (v : Bool) : Wire u (p.setFlag f v).2 :=
  h.of_eq id (Flags.has_amChoking_setTo p.flags hf v) rfl

/-- Ending the session keeps the promise: nothing more is written. -/
theorem Wire.close (p : Peer) (u : Bool) : Wire u { p with closing := true } :=
  wire_of_not_running (by simp [Peer.running]) u

/-- Starting to choke the peer keeps the promise. -/
theorem Wire.choke (h : Wire u p) : Wire u (p.setFlag Flags.amChoking true).2 :=
  ⟨h.clean, fun _ hc => absurd ((Flags.has_setTo_amChoking p.flags true).symm.trans hc) (by simp)⟩

/-- Ceasing to choke a peer we did not choke changes nothing. -/
theorem Wire.unchoke_of_unchanged (h : Wire u p)
    (hch : (p.setFlag Flags.amChoking false).1 = false) :
    Wire u (p.setFlag Flags.amChoking false).2 := by
  have hc : p.flags.has Flags.amChoking = false := by simpa [Peer.setFlag] using hch
  exact h.of_eq id (by rw [hc]; exact Flags.has_setTo_amChoking p.flags false) rfl

section Loop

variable {σ : Type} (co : Coordinator σ)

theorem Wire.foldl_request (rs : List Request) (h : Wire u p) :
    Wire u (rs.foldl (fun p r =>
      { p with requests := if r ∈ p.requests then p.requests else p.requests ++ [r] }.push
        (.message (.request r))) p) := by
  induction rs generalizing p with
  | nil => exact h
  | cons r rs ih =>
    rw [List.foldl_cons]
    have h₁ : Wire u { p with
        requests := if r ∈ p.requests then p.requests else p.requests ++ [r] } :=
      h.of_eq id rfl rfl
    exact ih (h₁.push_plain (m := .request r) rfl)

theorem Wire.requestMore (h : Wire u p) (s : σ) : Wire u (p.requestMore co s).1 := by
  unfold Peer.requestMore
  split
  · exact h
  · dsimp only
    split
    · exact h
    · exact Wire.foldl_request _ h

theorem Wire.setInterested (h : Wire u p) (s : σ) (v : Bool) :
    Wire u (p.setInterested co s v).1 := by
  have h' : Wire u (p.setFlag Flags.amInterested v).2 := h.setFlag (by decide) v
  unfold Peer.setInterested
  simp only [Peer.setFlag] at h' ⊢
  by_cases hch : (!p.flags.has Flags.amInterested != v) = true
  · simp only [hch, ↓reduceIte]
    exact h'
  · simp only [hch]
    cases v
    · exact h'.push_plain (m := .notInterested) rfl
    · exact Wire.requestMore co (h'.push_plain (m := .interested) rfl) s

theorem Wire.releaseRequests (h : Wire u p) (s : σ) : Wire u (p.releaseRequests co s).1 := by
  unfold Peer.releaseRequests
  split
  · exact h
  · exact h.of_eq id rfl rfl

theorem Wire.foldl_cancel (rs : List Request) (h : Wire u p) :
    Wire u (rs.foldl (fun p r => p.push (.message (.cancel r))) p) := by
  induction rs generalizing p with
  | nil => exact h
  | cons r rs ih =>
    rw [List.foldl_cons]
    exact ih (h.push_plain (m := .cancel r) rfl)

theorem Wire.cancelStale (h : Wire u p) (s : σ) : Wire u (p.cancelStale co s).1 := by
  unfold Peer.cancelStale
  split
  · exact h
  · dsimp only
    have h₁ : Wire u { p with requests := [] } := h.of_eq id rfl rfl
    exact Wire.requestMore co (Wire.foldl_cancel _ h₁) _

/-- Serving a request keeps the promise: a block is queued only while we do not choke the peer. -/
theorem Wire.handleRequest (h : Wire u p) (s : σ) (r : Request) :
    Wire u (p.handleRequest co s r).1 := by
  unfold Peer.handleRequest
  split
  · exact h
  · rename_i hc
    have hc' : p.flags.has Flags.amChoking = false := by simpa using hc
    split
    · exact h
    split
    · exact h
    split
    · exact h
    dsimp only
    split
    · exact h
    · exact h.push_block hc' _ _

/-- **Handling a message of the peer keeps the promise.** -/
theorem Wire.handle (h : Wire u p) (s : σ) (m : Message) : Wire u (p.handle co s m).1 := by
  cases m with
  | choke => exact Wire.releaseRequests co (h.setFlag (by decide) true) s
  | unchoke => exact Wire.requestMore co (h.setFlag (by decide) false) s
  | interested =>
    simp only [Peer.handle]
    split <;> exact h.setFlag (by decide) true
  | notInterested => exact h.setFlag (by decide) false
  | has i =>
    simp only [Peer.handle]
    split
    · exact Wire.close p u
    · split
      · exact Wire.setInterested co h _ true
      · exact h
  | bitfield d =>
    simp only [Peer.handle]
    split
    · exact Wire.close p u
    · exact Wire.setInterested co h _ _
  | request r => exact Wire.handleRequest co h s r
  | cancel r => exact h.cancel r
  | piece i b d =>
    have h₁ : Wire u
        { p with requests := p.requests.erase ⟨i, b, d.length.toUInt32⟩,
                 down := p.down.count d.length } := h.of_eq id rfl rfl
    exact Wire.requestMore co h₁ _

/-- **Carrying out a command keeps the promise**, a choke once we choke the peer. -/
theorem Wire.command (h : Wire u p) (s : σ) (c : Command)
    (hc : c = .choke → p.flags.has Flags.amChoking = true) : Wire u (p.command co s c).1 := by
  cases c with
  | announce i => exact h.push_plain (m := .has i) rfl
  | cancel r =>
    simp only [Peer.command]
    split
    · have h₁ : Wire u { p with requests := p.requests.erase r } := h.of_eq id rfl rfl
      exact h₁.push_plain (m := .cancel r) rfl
    · exact h
  | interest v => exact Wire.setInterested co h s v
  | choke => exact h.push_choke (hc rfl)
  | unchoke => exact Wire.push_unchoke h.clean

theorem Wire.chargeDown (h : Wire u p) {n : Nat} {p' : Peer} (hp : p.chargeDown n = some p') :
    Wire u p' := by
  unfold Peer.chargeDown at hp
  split at hp
  · rw [← Option.some.inj hp]
    exact h
  · split at hp
    · rw [← Option.some.inj hp]
      exact h.of_eq id rfl rfl
    · obtain ⟨b, -, rfl⟩ := Option.map_eq_some_iff.1 hp
      exact h.of_eq id rfl rfl

/-- **Reading the inbox keeps the promise**, message by message. -/
theorem Wire.readLoop : ∀ (fuel : Nat) {p : Peer} (s : σ), Wire u p →
    Wire u (Peer.readLoop co fuel p s).1
  | 0, _, _, h => h
  | fuel + 1, p, s, h => by
    unfold Peer.readLoop
    split
    · exact h
    · split
      · rename_i m rest _
        dsimp only
        split
        · exact h.of_eq id rfl rfl
        · rename_i p' hp'
          -- the reader took the download tokens of a piece, or had none to take
          have h' : Wire u p' := by
            revert hp'
            cases m <;> first
              | exact fun hp' => Option.some.inj hp' ▸ h
              | exact fun hp' => h.chargeDown hp'
          have h₁ : Wire u { p' with inbox := rest, first := false, charged := false } :=
            h'.of_eq id rfl rfl
          exact Wire.readLoop fuel _ (Wire.handle co h₁ s m)
      · exact Wire.readLoop fuel s (h.of_eq id rfl rfl)
      · split
        · exact Wire.close p u
        · split
          · split
            · exact h.of_eq id rfl rfl
            · rename_i p' hp'
              exact h.chargeDown hp'
          · exact h
      · exact Wire.close p u

theorem Wire.receive (h : Wire u p) (s : σ) (bytes : List UInt8) :
    Wire u (p.receive co s bytes).1 := by
  unfold Peer.receive
  split
  · exact h
  · exact Wire.readLoop co _ s (h.of_eq id rfl rfl)

theorem Wire.hangUp (h : Wire u p) (s : σ) : Wire u (p.hangUp co s).1 := by
  unfold Peer.hangUp
  split
  · exact h
  · dsimp only
    have h₀ : Wire u { p with remoteClosed := true } := h.of_eq id rfl rfl
    have h₁ := Wire.readLoop co (p.inbox.length + 1) s h₀
    split
    · exact Wire.close _ u
    · exact h₁

/-- An ended session writes nothing more. -/
theorem Wire.finish (h : Wire u p) (s : σ) : Wire u (p.finish co s).1 := by
  unfold Peer.finish
  split
  · exact wire_of_not_running (by simp [Peer.running]) u
  · exact h

/-- **Writing a message keeps the promise**: the peer reads it in a choke state that allows it,
and the promise holds from the choke state after it. -/
theorem Wire.deliver (h : Wire u p) (s : σ) :
    piecesUnchoked u ((p.deliver co s).1.map Message.id).toList = true ∧
      Wire (unchokedAfter u ((p.deliver co s).1.map Message.id).toList) (p.deliver co s).2.1 := by
  unfold Peer.deliver
  split
  · exact ⟨rfl, h⟩
  · rename_i hfree
    have hr : p.running = true := by
      cases hr : p.running <;> simp_all
    split
    · exact ⟨rfl, h⟩
    · rename_i m hm
      -- the message held leaves what the session will write
      have hpend : p.pending = m.id :: p.outbox.queue.map Outgoing.id := by
        simp [pending, hm]
      have hclean := h.clean hr
      rw [hpend, piecesUnchoked_cons, Bool.and_eq_true] at hclean
      have hafter := h.unchoked hr
      rw [hpend, unchokedAfter_cons] at hafter
      have h₁ : Wire (m.id.unchokes u) { p with inflight := none } :=
        ⟨fun _ => by simpa [pending] using hclean.2, fun _ hc => by simpa [pending] using hafter hc⟩
      refine ⟨by simpa using hclean.1, ?_⟩
      simp only [Option.map_some, Option.toList_some, unchokedAfter_cons, unchokedAfter_nil]
      split
      · exact Wire.pump (h₁.of_eq id rfl rfl)
      · exact h₁.pump

end Loop

end Peer

namespace Run

variable {u : Bool} {r : Run}

/-- What the peer read since the last snapshot comes while it was unchoked, from choke state
`u`, and the session keeps its promise from the state the peer is left in. -/
structure Good (u : Bool) (r : Run) : Prop where
  read : piecesUnchoked u (r.received.map Message.id) = true
  wire : r.peer.Wire (unchokedAfter u (r.received.map Message.id))

/-- The choke state the peer is left in by what it read since the last snapshot. -/
abbrev Good.state (_ : Good u r) : Bool := unchokedAfter u (r.received.map Message.id)

theorem Good.settle (h : Good u r) : Good u r.settle :=
  ⟨h.read, Peer.Wire.finish co h.wire _⟩

theorem Good.lift (h : Good u r) {f : Peer → Recorder → Peer × Recorder}
    (hf : ∀ {v : Bool}, r.peer.Wire v → (f r.peer r.torrent).1.Wire v) : Good u (r.lift f) :=
  Good.settle ⟨h.read, hf h.wire⟩

theorem Good.send (h : Good u r) (bytes : List UInt8) : Good u (r.send bytes) :=
  h.lift fun hw => Peer.Wire.receive co hw _ bytes

theorem Good.barrier (h : Good u r) : Good u r.barrier := by
  unfold Run.barrier
  split
  · exact h
  · dsimp only
    have h₁ := Good.send (u := u)
      (r := { r with torrent := { r.torrent with barrier := true, barrierSeen := false } })
      ⟨h.read, h.wire⟩ (Message.frame (.has 0))
    split
    · exact ⟨h₁.read, h₁.wire⟩
    · exact ⟨h₁.read, h₁.wire⟩

/-- **Reading what the session wrote keeps the invariant**: each message read comes in a choke
state that allows it. -/
theorem Good.readUntil (marker : UInt32) : ∀ (fuel : Nat) {r : Run}, Good u r →
    Good u (readUntil marker fuel r).1
  | 0, _, h => h
  | fuel + 1, r, h => by
    have hd := Peer.Wire.deliver co h.wire r.torrent
    unfold Run.readUntil
    dsimp only
    -- the message read, if any
    generalize hm : (r.peer.deliver co r.torrent).1 = m at hd ⊢
    cases m with
    | none =>
      exact Good.settle ⟨h.read, by simpa using hd.2⟩
    | some m =>
      have hread : piecesUnchoked u ((r.received ++ [m]).map Message.id) = true := by
        rw [List.map_append, piecesUnchoked_append, h.read]
        simpa using hd.1
      have hwire : (r.peer.deliver co r.torrent).2.1.Wire
          (unchokedAfter u ((r.received ++ [m]).map Message.id)) := by
        rw [List.map_append, unchokedAfter_append]
        simpa using hd.2
      have hnext := Good.settle (u := u) (r :=
        { r with peer := (r.peer.deliver co r.torrent).2.1,
                 torrent := (r.peer.deliver co r.torrent).2.2,
                 received := r.received ++ [m] }) ⟨hread, hwire⟩
      split
      · simp at *
      · rename_i i heq
        obtain rfl := Option.some.inj heq
        split
        · -- the marker is not shown; it leaves the choke state as it was
          refine Good.settle ⟨h.read, ?_⟩
          simpa [Message.id, MessageId.unchokes] using hd.2
        · exact Good.readUntil marker fuel hnext
      · rename_i m' _ heq
        obtain rfl := Option.some.inj heq
        exact Good.readUntil marker fuel hnext

theorem Good.flush (h : Good u r) : Good u r.flush := by
  unfold Run.flush
  split
  · exact h
  · dsimp only
    refine Good.barrier ?_
    have h₁ : Good u (({ r with flushes := r.flushes + 1 } : Run).lift fun p s =>
        p.command co s (.announce (0xFFFF0000 + r.flushes.toUInt32))) :=
      Good.lift (r := { r with flushes := r.flushes + 1 }) ⟨h.read, h.wire⟩
        fun hw => Peer.Wire.command co hw _ _ (by simp)
    split
    · exact Good.readUntil _ _ h₁
    · exact ⟨(Good.readUntil _ _ h₁).read, (Good.readUntil _ _ h₁).wire⟩

theorem Good.order (h : Good u r) (c : Command)
    (hc : c = .choke → r.peer.flags.has Flags.amChoking = true) : Good u (r.order c) := by
  unfold Run.order
  split
  · exact h.lift fun hw => Peer.Wire.command co hw _ c hc
  · exact h

theorem Good.waitCancels (count : Nat) : ∀ (fuel : Nat) {r : Run}, Good u r →
    Good u (waitCancels count fuel r)
  | 0, _, h => ⟨h.read, h.wire⟩
  | fuel + 1, r, h => by
    unfold Run.waitCancels
    split
    · exact h.barrier
    · split
      · exact Good.waitCancels count fuel (h.lift fun hw => Peer.Wire.cancelStale co hw _)
      · exact ⟨h.read, h.wire⟩

/-- What a step lets the peer read, as the snapshot shows it; nothing when the step is deferred. -/
def readIn : Option Snapshot → List MessageId
  | some s => s.received.map Message.id
  | none => []

/-- A step shows what the peer read coming while it was unchoked, from `u`, and leaves the
invariant from the state the peer is left in. -/
def Shows (u : Bool) (o : Option Snapshot × Run) : Prop :=
  piecesUnchoked u (readIn o.1) = true ∧ Good (unchokedAfter u (readIn o.1)) o.2

theorem Good.snap (h : Good u r) : Shows u (some r.snap.1, r.snap.2) :=
  ⟨h.read, ⟨rfl, h.wire⟩⟩

theorem Good.waited (h : Good u r) : Shows u (waited r) :=
  Good.snap (r := { r with deferring := false }) ⟨h.read, h.wire⟩

theorem Good.quiet (r : Run) {r' : Run} (h : Good u r') : Shows u (quiet r r') := by
  unfold Run.quiet
  split
  · exact ⟨rfl, h⟩
  · exact h.snap

theorem Good.withPeer (h : Good u r) {p : Peer} (hp : ∀ {v : Bool}, r.peer.Wire v → p.Wire v) :
    Good u { r with peer := p } :=
  ⟨h.read, hp h.wire⟩

theorem Good.orderUnchoke (h : Good u r) :
    Good u (({ r with peer := (r.peer.setFlag Flags.amChoking false).2 } : Run).order .unchoke) := by
  unfold Run.order
  split
  · exact Good.settle ⟨h.read, Peer.Wire.push_unchoke h.wire.clean⟩
  · rename_i hr
    exact ⟨h.read, Peer.wire_of_not_running (by simpa using hr) _⟩

/-- **Every step of the script keeps the invariant**, and what it shows the peer read comes while
the peer is unchoked. -/
theorem Good.step (h : Good u r) (st : Step) : Shows u (r.step st) := by
  cases st with
  | send bytes sync =>
    simp only [Run.step]
    split
    · exact (h.send bytes).barrier.waited
    · exact ⟨rfl, ⟨(h.send bytes).read, (h.send bytes).wire⟩⟩
  | optimistic v => exact Good.quiet r (h.withPeer fun hw => hw.of_eq id rfl rfl)
  | tick => exact Good.quiet r (h.withPeer fun hw => hw.of_eq id rfl rfl)
  | pause => exact Good.quiet r h
  | read => exact h.flush.waited
  | choke =>
    simp only [Run.step]
    have h₁ := h.withPeer fun hw => hw.choke
    refine Good.waited (Good.flush ?_)
    split
    · exact h₁.order .choke fun _ => Flags.has_setTo_amChoking _ true
    · exact h₁
  | unchoke =>
    simp only [Run.step]
    refine Good.waited (Good.flush ?_)
    split
    · exact h.orderUnchoke
    · rename_i hch
      exact h.withPeer fun hw => hw.unchoke_of_unchanged (by simpa using hch)
  | announce i => exact (h.order _ (by simp)).flush.waited
  | cancel q => exact (h.order _ (by simp)).flush.waited
  | interested v => exact (h.order _ (by simp)).flush.waited
  | waitCancel n => exact (Good.waitCancels n (n + 1) h).waited
  | waitClosed =>
    refine Good.waited ?_
    split
    · exact h
    · split
      · exact Good.settle (h.withPeer fun _ => Peer.Wire.close _ _)
      · exact ⟨h.read, h.wire⟩
  | close => exact (Good.settle (h.withPeer fun _ => Peer.Wire.close _ _)).waited
  | remoteClose => exact (h.lift fun hw => Peer.Wire.hangUp co hw _).waited

/-- **A whole script keeps the invariant**, and what its steps show the peer read comes while the
peer is unchoked. -/
theorem Good.steps : ∀ (script : List Step) {u : Bool} {r : Run}, Good u r →
    piecesUnchoked u ((r.steps script).1.flatMap readIn) = true ∧
      Good (unchokedAfter u ((r.steps script).1.flatMap readIn)) (r.steps script).2
  | [], _, _, h => ⟨rfl, h⟩
  | st :: rest, u, r, h => by
    obtain ⟨h₁, h₂⟩ := h.step st
    obtain ⟨h₃, h₄⟩ := Good.steps rest h₂
    simp only [Run.steps, List.flatMap_cons, piecesUnchoked_append, unchokedAfter_append, h₁, h₃,
      Bool.and_self]
    exact ⟨trivial, h₄⟩

theorem readIn_flatMap (ss : List (Option Snapshot)) :
    ss.flatMap readIn = ((ss.filterMap id).flatMap (·.received)).map Message.id := by
  induction ss with
  | nil => rfl
  | cons o ss ih =>
    cases o <;> simp [readIn, ih]

/-- The last snapshot shows the peer reading while unchoked. -/
theorem Good.conclude (h : Good u r) :
    piecesUnchoked u (r.conclude.received.map Message.id) = true := by
  unfold Run.conclude
  split
  · exact (h.flush.lift fun hw => Peer.Wire.hangUp co hw _).read
  · exact h.read

/-- From a run that keeps the invariant, everything the peer reads, from the snapshot taken now
to the end of the script, comes while it is unchoked. -/
theorem Good.outcome (h : Good false r) (script : List Step) :
    piecesUnchoked false ((r.snap.1.received ++
      ((r.snap.2.steps script).1.filterMap id).flatMap (·.received) ++
        (r.snap.2.steps script).2.conclude.received).map Message.id) = true := by
  obtain ⟨h₁, h₂⟩ := h.snap
  obtain ⟨h₃, h₄⟩ := Good.steps script h₂
  have h₅ := h₄.conclude
  simp only [readIn] at h₁ h₃ h₅
  rw [List.map_append, List.map_append, ← readIn_flatMap, piecesUnchoked_append,
    piecesUnchoked_append, unchokedAfter_append, h₁, h₃, h₅]
  rfl

end Run

/-- Everything the peer read, in order: before the first step, at each step shown, and at the
end. -/
def Outcome.received (o : Outcome) : List Message :=
  o.start.received ++ (o.steps.filterMap id).flatMap (·.received) ++ o.final.received

/-- A session that starts with its promise kept for a choked peer lets the peer read pieces only
while it is unchoked. -/
theorem play_pieces_unchoked (opts : Options) (outgoing : Bool)
    (infoHash ourId remote : List UInt8) {peer : Peer} (hp : peer.Wire false) (rec : Recorder)
    (script : List Step) :
    piecesUnchoked false
      ((play opts outgoing infoHash ourId remote peer rec script).received.map Message.id) =
        true := by
  unfold play Outcome.received
  dsimp only
  apply Run.Good.outcome
  split
  · exact ⟨rfl, Peer.wire_of_not_running (by simp [Peer.running]) _⟩
  · split
    · exact ⟨rfl, Peer.wire_of_not_running (by simp [Peer.running]) _⟩
    · -- the session starts, and sends our bitfield first when we have a piece
      have h₁ : Peer.Wire false { peer with opts } := hp.of_eq id rfl rfl
      refine Run.Good.send (Run.Good.settle ⟨rfl, ?_⟩) _
      split
      · exact h₁.push_plain rfl
      · exact h₁

end Session

end BitTorrent
