import BitTorrent.Proofs.Session.Choking
import Mathlib

/-!
# The writer's queue over a whole run

`writer_loop_semantics`: over every run of the writer's loop from an empty queue bounded by `m`,
whatever items are sent, cancelled and handed over in whatever order,

* the count of queued blocks kept beside the queue is the number of blocks in it, and stays
  within the bound when there is one (`Outbox.Counted`);
* the items handed over, followed by those still queued, are a sublist of the items sent, and
  every item that is not a block is among them;
* following each item by the position of the event that sent it (`trace`), every item sent is
  handed over, still queued, or a block dropped for a reason of `Dropped`: the queue held its
  bound of blocks when it came, a later cancel took it out as the first queued block of its
  request, or a choke was sent after it.

Proof. `Counted` is kept by every turn (`Counted.step`): every item leaves through `removeAt`,
which counts a block out, and a choke drops blocks one by one through it. A turn hands over,
keeps or drops items in order and drops only blocks (`step_sublist`), and `run_sublist` carries
this along the run by induction on its last event. For the fate of each item, `trace` runs the
same loop on items tagged with their event's position; it is the loop's run with the tags
forgotten (`tagStep_map`, `trace_map`). One turn keeps every queued item but a block a choke
drops or the item a cancel takes out (`tagStep_keeps`), and queues the item it sends unless the
queue is full (`mem_tagPush`); `trace_fate` follows from these by induction on the run.
-/

namespace BitTorrent

namespace Outgoing

/-- Whether the item is the choke message. -/
def isChoke : Outgoing → Bool
  | .message .choke => true
  | _ => false

theorem not_isBlock_of_isChoke {o : Outgoing} (h : o.isChoke = true) : o.isBlock = false := by
  cases o with
  | message m => rfl
  | block r src => cases h

end Outgoing

namespace Outbox

/-- The bound on queued blocks is reached: the next block is dropped. -/
def full (ob : Outbox) : Bool :=
  ob.maxBlocks > 0 && ob.queuedBlocks ≥ ob.maxBlocks

theorem push_eq (ob : Outbox) (o : Outgoing) :
    ob.push o =
      if o.isChoke then { ob.dropBlocks with queue := ob.dropBlocks.queue ++ [o] }
      else if o.isBlock && ob.full then ob
      else { ob with queue := ob.queue ++ [o],
                     queuedBlocks := if o.isBlock then ob.queuedBlocks + 1 else ob.queuedBlocks } := by
  cases o with
  | block r src => simp [push, full, Outgoing.isChoke, Outgoing.isBlock]
  | message m => cases m <;> rfl

theorem countP_eraseIdx {l : List Outgoing} {i : Nat} (p : Outgoing → Bool) (h : i < l.length) :
    (l.eraseIdx i).countP p + (if p l[i] then 1 else 0) = l.countP p := by
  conv => rhs; rw [← List.take_append_drop i l, List.drop_eq_getElem_cons h]
  rw [List.eraseIdx_eq_take_drop_succ, List.countP_append, List.countP_append, List.countP_cons]
  omega

theorem queuedBlocks_removeAt {ob : Outbox} (h : ob.queuedBlocks = ob.blockCount) (i : Nat) :
    (ob.removeAt i).queuedBlocks = (ob.removeAt i).blockCount := by
  simp only [removeAt, blockCount] at h ⊢
  by_cases hi : i < ob.queue.length
  · have := countP_eraseIdx (·.isBlock) hi
    rw [List.getElem?_eq_getElem hi, Option.any_some]
    by_cases hb : ob.queue[i].isBlock = true
    · rw [if_pos hb] at this ⊢
      omega
    · rw [if_neg hb] at this ⊢
      omega
  · rw [List.eraseIdx_of_length_le (by omega), List.getElem?_eq_none (by omega)]
    simpa using h

theorem queuedBlocks_dropBlocksFrom : ∀ (ob : Outbox) (kept rest : List Outgoing),
    ob.queue = kept ++ rest → ob.queuedBlocks = ob.blockCount →
      (ob.dropBlocksFrom kept.length rest).queuedBlocks = (ob.dropBlocksFrom kept.length rest).blockCount
  | _, _, [], _, h => h
  | ob, kept, o :: rest, hq, h => by
    unfold dropBlocksFrom
    split
    · have hq' : (ob.removeAt kept.length).queue = kept ++ rest := by
        rw [queue_removeAt, hq, List.eraseIdx_append_of_length_le (Nat.le_refl _), Nat.sub_self,
          List.eraseIdx_cons_zero]
      exact queuedBlocks_dropBlocksFrom _ kept rest hq' (queuedBlocks_removeAt h _)
    · have hq' : ob.queue = (kept ++ [o]) ++ rest := by simp [hq]
      have hlen : kept.length + 1 = (kept ++ [o]).length := by simp
      rw [hlen]
      exact queuedBlocks_dropBlocksFrom _ _ rest hq' h

/-- The count of queued blocks is the number of blocks in the queue, and stays within the bound
when there is one. -/
def Counted (ob : Outbox) : Prop :=
  ob.queuedBlocks = ob.blockCount ∧ (0 < ob.maxBlocks → (ob.blockCount : Int) ≤ ob.maxBlocks)

variable {ob ob' : Outbox}

theorem blockCount_dropBlocks (ob : Outbox) : ob.dropBlocks.blockCount = 0 := by
  simp [blockCount, queue_dropBlocks, List.countP_eq_zero]

theorem queuedBlocks_dropBlocks (h : ob.queuedBlocks = ob.blockCount) :
    ob.dropBlocks.queuedBlocks = 0 := by
  have := queuedBlocks_dropBlocksFrom ob [] ob.queue rfl h
  rwa [List.length_nil, ← dropBlocks, blockCount_dropBlocks, Int.natCast_zero] at this

theorem blockCount_removeAt_le (ob : Outbox) (i : Nat) : (ob.removeAt i).blockCount ≤ ob.blockCount :=
  (List.eraseIdx_sublist ob.queue i).countP_le

/-- Queueing an item at the end keeps the count, a block only when the queue has room for it. -/
theorem Counted.append (h : ob.Counted) {o : Outgoing}
    (hroom : o.isBlock = true → 0 < ob.maxBlocks → (ob.blockCount : Int) < ob.maxBlocks) :
    Counted { ob with queue := ob.queue ++ [o],
                      queuedBlocks := if o.isBlock then ob.queuedBlocks + 1 else ob.queuedBlocks } := by
  obtain ⟨hq, hmax⟩ := h
  have hcount :
      ({ ob with queue := ob.queue ++ [o],
                 queuedBlocks := if o.isBlock then ob.queuedBlocks + 1 else ob.queuedBlocks } :
        Outbox).blockCount = ob.blockCount + if o.isBlock then 1 else 0 := by
    simp [blockCount, List.countP_append]
  refine ⟨?_, fun hm => ?_⟩
  · rw [hcount]
    dsimp only
    split <;> simp [hq]
  · rw [hcount]
    dsimp only at hm ⊢
    split
    · have := hroom ‹_› hm
      push_cast
      omega
    · simpa using hmax hm

theorem Counted.push (h : ob.Counted) (o : Outgoing) : (ob.push o).Counted := by
  rw [push_eq]
  split
  · -- a choke drops every block, then queues itself
    rename_i hc
    have hnb := Outgoing.not_isBlock_of_isChoke hc
    have hd : ob.dropBlocks.Counted := by
      refine ⟨by rw [queuedBlocks_dropBlocks h.1, blockCount_dropBlocks]; rfl, fun hm => ?_⟩
      rw [blockCount_dropBlocks]
      exact Int.le_of_lt hm
    simpa [hnb] using hd.append (o := o) fun hb => by simp [hnb] at hb
  split
  · exact h
  · -- any other item is queued, a block only below the bound
    rename_i hc hfull
    refine h.append fun hb hm => ?_
    simp only [full, hb, Bool.true_and, Bool.and_eq_true, decide_eq_true_eq, not_and, not_le]
      at hfull
    rw [← h.1]
    exact hfull hm

theorem Counted.removeAt (h : ob.Counted) (i : Nat) : (ob.removeAt i).Counted := by
  refine ⟨queuedBlocks_removeAt h.1 i, fun hm => ?_⟩
  have := blockCount_removeAt_le ob i
  have := h.2 hm
  show ((ob.removeAt i).blockCount : Int) ≤ ob.maxBlocks
  omega

theorem Counted.cancel (h : ob.Counted) (r : Request) : (ob.cancel r).Counted := by
  unfold Outbox.cancel
  split
  · exact h.removeAt _
  · exact h

theorem Counted.take? (h : ob.Counted) {o : Outgoing} (ht : ob.take? = some (o, ob')) :
    ob'.Counted := by
  unfold Outbox.take? at ht
  split at ht
  · cases ht
  · simp only [Option.some.injEq, Prod.mk.injEq] at ht
    exact ht.2 ▸ h.removeAt 0

theorem maxBlocks_dropBlocksFrom : ∀ (ob : Outbox) (k : Nat) (rest : List Outgoing),
    (ob.dropBlocksFrom k rest).maxBlocks = ob.maxBlocks
  | _, _, [] => rfl
  | ob, k, o :: rest => by
    unfold dropBlocksFrom
    split
    · exact maxBlocks_dropBlocksFrom _ k rest
    · exact maxBlocks_dropBlocksFrom _ _ rest

theorem maxBlocks_push (ob : Outbox) (o : Outgoing) : (ob.push o).maxBlocks = ob.maxBlocks := by
  rw [push_eq]
  split
  · exact maxBlocks_dropBlocksFrom ob 0 ob.queue
  split <;> rfl

theorem maxBlocks_cancel (ob : Outbox) (r : Request) : (ob.cancel r).maxBlocks = ob.maxBlocks := by
  unfold Outbox.cancel
  split <;> rfl

/-! ## The writer's loop -/

/-- What the writer's loop takes in, one at a time: an item to queue, a cancel of a queued block,
or the writer taking the front item. -/
inductive Event where
  | send (o : Outgoing)
  | cancel (r : Request)
  | handOff

def Event.sent : Event → List Outgoing
  | .send o => [o]
  | _ => []

/-- The items a run of events sends, in order. -/
def sent (es : List Event) : List Outgoing :=
  es.flatMap Event.sent

/-- One turn of the loop: the queue after, and the items handed to the writer. -/
def step (ob : Outbox) : Event → Outbox × List Outgoing
  | .send o => (ob.push o, [])
  | .cancel r => (ob.cancel r, [])
  | .handOff =>
    match ob.take? with
    | some (o, ob') => (ob', [o])
    | none => (ob, [])

/-- A run of the loop from `ob`: the queue after, and the items handed to the writer in
order. -/
def run (ob : Outbox) (es : List Event) : Outbox × List Outgoing :=
  es.foldl (fun s e => ((s.1.step e).1, s.2 ++ (s.1.step e).2)) (ob, [])

@[simp] theorem run_nil (ob : Outbox) : run ob [] = (ob, []) := rfl

theorem run_append_singleton (ob : Outbox) (es : List Event) (e : Event) :
    run ob (es ++ [e]) =
      (((run ob es).1.step e).1, (run ob es).2 ++ ((run ob es).1.step e).2) := by
  simp [run, List.foldl_append]

theorem sent_append_singleton (es : List Event) (e : Event) :
    sent (es ++ [e]) = sent es ++ e.sent := by
  simp [sent]

theorem Counted.step (h : ob.Counted) (e : Event) : (ob.step e).1.Counted := by
  cases e with
  | send o => exact h.push o
  | cancel r => exact h.cancel r
  | handOff =>
    simp only [Outbox.step]
    split
    · exact h.take? ‹_›
    · exact h

theorem maxBlocks_step (ob : Outbox) (e : Event) : (ob.step e).1.maxBlocks = ob.maxBlocks := by
  cases e with
  | send o => exact maxBlocks_push ob o
  | cancel r => exact maxBlocks_cancel ob r
  | handOff =>
    simp only [Outbox.step]
    split
    · rename_i o ob' ht
      unfold Outbox.take? at ht
      split at ht
      · cases ht
      · simp only [Option.some.injEq, Prod.mk.injEq] at ht
        rw [← ht.2]
        rfl
    · rfl

theorem filter_eraseIdx_of_isBlock {l : List Outgoing} {i : Nat} (hi : i < l.length)
    (hb : l[i].isBlock = true) : (l.eraseIdx i).filter (!·.isBlock) = l.filter (!·.isBlock) := by
  conv => rhs; rw [← List.take_append_drop i l, List.drop_eq_getElem_cons hi]
  rw [List.eraseIdx_eq_take_drop_succ, List.filter_append, List.filter_append, List.filter_cons, hb]
  rfl

/-- One turn hands over, keeps or drops items in the order they were queued, and drops only
blocks. -/
theorem step_sublist (ob : Outbox) (e : Event) :
    List.Sublist ((ob.step e).2 ++ (ob.step e).1.queue) (ob.queue ++ e.sent) ∧
      ((ob.step e).2 ++ (ob.step e).1.queue).filter (!·.isBlock) =
        (ob.queue ++ e.sent).filter (!·.isBlock) := by
  cases e with
  | send o =>
    simp only [Outbox.step, Event.sent, List.nil_append]
    rw [push_eq]
    split
    · rename_i hc
      rw [queue_dropBlocks]
      exact ⟨List.filter_sublist.append_right _, by simp [List.filter_append]⟩
    split
    · rename_i hc hfull
      simp only [Bool.and_eq_true] at hfull
      refine ⟨List.sublist_append_left _ _, ?_⟩
      simp [List.filter_append, hfull.1]
    · exact ⟨List.Sublist.refl _, rfl⟩
  | cancel r =>
    simp only [Outbox.step, Event.sent, List.nil_append, List.append_nil]
    rcases queue_cancel ob r with hq | ⟨i, hi, hb, hq⟩
    · rw [hq]
      exact ⟨List.Sublist.refl _, rfl⟩
    · rw [hq]
      exact ⟨List.eraseIdx_sublist _ _, filter_eraseIdx_of_isBlock hi hb⟩
  | handOff =>
    simp only [Outbox.step, Event.sent, List.append_nil]
    split
    · rename_i o ob' ht
      rw [queue_of_take? ht]
      exact ⟨List.Sublist.refl _, rfl⟩
    · exact ⟨List.Sublist.refl _, rfl⟩

theorem run_sublist (ob : Outbox) (es : List Event) :
    List.Sublist ((run ob es).2 ++ (run ob es).1.queue) (ob.queue ++ sent es) ∧
      ((run ob es).2 ++ (run ob es).1.queue).filter (!·.isBlock) =
        (ob.queue ++ sent es).filter (!·.isBlock) := by
  induction es using List.reverseRecOn with
  | nil => simp [sent]
  | append_singleton es e ih =>
    obtain ⟨hsub, hfil⟩ := step_sublist (run ob es).1 e
    rw [run_append_singleton, sent_append_singleton, List.append_assoc, ← List.append_assoc ob.queue]
    refine ⟨?_, ?_⟩
    · exact (hsub.append_left _).trans (by simpa using ih.1.append_right e.sent)
    · rw [List.filter_append, hfil, List.filter_append, ← List.append_assoc, ← List.filter_append,
        ih.2, List.filter_append, List.filter_append, List.filter_append, List.append_assoc]

theorem Counted.run (h : ob.Counted) (es : List Event) : (run ob es).1.Counted := by
  induction es using List.reverseRecOn with
  | nil => exact h
  | append_singleton es e ih =>
    rw [run_append_singleton]
    exact ih.step e

theorem maxBlocks_run (ob : Outbox) (es : List Event) : (run ob es).1.maxBlocks = ob.maxBlocks := by
  induction es using List.reverseRecOn with
  | nil => rfl
  | append_singleton es e ih =>
    rw [run_append_singleton, maxBlocks_step, ih]

/-! ## Following each item through the queue -/

/-- Queueing an item, each queued item tagged with the position of the event that sent it. -/
def tagPush (ob : Outbox) (tq : List (Nat × Outgoing)) (k : Nat) (o : Outgoing) :
    List (Nat × Outgoing) :=
  if o.isChoke then tq.filter (!·.2.isBlock) ++ [(k, o)]
  else if o.isBlock && ob.full then tq
  else tq ++ [(k, o)]

/-- One turn of the loop on tagged items: the items queued after, and those handed over. -/
def tagStep (ob : Outbox) (tq : List (Nat × Outgoing)) (k : Nat) :
    Event → List (Nat × Outgoing) × List (Nat × Outgoing)
  | .send o => (tagPush ob tq k o, [])
  | .cancel r =>
    ((match tq.findIdx? (·.2.answers r) with
      | some i => tq.eraseIdx i
      | none => tq), [])
  | .handOff => (tq.drop 1, tq.take 1)

/-- A run of the loop that follows each item: the queue, the items queued and those handed over,
each tagged with the position of the event that sent it, and the position of the next event. -/
structure Trace where
  ob : Outbox
  queued : List (Nat × Outgoing)
  handed : List (Nat × Outgoing)
  next : Nat

def Trace.step (t : Trace) (e : Event) : Trace where
  ob := (t.ob.step e).1
  queued := (tagStep t.ob t.queued t.next e).1
  handed := t.handed ++ (tagStep t.ob t.queued t.next e).2
  next := t.next + 1

/-- The run of the events `es` from an empty queue bounded by `m`, followed item by item. -/
def trace (m : Int) (es : List Event) : Trace :=
  es.foldl Trace.step ⟨{ maxBlocks := m }, [], [], 0⟩

theorem trace_append_singleton (m : Int) (es : List Event) (e : Event) :
    trace m (es ++ [e]) = (trace m es).step e := by
  simp [trace, List.foldl_append]

theorem tagStep_map {tq : List (Nat × Outgoing)} (h : tq.map Prod.snd = ob.queue) (k : Nat)
    (e : Event) :
    (tagStep ob tq k e).1.map Prod.snd = (ob.step e).1.queue ∧
      (tagStep ob tq k e).2.map Prod.snd = (ob.step e).2 := by
  cases e with
  | send o =>
    simp only [tagStep, Outbox.step, List.map_nil, and_true]
    unfold tagPush
    rw [push_eq]
    by_cases hc : o.isChoke = true
    · simp only [hc, ↓reduceIte, queue_dropBlocks, List.map_append, List.map_cons, List.map_nil,
        ← h, List.filter_map]
      rfl
    by_cases hf : (o.isBlock && ob.full) = true
    · simp only [hc, hf, Bool.false_eq_true, ↓reduceIte, h]
    · simp only [hc, hf, Bool.false_eq_true, ↓reduceIte, List.map_append, h, List.map_cons,
        List.map_nil]
  | cancel r =>
    simp only [tagStep, Outbox.step, List.map_nil, and_true]
    unfold Outbox.cancel
    have hfind : ob.queue.findIdx? (·.answers r) = tq.findIdx? (·.2.answers r) := by
      rw [← h, List.findIdx?_map]
      rfl
    rw [hfind]
    cases tq.findIdx? (·.2.answers r) with
    | none => exact h
    | some i => rw [queue_removeAt, ← h, List.eraseIdx_map]
  | handOff =>
    simp only [tagStep, Outbox.step]
    cases tq with
    | nil =>
      have hq : ob.queue = [] := by simpa using h.symm
      simp [Outbox.take?, hq]
    | cons x rest =>
      have hq : ob.queue = x.2 :: rest.map Prod.snd := by simpa using h.symm
      simp [Outbox.take?, hq, queue_removeAt]


theorem mem_tagStep {tq : List (Nat × Outgoing)} {k : Nat} {e : Event} {x : Nat × Outgoing}
    (hx : x ∈ (tagStep ob tq k e).1 ++ (tagStep ob tq k e).2) :
    x ∈ tq ∨ (x.1 = k ∧ e = .send x.2) := by
  cases e with
  | send o =>
    simp only [tagStep, List.append_nil] at hx
    unfold tagPush at hx
    split_ifs at hx
    · rcases List.mem_append.1 hx with hx | hx
      · exact .inl (List.mem_of_mem_filter hx)
      · obtain rfl := List.mem_singleton.1 hx
        exact .inr ⟨rfl, rfl⟩
    · exact .inl hx
    · rcases List.mem_append.1 hx with hx | hx
      · exact .inl hx
      · obtain rfl := List.mem_singleton.1 hx
        exact .inr ⟨rfl, rfl⟩
  | cancel r =>
    simp only [tagStep, List.append_nil] at hx
    split at hx
    · exact .inl (List.mem_of_mem_eraseIdx hx)
    · exact .inl hx
  | handOff =>
    simp only [tagStep] at hx
    rcases List.mem_append.1 hx with hx | hx
    · exact .inl (List.mem_of_mem_drop hx)
    · exact .inl (List.mem_of_mem_take hx)

theorem find?_eq_of_findIdx? {l : List (Nat × Outgoing)} {p : Nat × Outgoing → Bool} {i : Nat}
    (h : l.findIdx? p = some i) : ∃ hi : i < l.length, l.find? p = some l[i] := by
  obtain ⟨hi, hp, hbefore⟩ := List.findIdx?_eq_some_iff_getElem.1 h
  exact ⟨hi, List.find?_eq_some_iff_getElem.2 ⟨hp, i, hi, rfl, fun j hj => by simpa using hbefore j hj⟩⟩

/-- A turn keeps or hands over every queued item, but for the blocks a choke drops and the item
a cancel takes out: the first one answering its request. -/
theorem tagStep_keeps {tq : List (Nat × Outgoing)} {k : Nat} {e : Event} {x : Nat × Outgoing}
    (hx : x ∈ tq) :
    x ∈ (tagStep ob tq k e).1 ++ (tagStep ob tq k e).2 ∨
      (e = .send (.message .choke) ∧ x.2.isBlock = true) ∨
      ∃ r, e = .cancel r ∧ tq.find? (·.2.answers r) = some x := by
  cases e with
  | send o =>
    simp only [tagStep, List.append_nil]
    unfold tagPush
    by_cases hc : o.isChoke = true
    · have ho : o = .message .choke := by
        cases o with
        | message m => cases m <;> first | rfl | cases hc
        | block r src => cases hc
      by_cases hb : x.2.isBlock = true
      · exact .inr (.inl ⟨congrArg Event.send ho, hb⟩)
      · exact .inl (by simp [hc, hx, hb])
    · split_ifs <;> simp [hx]
  | cancel r =>
    simp only [tagStep, List.append_nil]
    cases hi : tq.findIdx? (·.2.answers r) with
    | none => exact .inl hx
    | some i =>
      by_cases hk : x ∈ tq.eraseIdx i
      · exact .inl hk
      obtain ⟨hlt, hfind⟩ := find?_eq_of_findIdx? hi
      obtain ⟨j, hj, rfl⟩ := List.mem_iff_getElem.1 hx
      have hji : j = i := by
        by_contra hne
        exact hk (List.mem_eraseIdx_iff_getElem.2 ⟨j, hj, hne, rfl⟩)
      subst hji
      exact .inr (.inr ⟨r, rfl, hfind⟩)
  | handOff =>
    refine .inl ?_
    simp only [tagStep, List.mem_append]
    rw [← List.take_append_drop 1 tq, List.mem_append] at hx
    exact hx.symm

/-- The item a turn sends is queued, unless it is a block finding the queue full. -/
theorem mem_tagPush (tq : List (Nat × Outgoing)) (k : Nat) (o : Outgoing) :
    (k, o) ∈ tagPush ob tq k o ∨ (o.isBlock = true ∧ ob.full = true) := by
  unfold tagPush
  split_ifs with hc hf
  · simp
  · exact .inr (Bool.and_eq_true _ _ ▸ hf)
  · simp


theorem isBlock_of_answers {o : Outgoing} {r : Request} (h : o.answers r = true) :
    o.isBlock = true := by
  cases o with
  | message m => cases h
  | block r' src => rfl

theorem getElem?_append_of_getElem? {l l' : List Event} {i : Nat} {e : Event}
    (h : l[i]? = some e) : (l ++ l')[i]? = some e := by
  rw [List.getElem?_append_left (List.getElem?_eq_some_iff.1 h).1]
  exact h

/-- Why the block `o` sent by event `k` of `es` left the queue without being handed over: the
queue held its bound of blocks when it came, or a later cancel took it out as the first queued
block of its request, or a choke was sent after it. -/
def Dropped (m : Int) (es : List Event) (k : Nat) (o : Outgoing) : Prop :=
  (0 < m ∧ m ≤ (trace m (es.take k)).ob.blockCount) ∨
    (∃ c r, k < c ∧ es[c]? = some (.cancel r) ∧
      (trace m (es.take c)).queued.find? (·.2.answers r) = some (k, o)) ∨
    ∃ c, k < c ∧ es[c]? = some (.send (.message .choke))

theorem Dropped.append {m : Int} {es : List Event} {k : Nat} {o : Outgoing}
    (h : Dropped m es k o) (hk : k ≤ es.length) (es' : List Event) : Dropped m (es ++ es') k o := by
  rcases h with hfull | ⟨c, r, hkc, hc, hfind⟩ | ⟨c, hkc, hc⟩
  · exact .inl (by rwa [List.take_append_of_le_length hk])
  · have hlen : c ≤ es.length := (List.getElem?_eq_some_iff.1 hc).1.le
    exact .inr (.inl ⟨c, r, hkc, getElem?_append_of_getElem? hc,
      by rwa [List.take_append_of_le_length hlen]⟩)
  · exact .inr (.inr ⟨c, hkc, getElem?_append_of_getElem? hc⟩)

variable (m : Int)

theorem trace_nil : trace m [] = ⟨{ maxBlocks := m }, [], [], 0⟩ := rfl

theorem trace_next (es : List Event) : (trace m es).next = es.length := by
  induction es using List.reverseRecOn with
  | nil => rfl
  | append_singleton es e ih => simp [trace_append_singleton, Trace.step, ih]

/-- The followed run is the run of the loop. -/
theorem trace_ob (es : List Event) : (trace m es).ob = (run { maxBlocks := m } es).1 := by
  induction es using List.reverseRecOn with
  | nil => rfl
  | append_singleton es e ih => simp [trace_append_singleton, Trace.step, ih, run_append_singleton]

theorem trace_map (es : List Event) :
    (trace m es).queued.map Prod.snd = (trace m es).ob.queue ∧
      (trace m es).handed.map Prod.snd = (run { maxBlocks := m } es).2 := by
  induction es using List.reverseRecOn with
  | nil => exact ⟨rfl, rfl⟩
  | append_singleton es e ih =>
    obtain ⟨hq, hh⟩ := tagStep_map ih.1 (trace m es).next e
    rw [trace_append_singleton, run_append_singleton, ← trace_ob, ← ih.2]
    exact ⟨hq, by rw [Trace.step, List.map_append, hh]⟩

theorem trace_counted (es : List Event) :
    (trace m es).ob.Counted ∧ (trace m es).ob.maxBlocks = m := by
  have h0 : Outbox.Counted { maxBlocks := m } := ⟨rfl, fun hm => by simpa [blockCount] using Int.le_of_lt hm⟩
  rw [trace_ob]
  exact ⟨h0.run es, maxBlocks_run _ es⟩

/-- Every followed item is tagged with the event that sent it. -/
theorem trace_provenance (es : List Event) :
    ∀ x ∈ (trace m es).queued ++ (trace m es).handed, es[x.1]? = some (.send x.2) := by
  induction es using List.reverseRecOn with
  | nil => simp [trace_nil]
  | append_singleton es e ih =>
    intro x hx
    rw [trace_append_singleton, Trace.step] at hx
    simp only [List.mem_append] at hx
    rcases hx with hx | hx | hx
    all_goals first
      | exact getElem?_append_of_getElem? (ih x (List.mem_append_right _ hx))
      | skip
    all_goals
      rcases mem_tagStep (List.mem_append.2 (by tauto)) with hx | ⟨hk, rfl⟩
      · exact getElem?_append_of_getElem? (ih x (List.mem_append_left _ hx))
      · rw [hk, trace_next, List.getElem?_concat_length]


theorem fate_step_queued {es : List Event} {e : Event} {k : Nat} {o : Outgoing}
    (hk : k < es.length) (hq : (k, o) ∈ (trace m es).queued) :
    (k, o) ∈ (trace m (es ++ [e])).handed ∨ (k, o) ∈ (trace m (es ++ [e])).queued ∨
      (o.isBlock = true ∧ Dropped m (es ++ [e]) k o) := by
  have htake : (es ++ [e]).take es.length = es := List.take_left' rfl
  rw [trace_append_singleton, Trace.step]
  rcases @tagStep_keeps (trace m es).ob _ (trace m es).next e _ hq with
    hx | ⟨rfl, hb⟩ | ⟨r, rfl, hfind⟩
  · rcases List.mem_append.1 hx with hx | hx
    · exact .inr (.inl hx)
    · exact .inl (List.mem_append_right _ hx)
  · exact .inr (.inr ⟨hb, .inr (.inr ⟨es.length, hk, List.getElem?_concat_length⟩)⟩)
  · have hr := List.find?_some hfind
    refine .inr (.inr ⟨isBlock_of_answers (o := o) hr, .inr (.inl ?_)⟩)
    exact ⟨es.length, r, hk, List.getElem?_concat_length, by rwa [htake]⟩

theorem fate_step_sent (es : List Event) (o : Outgoing) :
    (es.length, o) ∈ (trace m (es ++ [.send o])).queued ∨
      (o.isBlock = true ∧ Dropped m (es ++ [.send o]) es.length o) := by
  have htake : (es ++ [Event.send o]).take es.length = es := List.take_left' rfl
  rw [trace_append_singleton, Trace.step]
  simp only [tagStep, trace_next]
  rcases @mem_tagPush (trace m es).ob (trace m es).queued es.length o with h | ⟨hb, hfull⟩
  · exact .inl h
  · obtain ⟨⟨hq, -⟩, hmax⟩ := trace_counted m es
    simp only [full, hmax, hq, Bool.and_eq_true, decide_eq_true_eq] at hfull
    exact .inr ⟨hb, .inl (by rw [htake]; exact hfull)⟩

/-- Every item sent is handed over, still queued, or a block dropped for one of the reasons of
`Dropped`. -/
theorem trace_fate (es : List Event) :
    ∀ k o, es[k]? = some (.send o) →
      (k, o) ∈ (trace m es).handed ∨ (k, o) ∈ (trace m es).queued ∨
        (o.isBlock = true ∧ Dropped m es k o) := by
  induction es using List.reverseRecOn with
  | nil => simp
  | append_singleton es e ih =>
    intro k o hk
    rcases Nat.lt_or_ge k es.length with hlt | hge
    · rw [List.getElem?_append_left hlt] at hk
      rcases ih k o hk with h | h | ⟨hb, hd⟩
      · refine .inl ?_
        rw [trace_append_singleton, Trace.step]
        exact List.mem_append_left _ h
      · exact fate_step_queued m hlt h
      · exact .inr (.inr ⟨hb, hd.append hlt.le _⟩)
    · have hke : k = es.length := by
        have := (List.getElem?_eq_some_iff.1 hk).1
        simp only [List.length_append, List.length_singleton] at this
        omega
      subst hke
      obtain rfl := Option.some.inj (List.getElem?_concat_length ▸ hk)
      exact .inr (fate_step_sent m es o)

/-- **The writer's loop.** Over every run of the loop from an empty queue bounded by `m`: the
count of queued blocks is the number of blocks queued, and within the bound when there is one;
the items handed to the writer, then those still queued, come in the order they were sent; no
item but a block is lost; and, following each item by the event that sent it, every item sent is
handed over, still queued, or a block dropped for one of the reasons of `Dropped`. -/
theorem writer_loop_semantics (es : List Event) :
    let ob := (run { maxBlocks := m } es).1
    let handed := (run { maxBlocks := m } es).2
    (ob.queuedBlocks = ob.blockCount ∧ (0 < m → (ob.blockCount : Int) ≤ m)) ∧
      List.Sublist (handed ++ ob.queue) (sent es) ∧
      (handed ++ ob.queue).filter (!·.isBlock) = (sent es).filter (!·.isBlock) ∧
      ((trace m es).ob = ob ∧ (trace m es).handed.map Prod.snd = handed ∧
        (trace m es).queued.map Prod.snd = ob.queue ∧
        (∀ x ∈ (trace m es).queued ++ (trace m es).handed, es[x.1]? = some (.send x.2)) ∧
        ∀ k o, es[k]? = some (.send o) →
          (k, o) ∈ (trace m es).handed ∨ (k, o) ∈ (trace m es).queued ∨
            (o.isBlock = true ∧ Dropped m es k o)) := by
  intro ob handed
  obtain ⟨hc, hmax⟩ := trace_counted m es
  rw [trace_ob] at hc hmax
  have hsub := run_sublist { maxBlocks := m } es
  simp only [List.nil_append] at hsub
  refine ⟨⟨hc.1, fun hm => ?_⟩, hsub.1, hsub.2, trace_ob m es, (trace_map m es).2, ?_,
    trace_provenance m es, trace_fate m es⟩
  · rw [← hmax] at hm ⊢
    exact hc.2 hm
  · rw [(trace_map m es).1, trace_ob]

-- With room for one block, the second block sent is dropped and the first is handed over.
example :
    (trace 1 [.send (.block ⟨0, 0, 16384⟩ .failing), .send (.block ⟨0, 16384, 16384⟩ .failing),
      .handOff]).handed.map Prod.fst = [0] := by decide

end Outbox

end BitTorrent
