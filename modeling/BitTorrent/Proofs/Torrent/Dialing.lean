import BitTorrent.Torrent.Connections

/-!
# The dial queue

The connections of a torrent (`Torrent.Connections`) change by events in any order: addresses
handed over, sessions ending, connections coming in, status changes, a start that runs and a stop
that is done. Main statement (`Connections.dial_queue_invariant`): from a new torrent, after every
run of events,

* the queue holds no two addresses of one key, the set of queued keys is exactly the set of the
  keys of the queue, and no queued address has a running outgoing session;
* no more outgoing sessions run than the dial limit allows, and no more incoming ones than the
  accept limit allows (none at all where a limit is not positive);
* the next event dials only while the torrent downloads, and it dials the first queued addresses,
  in the order of the queue: what it dials followed by the queue it leaves is the queue it dialed
  from.

The invariant (`Connections.Inv`) holds of a new torrent and every event keeps it
(`Connections.Inv.step`); the dial loop, started from a queue none of whose keys has a session,
never meets such a key, so it dials a prefix of the queue (`Connections.dialLoop_spec`).
-/

namespace BitTorrent.Torrent

namespace Connections

variable {α : Type} (key : α → String)

/-- The dial queue invariant, under the limits of `c`. -/
structure Inv (c : Config) (st : Connections α) : Prop where
  nodup : (st.queue.map key).Nodup
  queued_eq : st.queued = (st.queue.map key).toFinset
  not_outgoing : ∀ a ∈ st.queue, key a ∉ st.outgoing
  outgoing_le : (st.outgoing.card : Int) ≤ max c.maxPeerDial 0
  incoming_le : st.incoming ≤ max c.maxPeerAccept 0

variable {key}

theorem inv_new (c : Config) : Inv key c ({} : Connections α) where
  nodup := List.nodup_nil
  queued_eq := rfl
  not_outgoing _ h := absurd h List.not_mem_nil
  outgoing_le := by simp
  incoming_le := by simp

/-! ### Queueing -/

theorem Inv.enqueue {c : Config} {st : Connections α} (h : Inv key c st) (addrs : List α) :
    Inv key c (st.enqueue key addrs) := by
  induction addrs generalizing st with
  | nil => exact h
  | cons a as ih =>
    rw [Connections.enqueue]
    split
    · exact ih h
    · rename_i hnew
      simp only [not_or] at hnew
      apply ih
      -- the new key is neither queued nor dialed
      have hq : key a ∉ st.queue.map key := by
        rw [← List.mem_toFinset, ← h.queued_eq]
        exact hnew.1
      refine ⟨?_, ?_, ?_, h.outgoing_le, h.incoming_le⟩
      · rw [List.map_append, List.map_singleton, List.nodup_append_comm, List.singleton_append]
        exact List.nodup_cons.2 ⟨hq, h.nodup⟩
      · ext k
        simp [h.queued_eq]
      · intro b hb
        rcases List.mem_append.1 hb with hb | hb
        · exact h.not_outgoing b hb
        · rw [List.mem_singleton.1 hb]
          exact hnew.2

/-! ### Dialing -/

/-- **The dial loop dials a prefix of the queue.** Over a queue of distinct keys, none of which has a
running session, with the queued keys those of the queue and the sessions within the limit: the
addresses dialed followed by the queue left are the queue, the queued keys are those left, the
sessions are those before and one for each address dialed, and they stay within the limit. -/
theorem dialLoop_spec {m : Int} (q : List α) {st : Connections α} (hq : (q.map key).Nodup)
    (hk : st.queued = (q.map key).toFinset) (ho : ∀ a ∈ q, key a ∉ st.outgoing)
    (hle : (st.outgoing.card : Int) ≤ max m 0) :
    (dialLoop key m st q).1 ++ (dialLoop key m st q).2.queue = q ∧
      (dialLoop key m st q).2.queued = ((dialLoop key m st q).2.queue.map key).toFinset ∧
      (dialLoop key m st q).2.outgoing = st.outgoing ∪ ((dialLoop key m st q).1.map key).toFinset ∧
      ((dialLoop key m st q).2.outgoing.card : Int) ≤ max m 0 ∧
      (dialLoop key m st q).2.status = st.status ∧ (dialLoop key m st q).2.incoming = st.incoming := by
  induction q generalizing st with
  | nil => simpa [dialLoop, hk] using hle
  | cons a q ih =>
    have ha : key a ∉ st.outgoing := ho a List.mem_cons_self
    obtain ⟨haq, hq'⟩ := List.nodup_cons.1 hq
    by_cases hlt : (st.outgoing.card : Int) < m
    · -- the first address is dialed: its key leaves the queued keys and gets a session
      have hk' : st.queued.erase (key a) = (q.map key).toFinset := by
        rw [hk, List.map_cons, List.toFinset_cons, Finset.erase_insert (by simpa using haq)]
      have ho' : ∀ b ∈ q, key b ∉ insert (key a) st.outgoing := by
        intro b hb hm
        rcases Finset.mem_insert.1 hm with hab | hm
        · exact haq (hab ▸ List.mem_map_of_mem hb)
        · exact ho b (List.mem_cons_of_mem a hb) hm
      have hle' : ((insert (key a) st.outgoing).card : Int) ≤ max m 0 := by
        rw [Finset.card_insert_of_notMem ha]
        omega
      obtain ⟨h1, h2, h3, h4, h5, h6⟩ :=
        @ih { st with queued := st.queued.erase (key a), outgoing := insert (key a) st.outgoing }
          hq' hk' ho' hle'
      simp only [dialLoop, hlt, if_true, ha, if_false]
      refine ⟨by simp [h1], h2, ?_, h4, h5, h6⟩
      rw [h3]
      simp [Finset.insert_union, Finset.union_insert]
    · rw [dialLoop, if_neg hlt]
      exact ⟨rfl, hk, by simp, hle, rfl, rfl⟩

/-- Dialing keeps the invariant, dials the first queued addresses in order, and dials only while
the torrent downloads. -/
theorem Inv.dialAddresses {c : Config} {st : Connections α} (h : Inv key c st) :
    Inv key c (st.dialAddresses key c).2 ∧
      (st.dialAddresses key c).1 ++ (st.dialAddresses key c).2.queue = st.queue ∧
      (st.dialAddresses key c).2.outgoing =
        st.outgoing ∪ ((st.dialAddresses key c).1.map key).toFinset ∧
      ((st.dialAddresses key c).1 ≠ [] → st.status = .downloading) := by
  unfold Connections.dialAddresses
  split
  · rename_i hdl
    obtain ⟨h1, h2, h3, h4, -, h6⟩ := dialLoop_spec st.queue h.nodup h.queued_eq h.not_outgoing
      h.outgoing_le
    refine ⟨⟨?_, h2, ?_, h4, h6 ▸ h.incoming_le⟩, h1, h3, fun _ => hdl⟩
    · have hsub := (List.sublist_append_right (dialLoop key c.maxPeerDial st st.queue).1
        (dialLoop key c.maxPeerDial st st.queue).2.queue).map key
      rw [h1] at hsub
      exact hsub.nodup h.nodup
    · -- a queued address left is neither among those dialed nor had a session
      intro a ha hm
      rw [h3] at hm
      have hnd := h.nodup
      rw [← h1, List.map_append, List.nodup_append] at hnd
      rcases Finset.mem_union.1 hm with hm | hm
      · exact h.not_outgoing a (h1 ▸ List.mem_append_right _ ha) hm
      · exact hnd.2.2 _ (List.mem_toFinset.1 hm) _ (List.mem_map_of_mem ha) rfl
  · exact ⟨h, rfl, by simp, fun hne => absurd rfl hne⟩

/-! ### Events -/

@[simp] theorem status_enqueue (st : Connections α) (addrs : List α) :
    (st.enqueue key addrs).status = st.status := by
  induction addrs generalizing st with
  | nil => rfl
  | cons a as ih =>
    rw [Connections.enqueue]
    split <;> simp [ih]

/-- The events after which the torrent dials leave its status as it was. -/
theorem status_apply_of_dials {c : Config} {st : Connections α} {e : Event α}
    (he : e.dials = true) : (apply key c st e).status = st.status := by
  cases e <;> simp_all [Connections.apply, Event.dials]

/-- Every event keeps the invariant before the torrent dials: a session that ends only frees a
key, and an incoming connection is counted only below the accept limit. -/
theorem Inv.apply {c : Config} {st : Connections α} (h : Inv key c st) (e : Event α) :
    Inv key c (apply key c st e) := by
  cases e with
  | addPeers addrs => exact h.enqueue addrs
  | outgoingEnded k =>
    refine ⟨h.nodup, h.queued_eq, fun a ha hm => h.not_outgoing a ha (Finset.mem_of_mem_erase hm),
      ?_, h.incoming_le⟩
    have hcard : ((st.outgoing.erase k).card : Int) ≤ st.outgoing.card := by
      exact_mod_cast Finset.card_erase_le
    exact hcard.trans h.outgoing_le
  | incomingEnded =>
    refine ⟨h.nodup, h.queued_eq, h.not_outgoing, h.outgoing_le, ?_⟩
    show st.incoming - 1 ≤ max c.maxPeerAccept 0
    have := h.incoming_le
    omega
  | connection =>
    show Inv key c (st.accept c).2
    unfold Connections.accept
    split
    · exact h
    · rename_i hacc
      refine ⟨h.nodup, h.queued_eq, h.not_outgoing, h.outgoing_le, ?_⟩
      have hlt : st.incoming < c.maxPeerAccept := lt_of_not_ge (not_or.1 hacc).1
      show st.incoming + 1 ≤ max c.maxPeerAccept 0
      omega
  | setStatus s => exact ⟨h.nodup, h.queued_eq, h.not_outgoing, h.outgoing_le, h.incoming_le⟩
  | runnersStarted => exact h
  | stopped =>
    exact ⟨List.nodup_nil, rfl, fun _ ha => absurd ha List.not_mem_nil, h.outgoing_le,
      h.incoming_le⟩

/-- **Step lemma.** A step keeps the invariant. -/
theorem Inv.step {c : Config} {st : Connections α} (h : Inv key c st) (e : Event α) :
    Inv key c (step key c st e).2 := by
  unfold Connections.step
  split
  · exact (h.apply e).dialAddresses.1
  · exact h.apply e

/-- A step dials the first addresses of the queue the event leaves, in order, starts one outgoing
session for each, and dials only while the torrent downloads. -/
theorem Inv.step_dials {c : Config} {st : Connections α} (h : Inv key c st) (e : Event α) :
    (Connections.step key c st e).1 ++ (Connections.step key c st e).2.queue = (Connections.apply key c st e).queue ∧
      (Connections.step key c st e).2.outgoing =
        (Connections.apply key c st e).outgoing ∪ ((Connections.step key c st e).1.map key).toFinset ∧
      ((Connections.step key c st e).1 ≠ [] → st.status = .downloading) := by
  unfold Connections.step
  split
  · rename_i he
    obtain ⟨-, h1, h2, h3⟩ := (h.apply e).dialAddresses
    exact ⟨h1, h2, fun hne => status_apply_of_dials he ▸ h3 hne⟩
  · exact ⟨rfl, by simp, fun hne => absurd rfl hne⟩

/-- **Run lemma.** Every run of events keeps the invariant. -/
theorem Inv.run {c : Config} {st : Connections α} (h : Inv key c st) (events : List (Event α)) :
    Inv key c (run key c st events) := by
  induction events generalizing st with
  | nil => exact h
  | cons e es ih => exact ih (h.step e)

/-- **The dial queue invariant.** After any run of events from a new torrent, the queue has
distinct keys, the queued keys are those of the queue, no queued address has a running outgoing
session, and the sessions stay within the limits (`Inv`); and the next event dials the first
addresses of the queue it leaves, in order, starts an outgoing session for each, and dials only
while the torrent downloads. -/
theorem dial_queue_invariant (c : Config) (events : List (Event α)) (e : Event α) :
    let st := run key c {} events
    let r := step key c st e
    Inv key c st ∧ r.1 ++ r.2.queue = (apply key c st e).queue ∧
      r.2.outgoing = (apply key c st e).outgoing ∪ (r.1.map key).toFinset ∧
      (r.1 ≠ [] → st.status = .downloading) := by
  intro st r
  have hinv : Inv key c st := (inv_new c).run events
  exact ⟨hinv, hinv.step_dials e⟩

-- With one dial slot, the first new address is dialed and the second waits; the repeat is dropped.
example : (step id ({ maxPeerDial := 1 } : Config) { status := .downloading }
      (.addPeers ["a", "b", "a"])).1 = ["a"] ∧
    (step id ({ maxPeerDial := 1 } : Config) { status := .downloading }
      (.addPeers ["a", "b", "a"])).2.queue = ["b"] := by
  decide +kernel

end Connections

end BitTorrent.Torrent
