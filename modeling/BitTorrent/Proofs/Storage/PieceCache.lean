import BitTorrent.Storage.PieceCache
import Mathlib.Data.List.Nodup

/-!
# What a piece cache holds

A read through the cache (`PieceCache.get`) loads a piece the cache does not hold and keeps it
when the load succeeds. When every piece the cache holds is what loading it gives
(`PieceCache.Faithful`), a read through the cache gives what the load gives
(`PieceCache.get_fst`), and the cache stays faithful (`PieceCache.faithful_get`): a failed load
is never kept.

The pieces the cache holds (`PieceCache.keys`) are distinct and at most its capacity
(`PieceCache.Bounded`). After a read that gives the piece's data, they are the piece followed by
the others as they were, cut to the capacity (`PieceCache.keys_get`); over reads one after
another they are the distinct pieces read, the most recent first, cut to the capacity
(`PieceCache.keys_get_of_history`): the least recently used piece is the one dropped. Each read
counts as a hit when the cache holds its piece and as a miss otherwise
(`PieceCache.hits_get`, `PieceCache.misses_get`).
-/

namespace BitTorrent

namespace List

variable {α : Type} [BEq α] [LawfulBEq α]

/-- Keeping the first occurrences commutes with keeping the values a predicate accepts. -/
theorem eraseDups_filter (p : α → Bool) : ∀ l : List α, (l.filter p).eraseDups = l.eraseDups.filter p
  | [] => rfl
  | a :: l => by
    have ih := eraseDups_filter p (l.filter fun b => !b == a)
    rw [List.eraseDups_cons, List.filter_cons]
    by_cases ha : p a
    · rw [if_pos ha, List.eraseDups_cons, List.filter_cons, if_pos ha, ← ih, List.filter_filter,
        List.filter_filter]
      congr 3
      funext b
      exact Bool.and_comm _ _
    · rw [if_neg ha, List.filter_cons, if_neg ha, ← ih, List.filter_filter]
      -- the values `p` rejects include `a`, so dropping `a` first changes nothing
      congr 1
      apply List.filter_congr
      intro b _
      by_cases hb : b = a
      · subst hb
        simp [ha]
      · simp [hb]
termination_by l => l.length
decreasing_by
  simp only [List.length_cons]
  have := List.length_filter_le (fun b => !b == a) l
  omega

/-- Keeping the first occurrences leaves no value twice. -/
theorem nodup_eraseDups : ∀ l : List α, l.eraseDups.Nodup
  | [] => List.nodup_nil
  | a :: l => by
    have ih := nodup_eraseDups (l.filter fun b => !b == a)
    rw [List.eraseDups_cons, List.nodup_cons]
    refine ⟨fun h => ?_, ih⟩
    rw [List.mem_eraseDups, List.mem_filter] at h
    simp at h
termination_by l => l.length
decreasing_by
  simp only [List.length_cons]
  have := List.length_filter_le (fun b => !b == a) l
  omega

/-- Among the first `n` values of a list without duplicates, at most one is `i`: dropping it
and keeping `n - 1` keeps the first `n - 1` values other than `i`. -/
theorem take_filter_take {l : List α} (hl : l.Nodup) (i : α) :
    ∀ n, ((l.take n).filter (· != i)).take (n - 1) = (l.filter (· != i)).take (n - 1) := by
  induction l with
  | nil => simp
  | cons a l ih =>
    rw [List.nodup_cons] at hl
    intro n
    cases n with
    | zero => simp
    | succ m =>
      rw [List.take_succ_cons, List.filter_cons, List.filter_cons, Nat.add_sub_cancel]
      by_cases ha : a = i
      · -- `i` is the first value, and occurs nowhere after it
        subst ha
        have hrest : ∀ l' : List α, (∀ b ∈ l', b ≠ a) → l'.filter (· != a) = l' := fun l' h' =>
          List.filter_eq_self.2 fun b hb => by simpa using h' b hb
        simp only [bne_self_eq_false, Bool.false_eq_true, if_false]
        rw [hrest _ fun b hb => ?_, hrest l fun b hb => ?_, List.take_take, Nat.min_self]
        · exact fun h => hl.1 (h ▸ hb)
        · exact fun h => hl.1 (h ▸ List.mem_of_mem_take hb)
      · have hai : (a != i) = true := by simpa using ha
        rw [if_pos hai, if_pos hai]
        cases m with
        | zero => simp
        | succ k =>
          have hk := ih hl.2 (k + 1)
          rw [Nat.add_sub_cancel] at hk
          rw [List.take_succ_cons, List.take_succ_cons, hk]

end List

namespace PieceCache

/-- The pieces the cache holds, the most recently used first. -/
def keys (c : PieceCache) : List UInt32 :=
  c.entries.map (·.1)

/-- The cache holds distinct pieces, at most its capacity of them. -/
def Bounded (c : PieceCache) : Prop :=
  c.keys.Nodup ∧ c.entries.length ≤ c.capacity

variable {ε : Type} (load : UInt32 → Except ε (List UInt8))

/-- Every piece the cache holds is what loading it gives. -/
def Faithful (c : PieceCache) : Prop :=
  ∀ e ∈ c.entries, load e.1 = .ok e.2

variable {load} {c : PieceCache}

theorem find?_entries_eq_none_iff {i : UInt32} :
    c.entries.find? (·.1 == i) = none ↔ i ∉ c.keys := by
  rw [List.find?_eq_none, keys, List.mem_map]
  constructor
  · rintro h ⟨e, he, rfl⟩
    exact h e he (by simp)
  · intro h e he hi
    exact h ⟨e, he, by simpa using hi⟩

/-- A read through a faithful cache gives what the load gives: a hit gives the piece kept,
which is what the load gives, and a miss loads it. -/
theorem get_fst (hc : c.Faithful load) (i : UInt32) : (c.get i fun _ => load i).1 = load i := by
  unfold get
  split
  · rename_i j data hfind
    have hmem := List.mem_of_find?_eq_some hfind
    have hj : j = i := by simpa using List.find?_some hfind
    rw [← hj, hc _ hmem]
  · split <;> simp_all

/-- The entries after a read through a faithful cache: the loaded piece first, when the load
succeeds, and the others as they were, cut to the capacity. -/
theorem entries_get (hc : c.Faithful load) (i : UInt32) :
    (c.get i fun _ => load i).2.2.entries =
      match load i with
      | .ok data => ((i, data) :: c.entries.filter (·.1 != i)).take c.capacity
      | .error _ => c.entries := by
  unfold get
  split
  · rename_i j data hfind
    have hmem := List.mem_of_find?_eq_some hfind
    have hj : j = i := by simpa using List.find?_some hfind
    subst hj
    rw [hc _ hmem]
    rfl
  · split <;> rename_i h <;> simp [h, add]

theorem capacity_get (i : UInt32) (l : Unit → Except ε (List UInt8)) :
    (c.get i l).2.2.capacity = c.capacity := by
  unfold get
  split
  · rfl
  · split <;> rfl

theorem hits_get (i : UInt32) (l : Unit → Except ε (List UInt8)) :
    (c.get i l).2.2.hits = c.hits + if i ∈ c.keys then 1 else 0 := by
  unfold get
  split
  · rename_i j data hfind
    have hi : i ∈ c.keys := by
      by_contra h
      rw [← find?_entries_eq_none_iff] at h
      simp [h] at hfind
    simp [hi]
  · rename_i hfind
    have hi := find?_entries_eq_none_iff.1 hfind
    split <;> simp [hi, add]

theorem misses_get (i : UInt32) (l : Unit → Except ε (List UInt8)) :
    (c.get i l).2.2.misses = c.misses + if i ∈ c.keys then 0 else 1 := by
  unfold get
  split
  · rename_i j data hfind
    have hi : i ∈ c.keys := by
      by_contra h
      rw [← find?_entries_eq_none_iff] at h
      simp [h] at hfind
    simp [hi, add]
  · rename_i hfind
    have hi := find?_entries_eq_none_iff.1 hfind
    split <;> simp [hi, add]

/-- **A failed load is never kept.** A read through a faithful cache keeps it faithful. -/
theorem faithful_get (hc : c.Faithful load) (i : UInt32) :
    (c.get i fun _ => load i).2.2.Faithful load := by
  intro e he
  rw [entries_get hc] at he
  split at he
  · rename_i data hload
    rcases List.mem_cons.1 (List.mem_of_mem_take he) with h | h
    · rw [h, hload]
    · exact hc e (List.mem_of_mem_filter h)
  · exact hc e he

/-- The pieces after a read through a faithful cache: when the read gives the piece's data, the
piece first and the others as they were, cut to the capacity; otherwise those before. -/
theorem keys_get (hc : c.Faithful load) (i : UInt32) :
    (c.get i fun _ => load i).2.2.keys =
      if (load i).toBool then (i :: c.keys.filter (· != i)).take c.capacity else c.keys := by
  rw [keys, entries_get hc]
  split
  · rename_i data hload
    rw [hload]
    simp only [Except.toBool, if_true, List.map_take, List.map_cons, List.filter_map, keys]
    rfl
  · rename_i e hload
    rw [hload]
    rfl

theorem bounded_get (hc : c.Faithful load) (hb : c.Bounded) (i : UInt32) :
    (c.get i fun _ => load i).2.2.Bounded := by
  obtain ⟨hnd, hlen⟩ := hb
  have hkeys := keys_get hc i
  have hlen' : (c.get i fun _ => load i).2.2.entries.length =
      (c.get i fun _ => load i).2.2.keys.length := by rw [keys, List.length_map]
  unfold Bounded
  rw [hlen', capacity_get, hkeys]
  split
  · -- the piece read comes first, the others kept in order without it
    have hnd' : (i :: c.keys.filter (· != i)).Nodup :=
      List.nodup_cons.2 ⟨by simp, hnd.filter _⟩
    exact ⟨hnd'.sublist (List.take_sublist _ _), List.length_take_le _ _⟩
  · exact ⟨hnd, by rw [keys, List.length_map]; exact hlen⟩

/-- **The least recently used piece is the one dropped.** When the cache holds the distinct
pieces of `l`, the most recent first, cut to the capacity, a read that gives piece `i` leaves
it holding those of `i :: l`. -/
theorem keys_eraseDups_step (i : UInt32) (l : List UInt32) (n : Nat) :
    (i :: (l.eraseDups.take n).filter (· != i)).take n = (i :: l).eraseDups.take n := by
  rw [List.eraseDups_cons]
  cases n with
  | zero => rfl
  | succ m =>
    have h := List.take_filter_take (List.nodup_eraseDups l) i (m + 1)
    rw [Nat.add_sub_cancel] at h
    rw [List.take_succ_cons, List.take_succ_cons, List.eraseDups_filter, h]
    rfl

/-- A cache that holds the distinct pieces of the history `h`, the most recent first, cut to its
capacity, holds after a read those of the history with the piece read in front when the read
gives its data. -/
theorem keys_get_of_history {h : List UInt32} (hc : c.Faithful load)
    (hk : c.keys = h.eraseDups.take c.capacity) (i : UInt32) :
    (c.get i fun _ => load i).2.2.keys =
      ((if (load i).toBool then [i] else []) ++ h).eraseDups.take c.capacity := by
  rw [keys_get hc, hk]
  split
  · exact keys_eraseDups_step i h c.capacity
  · rfl

end PieceCache

end BitTorrent
