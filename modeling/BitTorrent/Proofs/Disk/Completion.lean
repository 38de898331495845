import BitTorrent.Proofs.Torrent.Resume
import Mathlib

/-!
# Which blocks of a piece are written, over every run of calls

`Disk.written_blocks_track_calls`: from the disk as it is created, over every run of writes,
restores, checks and resets, in any order:

* the written blocks that the disk lists for piece `i` (`Disk.blocksOf`) come in ascending order,
  and they are exactly the blocks that some call recorded (a write that succeeds or a restore
  that is accepted, `Call.Marks`) with no later call forgetting the piece (a reset or a check
  that matches, `Call.Clears`);
* a write that fails leaves the disk as it was;
* a write reports its piece complete exactly when the piece was not complete before it and is
  complete after it (`Disk.Complete`: every block listed);
* from a piece with no written block, writes of distinct blocks that cover it report it complete
  exactly once, whatever their order (`countP_completes_eq_one`).

Writes can run together: the file writes happen in any order, and only the bookkeeping after each
is done one at a time. A call therefore carries the files as it finds them, and a run is the
order of the bookkeeping.

Proof. One lemma says all a call can do to the record (`apply_cases`): nothing, record one block
of a piece of the disk, or forget a piece. From it, a block is listed after a call when it was
listed and the call does not forget its piece, or when the call records it
(`mem_blocksOf_apply`), and `mem_blocksOf_runCalls` carries this along the run, each call paired
with the disk it finds (`steps`). A write reports completion when its piece's bitfield goes from
not all set to all set, and a bitfield is all set exactly when its piece is complete
(`complete_iff_all`). For the last claim, the block of the last write is listed by no earlier
write, so the piece is complete after that write and after no earlier one.
-/

namespace BitTorrent

namespace Bitfield

theorem pairwise_indexes (bf : Bitfield) : bf.indexes.Pairwise (· < ·) := by
  unfold indexes
  refine List.Pairwise.filter _ ?_
  rw [List.pairwise_map]
  refine (List.pairwise_lt_range).imp_of_mem fun {a b} ha hb hab => ?_
  rw [List.mem_range] at ha hb
  rw [UInt32.lt_iff_toNat_lt, Nat.toUInt32_eq, Nat.toUInt32_eq,
    UInt32.toNat_ofNat_of_lt' (Nat.lt_trans ha bf.length.toNat_lt),
    UInt32.toNat_ofNat_of_lt' (Nat.lt_trans hb bf.length.toNat_lt)]
  exact hab

end Bitfield

namespace Disk

/-- The written blocks of piece `i` as the disk lists them, none when it keeps no record of the
piece. -/
def blocksOf (d : Disk) (i : UInt32) : List UInt32 :=
  (d.writtenBlocks.lookup i).getD []

theorem blocksOf_eq (d : Disk) (i : UInt32) :
    d.blocksOf i = ((d.writtenOf i).map Bitfield.indexes).getD [] := by
  unfold blocksOf writtenBlocks writtenOf
  induction d.written with
  | nil => rfl
  | cons w ws ih =>
    obtain ⟨j, bf⟩ := w
    by_cases h : j = i
    · subst h
      simp
    · have h' : (i == j) = false := by simpa using Ne.symm h
      simp [List.lookup, h', h, ih]

theorem mem_blocksOf {d : Disk} {i k : UInt32} : k ∈ d.blocksOf i ↔ d.Written i k.toNat := by
  rw [blocksOf_eq, Written]
  cases d.writtenOf i with
  | none => simp
  | some bf =>
    simp only [Option.map_some, Option.getD_some, Bitfield.mem_indexes, Option.some.injEq,
      exists_eq_left', UInt32.lt_iff_toNat_lt, Nat.toUInt32_eq, UInt32.ofNat_toNat]

theorem pairwise_blocksOf (d : Disk) (i : UInt32) : (d.blocksOf i).Pairwise (· < ·) := by
  rw [blocksOf_eq]
  cases d.writtenOf i with
  | none => exact List.Pairwise.nil
  | some bf => exact bf.pairwise_indexes

/-- Every block of piece `p` is listed as written. -/
def Complete (d : Disk) (p : PieceLayout) : Prop :=
  ∀ m : UInt32, m < p.numBlocks → m ∈ d.blocksOf p.index

variable {d : Disk}

theorem complete_iff_all (hwf : d.WrittenWF) {p : PieceLayout}
    (hp : d.pieces[p.index.toNat]? = some p) :
    d.Complete p ↔ ((d.writtenOf p.index).getD (Bitfield.new p.numBlocks)).all = true := by
  obtain ⟨hlen, hsc⟩ := length_record hwf hp
  have hsmall := numBlocks_small p
  rw [Bitfield.all_eq_true_iff hsc (by rw [hlen]; exact hsmall), hlen]
  refine forall_congr' fun m => imp_congr_right fun hm => ?_
  rw [mem_blocksOf, written_iff_record hwf hp, Nat.toUInt32_eq, UInt32.ofNat_toNat]
  exact and_iff_right (UInt32.lt_iff_toNat_lt.1 hm)


/-- A call on a disk's record of written blocks. A write or a check carries the files as it
finds them: writes that run together see each other's files in any order, and only their
bookkeeping, one at a time, is ordered. -/
inductive Call (σ : Type) where
  | write (st : σ) (index begin : UInt32) (data : List UInt8)
  | restore (index begin : UInt32)
  | verify (st : σ) (index : UInt32)
  | reset (index : UInt32)

variable {σ : Type} (fs : FileStore σ)

namespace Call

/-- The disk after the call. -/
def apply (d : Disk) : Call σ → Disk
  | .write st index begin data => (d.writeBlock fs st index begin data).2.1
  | .restore index begin => (d.restoreBlock index begin).2
  | .verify st index =>
    match d.verifyPiece fs st index with
    | .ok (_, d') => d'
    | .error _ => d
  | .reset index => d.resetPiece index

/-- The call is a write that reports its piece complete. -/
def completes (d : Disk) : Call σ → Bool
  | .write st index begin data =>
    match (d.writeBlock fs st index begin data).1 with
    | .ok c => c
    | .error _ => false
  | _ => false

/-- The call records block `k` of piece `i`: a write that succeeds, or a restore that is
accepted. -/
def Marks (d : Disk) : Call σ → UInt32 → UInt32 → Prop
  | .write st index begin data, i, k =>
    (∃ c, (d.writeBlock fs st index begin data).1 = .ok c) ∧ index = i ∧ k = begin / blockSize
  | .restore index begin, i, k =>
    (d.restoreBlock index begin).1 = true ∧ index = i ∧ k = begin / blockSize
  | _, _, _ => False

/-- The call forgets piece `i`: a reset, or a check that matches. -/
def Clears (d : Disk) : Call σ → UInt32 → Prop
  | .verify st index, i => (∃ d', d.verifyPiece fs st index = .ok (.ok true, d')) ∧ index = i
  | .reset index, i => index = i
  | _, _ => False

def isWrite : Call σ → Bool
  | .write .. => true
  | _ => false

/-- The piece and block a write or a restore is for. -/
def target : Call σ → Option (UInt32 × UInt32)
  | .write _ index begin _ => some (index, begin / blockSize)
  | .restore index begin => some (index, begin / blockSize)
  | _ => none

variable {fs}

theorem target_of_marks {d : Disk} {c : Call σ} {i k : UInt32} (h : c.Marks fs d i k) :
    c.target = some (i, k) := by
  cases c with
  | write st index begin data => obtain ⟨-, rfl, rfl⟩ := h; rfl
  | restore index begin => obtain ⟨-, rfl, rfl⟩ := h; rfl
  | verify st index => exact h.elim
  | reset index => exact h.elim

theorem not_clears_of_isWrite {d : Disk} {c : Call σ} (h : c.isWrite = true) (i : UInt32) :
    ¬ c.Clears fs d i := by
  cases c with
  | write st index begin data => exact id
  | restore index begin => cases h
  | verify st index => cases h
  | reset index => cases h

end Call

/-- The disk after the calls `cs`, in the order their bookkeeping is done. -/
def runCalls (d : Disk) (cs : List (Call σ)) : Disk :=
  cs.foldl (fun d c => c.apply fs d) d

/-- Each of the calls `cs` with the disk it finds. -/
def steps (d : Disk) : List (Call σ) → List (Disk × Call σ)
  | [] => []
  | c :: cs => (d, c) :: steps (c.apply fs d) cs

variable {fs}

theorem runCalls_cons (d : Disk) (c : Call σ) (cs : List (Call σ)) :
    runCalls fs d (c :: cs) = runCalls fs (c.apply fs d) cs := rfl

theorem steps_append_singleton (d : Disk) (cs : List (Call σ)) (c : Call σ) :
    steps fs d (cs ++ [c]) = steps fs d cs ++ [(runCalls fs d cs, c)] := by
  induction cs generalizing d with
  | nil => rfl
  | cons c' cs ih => simp [steps, ih, runCalls_cons]

theorem map_snd_steps (d : Disk) (cs : List (Call σ)) : (steps fs d cs).map Prod.snd = cs := by
  induction cs generalizing d with
  | nil => rfl
  | cons c cs ih => simp [steps, ih]

theorem runCalls_append_singleton (d : Disk) (cs : List (Call σ)) (c : Call σ) :
    runCalls fs d (cs ++ [c]) = c.apply fs (runCalls fs d cs) := by
  simp [runCalls, List.foldl_append]

/-- What a call can do to the record: nothing, mark one block of a piece of the disk, or
forget a piece. -/
theorem apply_cases (hix : d.Indexed) (c : Call σ) :
    (c.apply fs d = d ∧ ∀ i, ¬ c.Clears fs d i ∧ ∀ k, ¬ c.Marks fs d i k) ∨
    (∃ p k, d.pieces[p.index.toNat]? = some p ∧ k < p.numBlocks ∧
      c.apply fs d = (d.markWritten p k).2 ∧
      ∀ i, ¬ c.Clears fs d i ∧ ∀ j, (c.Marks fs d i j ↔ i = p.index ∧ j = k)) ∨
    (∃ index, c.apply fs d = d.resetPiece index ∧
      ∀ i, (c.Clears fs d i ↔ index = i) ∧ ∀ k, ¬ c.Marks fs d i k) := by
  cases c with
  | write st index begin data =>
    simp only [Call.apply, Call.Marks, Call.Clears, not_false_eq_true, true_and]
    generalize hw : d.writeBlock fs st index begin data = res
    obtain ⟨r, d', st'⟩ := res
    cases r with
    | error e =>
      refine .inl ⟨writeBlock_eq_error hw, fun i k ⟨⟨c, hc⟩, _⟩ => ?_⟩
      cases hc
    | ok cpl =>
      obtain ⟨p, blk, hp, hblk, hmark⟩ := writeBlock_eq_ok hw
      obtain ⟨-, hidx, hlt⟩ := Block.find?_eq_some hblk
      have hpi := hix.index_eq hp
      refine .inr (.inl ⟨p, blk.index, hpi ▸ hp, hidx ▸ hlt, by rw [hmark], fun i j => ?_⟩)
      rw [hpi, hidx]
      exact ⟨fun ⟨_, hi, hj⟩ => ⟨hi.symm, hj⟩, fun ⟨hi, hj⟩ => ⟨⟨cpl, rfl⟩, hi.symm, hj⟩⟩
  | restore index begin =>
    simp only [Call.apply, Call.Marks, Call.Clears, not_false_eq_true, true_and]
    generalize hr : d.restoreBlock index begin = res
    obtain ⟨ok, d'⟩ := res
    rcases restoreBlock_cases hr with ⟨rfl, rfl⟩ | ⟨rfl, p, hp, -, hk, rfl⟩
    · exact .inl ⟨rfl, fun i k ⟨h, _⟩ => Bool.false_ne_true h⟩
    · have hpi := hix.index_eq hp
      refine .inr (.inl ⟨p, begin / blockSize, hpi ▸ hp, hk, rfl, fun i j => ?_⟩)
      rw [hpi]
      exact ⟨fun ⟨_, hi, hj⟩ => ⟨hi.symm, hj⟩, fun ⟨hi, hj⟩ => ⟨rfl, hi.symm, hj⟩⟩
  | verify st index =>
    cases hv : d.verifyPiece fs st index with
    | error f =>
      refine .inl ⟨by simp only [Call.apply, hv], fun i => ⟨?_, fun k h => h⟩⟩
      rintro ⟨⟨d', h⟩, -⟩
      rw [hv] at h
      cases h
    | ok res =>
      obtain ⟨r, d'⟩ := res
      rcases verifyPiece_cases hv with ⟨rfl, rfl⟩ | ⟨hr, rfl⟩
      · refine .inr (.inr ⟨index, by simp only [Call.apply, hv], fun i => ⟨?_, fun k h => h⟩⟩)
        exact ⟨fun h => h.2, fun hi => ⟨⟨_, hv⟩, hi⟩⟩
      · refine .inl ⟨by simp only [Call.apply, hv], fun i => ⟨?_, fun k h => h⟩⟩
        rintro ⟨⟨d'', h⟩, -⟩
        rw [hv] at h
        simp only [Except.ok.injEq, Prod.mk.injEq] at h
        rcases hr with hr | ⟨e, hr⟩ <;> simp [hr] at h
  | reset index =>
    exact .inr (.inr ⟨index, rfl, fun i => ⟨Iff.rfl, fun k h => h⟩⟩)


theorem pieces_apply (hix : d.Indexed) (c : Call σ) : (c.apply fs d).pieces = d.pieces := by
  rcases apply_cases hix c with ⟨h, -⟩ | ⟨p, k, -, -, h, -⟩ | ⟨index, h, -⟩ <;> rw [h] <;> rfl

/-- The record of each piece is well formed, and each piece sits at its own index. -/
structure Sound (d : Disk) : Prop where
  wf : d.WrittenWF
  indexed : d.Indexed

theorem Sound.apply (hs : d.Sound) (c : Call σ) : (c.apply fs d).Sound := by
  refine ⟨?_, fun k p hp => hs.indexed k p (by rwa [pieces_apply hs.indexed] at hp)⟩
  rcases apply_cases hs.indexed c with ⟨h, -⟩ | ⟨p, k, hp, -, h, -⟩ | ⟨index, h, -⟩ <;> rw [h]
  · exact hs.wf
  · exact hs.wf.markWritten hp k
  · exact hs.wf.resetPiece index

/-- One call: a block is listed after it when it was listed before and the call does not forget
its piece, or when the call records it. -/
theorem mem_blocksOf_apply (hs : d.Sound) (c : Call σ) (i k : UInt32) :
    k ∈ (c.apply fs d).blocksOf i ↔ (k ∈ d.blocksOf i ∧ ¬ c.Clears fs d i) ∨ c.Marks fs d i k := by
  rcases apply_cases hs.indexed c with ⟨h, hi⟩ | ⟨p, b, hp, hb, h, hi⟩ | ⟨index, h, hi⟩
  · rw [h]
    simp [(hi i).1, (hi i).2 k]
  · rw [h, mem_blocksOf, mem_blocksOf, written_markWritten hs.wf hp hb, (hi i).2 k, UInt32.toNat_inj]
    simp [(hi i).1]
  · rw [h, mem_blocksOf, mem_blocksOf, written_resetPiece, (hi i).1]
    simp [(hi i).2 k, ne_comm]

theorem Sound.runCalls (hs : d.Sound) (cs : List (Call σ)) : (runCalls fs d cs).Sound := by
  induction cs generalizing d with
  | nil => exact hs
  | cons c cs ih => exact ih (hs.apply c)

theorem Sound.of_mem_steps (hs : d.Sound) {cs : List (Call σ)} {s : Disk × Call σ}
    (h : s ∈ steps fs d cs) : s.1.Sound := by
  induction cs generalizing d with
  | nil => cases h
  | cons c cs ih =>
    rcases List.mem_cons.1 h with rfl | h
    · exact hs
    · exact ih (hs.apply c) h

theorem getElem?_append_singleton_eq_some {α : Type} {l : List α} {a b : α} {n : Nat} :
    (l ++ [a])[n]? = some b ↔ l[n]? = some b ∨ (n = l.length ∧ a = b) := by
  rcases Nat.lt_trichotomy n l.length with hn | rfl | hn
  · rw [List.getElem?_append_left hn]
    exact ⟨.inl, fun h => h.resolve_right fun h' => absurd h'.1 (Nat.ne_of_lt hn)⟩
  · simp
  · have h1 : (l ++ [a])[n]? = none := List.getElem?_eq_none (by simp; omega)
    have h2 : l[n]? = none := List.getElem?_eq_none (by omega)
    simp [h1, h2, Nat.ne_of_gt hn]

/-- **The written blocks of a piece over a run.** A block is listed after the calls `cs` when
some call records it and no later call forgets its piece, or when it was listed before and no
call forgets its piece. -/
theorem mem_blocksOf_runCalls (hs : d.Sound) (cs : List (Call σ)) (i k : UInt32) :
    k ∈ (runCalls fs d cs).blocksOf i ↔
      (k ∈ d.blocksOf i ∧ ∀ s ∈ steps fs d cs, ¬ s.2.Clears fs s.1 i) ∨
      ∃ n s, (steps fs d cs)[n]? = some s ∧ s.2.Marks fs s.1 i k ∧
        ∀ s' ∈ (steps fs d cs).drop (n + 1), ¬ s'.2.Clears fs s'.1 i := by
  induction cs using List.reverseRecOn with
  | nil => simp [runCalls, steps]
  | append_singleton cs c ih =>
    rw [runCalls_append_singleton, mem_blocksOf_apply (hs.runCalls cs), ih,
      steps_append_singleton]
    -- the calls after the `n`th one are those of `cs`, then `c`
    have hdrop : ∀ {n}, n < (steps fs d cs).length →
        (steps fs d cs ++ [(runCalls fs d cs, c)]).drop (n + 1) =
          (steps fs d cs).drop (n + 1) ++ [(runCalls fs d cs, c)] :=
      fun hn => List.drop_append_of_le_length hn
    constructor
    · rintro (⟨⟨hk, hall⟩ | ⟨n, s, hn, hm, hafter⟩, hc⟩ | hm)
      · exact .inl ⟨hk, fun s h => (List.mem_append.1 h).elim (hall s)
          fun h' => (List.mem_singleton.1 h') ▸ hc⟩
      · have hlt := (List.getElem?_eq_some_iff.1 hn).1
        refine .inr ⟨n, s, getElem?_append_singleton_eq_some.2 (.inl hn), hm, ?_⟩
        rw [hdrop hlt]
        exact fun s' h => (List.mem_append.1 h).elim (hafter s')
          fun h' => (List.mem_singleton.1 h') ▸ hc
      · refine .inr ⟨_, _, List.getElem?_concat_length, hm, ?_⟩
        simp
    · rintro (⟨hk, hall⟩ | ⟨n, s, hn, hm, hafter⟩)
      · simp only [List.mem_append, List.mem_singleton] at hall
        exact .inl ⟨.inl ⟨hk, fun s h => hall s (.inl h)⟩, hall _ (.inr rfl)⟩
      · rcases getElem?_append_singleton_eq_some.1 hn with hn | ⟨-, rfl⟩
        · rw [hdrop (List.getElem?_eq_some_iff.1 hn).1] at hafter
          simp only [List.mem_append, List.mem_singleton] at hafter
          exact .inl ⟨.inr ⟨n, s, hn, hm, fun s' h => hafter s' (.inl h)⟩, hafter _ (.inr rfl)⟩
        · exact .inr hm


theorem exists_of_mem_steps {cs : List (Call σ)} {s : Disk × Call σ} (h : s ∈ steps fs d cs) :
    ∃ pre post, cs = pre ++ s.2 :: post ∧ s.1 = runCalls fs d pre := by
  induction cs generalizing d with
  | nil => cases h
  | cons c cs ih =>
    rcases List.mem_cons.1 h with rfl | h
    · exact ⟨[], cs, rfl, rfl⟩
    · obtain ⟨pre, post, hcs, hd⟩ := ih h
      exact ⟨c :: pre, post, by rw [hcs]; rfl, hd⟩

/-- A block listed after a run was listed before it or is the target of one of its calls. -/
theorem mem_blocksOf_runCalls_target (hs : d.Sound) {cs : List (Call σ)} {i k : UInt32}
    (h : k ∈ (runCalls fs d cs).blocksOf i) :
    k ∈ d.blocksOf i ∨ some (i, k) ∈ cs.map Call.target := by
  rcases (mem_blocksOf_runCalls hs cs i k).1 h with ⟨hk, -⟩ | ⟨n, s, hn, hm, -⟩
  · exact .inl hk
  · refine .inr (List.mem_map.2 ⟨s.2, ?_, Call.target_of_marks hm⟩)
    rw [← map_snd_steps d cs]
    exact List.mem_map_of_mem (List.mem_of_getElem? hn)

theorem exists_piece_of_mem (hs : d.Sound) {i k : UInt32} (h : k ∈ d.blocksOf i) :
    ∃ p, d.pieces[i.toNat]? = some p ∧ p.index = i ∧ k < p.numBlocks := by
  obtain ⟨bf, hbf, hk, -⟩ := mem_blocksOf.1 h
  obtain ⟨-, p, hp, hlen⟩ := hs.wf i bf hbf
  refine ⟨p, hp, hs.indexed.index_eq hp, ?_⟩
  rw [UInt32.lt_iff_toNat_lt, ← hlen]
  exact hk

/-- **A write reports its piece complete exactly when** the piece was not complete before it
and is complete after it. -/
theorem completes_write_iff (hs : d.Sound) (st : σ) (index begin : UInt32) (data : List UInt8) :
    (Call.write st index begin data).completes fs d = true ↔
      ∃ p, d.pieces[index.toNat]? = some p ∧ ¬ d.Complete p ∧
        ((Call.write st index begin data).apply fs d).Complete p := by
  simp only [Call.completes, Call.apply]
  generalize hw : d.writeBlock fs st index begin data = res
  obtain ⟨r, d', st'⟩ := res
  cases r with
  | error e =>
    rw [writeBlock_eq_error hw]
    simp
  | ok cpl =>
    obtain ⟨p, blk, hp, -, hmark⟩ := writeBlock_eq_ok hw
    have hp' : d.pieces[p.index.toNat]? = some p := hs.indexed.index_eq hp ▸ hp
    have hd' : d' = (d.markWritten p blk.index).2 := by rw [hmark]
    have hc : cpl = (d.markWritten p blk.index).1 := by rw [hmark]
    have hwf' : d'.WrittenWF := hd' ▸ hs.wf.markWritten hp' blk.index
    have hpd' : d'.pieces[p.index.toNat]? = some p := by rw [hd']; exact hp'
    -- before and after, completeness is the record having every bit set
    have hafter : d'.Complete p ↔
        (((d.writtenOf p.index).getD (Bitfield.new p.numBlocks)).insert blk.index).all = true := by
      rw [complete_iff_all hwf' hpd', hd', writtenOf_markWritten, if_pos rfl, Option.getD_some]
    simp only
    rw [hc, markWritten]
    constructor
    · intro h
      simp only [Bool.and_eq_true, Bool.not_eq_true'] at h
      refine ⟨p, hp, ?_, hafter.2 h.2⟩
      rw [complete_iff_all hs.wf hp', h.1]
      exact Bool.false_ne_true
    · rintro ⟨q, hq, hnc, hcomp⟩
      rw [hp] at hq
      cases hq
      rw [complete_iff_all hs.wf hp', Bool.not_eq_true] at hnc
      simp [hnc, hafter.1 hcomp]

theorem completes_iff (hs : d.Sound) {c : Call σ} (hw : c.isWrite = true) {i b : UInt32}
    (ht : c.target = some (i, b)) :
    c.completes fs d = true ↔
      ∃ p, d.pieces[i.toNat]? = some p ∧ ¬ d.Complete p ∧ (c.apply fs d).Complete p := by
  cases c with
  | write st index begin data =>
    simp only [Call.target, Option.some.injEq, Prod.mk.injEq] at ht
    rw [← ht.1]
    exact completes_write_iff hs st index begin data
  | restore index begin => cases hw
  | verify st index => cases hw
  | reset index => cases hw

-- A block written twice: the piece is reported complete by the first write only.
example : (Disk.create MemStore.fileStore Torrent.Pipeline.onePiece.info 0 {}).1.toOption.map
    (fun d =>
      let cs : List (Call MemStore) := [.write {} 0 0 [1, 2, 3, 4], .write {} 0 0 [5, 6, 7, 8]]
      ((runCalls MemStore.fileStore d cs).blocksOf 0,
        (steps MemStore.fileStore d cs).map fun s => s.2.completes MemStore.fileStore s.1)) =
    some ([0], [true, false]) := by
  decide


theorem pieces_runCalls (hs : d.Sound) (cs : List (Call σ)) :
    (runCalls fs d cs).pieces = d.pieces := by
  induction cs generalizing d with
  | nil => rfl
  | cons c cs ih => rw [runCalls_cons, ih (hs.apply c), pieces_apply hs.indexed]

theorem apply_write_of_error {st : σ} {index begin : UInt32} {data : List UInt8} {e : Failure}
    (h : (d.writeBlock fs st index begin data).1 = .error e) :
    (Call.write st index begin data).apply fs d = d := by
  simp only [Call.apply]
  generalize hw : d.writeBlock fs st index begin data = res at h ⊢
  obtain ⟨r, d', st'⟩ := res
  subst h
  exact writeBlock_eq_error hw

section Writes

variable {i : UInt32} {ws : List (Call σ)}

/-- In a run of writes that each record a block of piece `i`, the target of every write is
listed at the end. -/
theorem mem_blocksOf_of_writes (hs : d.Sound)
    (hw : ∀ s ∈ steps fs d ws, s.2.isWrite = true ∧ ∃ k, s.2.Marks fs s.1 i k) {m : UInt32}
    (h : some (i, m) ∈ ws.map Call.target) : m ∈ (runCalls fs d ws).blocksOf i := by
  obtain ⟨c, hc, hcm⟩ := List.mem_map.1 h
  have hmap : (steps fs d ws).map Prod.snd = ws := map_snd_steps d ws
  rw [← hmap] at hc
  obtain ⟨s, hs', rfl⟩ := List.mem_map.1 hc
  obtain ⟨n, hn⟩ := List.mem_iff_getElem?.1 hs'
  obtain ⟨-, k, hk⟩ := hw s hs'
  have hkm : k = m := by
    rw [Call.target_of_marks hk, Option.some.injEq, Prod.mk.injEq] at hcm
    exact hcm.2
  subst hkm
  refine (mem_blocksOf_runCalls hs ws i k).2 (.inr ⟨n, s, hn, hk, fun s' hs'' => ?_⟩)
  exact Call.not_clears_of_isWrite (hw s' (List.mem_of_mem_drop hs'')).1 i

/-- **Writes of distinct blocks covering a piece, from an empty record, report it complete
exactly once**, whatever their order. -/
theorem countP_completes_eq_one (hs : d.Sound) (hempty : d.blocksOf i = []) (hne : ws ≠ [])
    (hw : ∀ s ∈ steps fs d ws, s.2.isWrite = true ∧ ∃ k, s.2.Marks fs s.1 i k)
    (hnd : (ws.map Call.target).Nodup)
    (hcov : ∀ p, d.pieces[i.toNat]? = some p → ∀ m < p.numBlocks,
      some (i, m) ∈ ws.map Call.target) :
    (steps fs d ws).countP (fun s => s.2.completes fs s.1) = 1 := by
  obtain ⟨ws₀, w, rfl⟩ := (List.eq_nil_or_concat' ws).resolve_left hne
  have hsteps : steps fs d (ws₀ ++ [w]) = steps fs d ws₀ ++ [(runCalls fs d ws₀, w)] :=
    steps_append_singleton d ws₀ w
  -- the last write, and the block `b` it records
  obtain ⟨hwr, b, hb⟩ := hw _ (by rw [hsteps]; exact List.mem_append_right _ (List.mem_singleton_self _))
  have ht := Call.target_of_marks hb
  have hD : (runCalls fs d ws₀).Sound := hs.runCalls ws₀
  -- no earlier call targets `b`, so it is not listed before the last write
  have hnotin : some (i, b) ∉ ws₀.map Call.target := by
    rw [List.map_append, List.map_singleton, ht] at hnd
    exact fun h => (List.nodup_append.1 hnd).2.2 _ h _ (List.mem_singleton_self _) rfl
  have hbD : b ∉ (runCalls fs d ws₀).blocksOf i := fun h =>
    (mem_blocksOf_runCalls_target hs h).elim (by simp [hempty]) hnotin
  obtain ⟨p, hp, hpi, hbp⟩ :=
    exists_piece_of_mem (hD.apply w) ((mem_blocksOf_apply hD w i b).2 (.inr hb))
  rw [pieces_apply hD.indexed, pieces_runCalls hs] at hp
  -- so the last write finds the piece incomplete and leaves it complete
  have hlast : w.completes fs (runCalls fs d ws₀) = true := by
    refine (completes_iff hD hwr ht).2 ⟨p, by rw [pieces_runCalls hs]; exact hp, ?_, ?_⟩
    · exact fun h => hbD (hpi ▸ h b hbp)
    · intro m hm
      rw [← runCalls_append_singleton, hpi]
      exact mem_blocksOf_of_writes hs hw (hcov p hp m hm)
  -- and no earlier write does: completing the piece would list `b`
  have hearlier : (steps fs d ws₀).countP (fun s => s.2.completes fs s.1) = 0 := by
    refine List.countP_eq_zero.2 fun s hs' hcomp => ?_
    obtain ⟨hwr', k, hk⟩ := hw s (by rw [hsteps]; exact List.mem_append_left _ hs')
    obtain ⟨pre, post, hws₀, hs1⟩ := exists_of_mem_steps hs'
    obtain ⟨q, hq, -, hcq⟩ :=
      (completes_iff (hs.of_mem_steps hs') hwr' (Call.target_of_marks hk)).1 hcomp
    rw [hs1, pieces_runCalls hs, hp, Option.some.injEq] at hq
    subst hq
    have hbs := hcq b hbp
    rw [hs1, ← runCalls_append_singleton, hpi] at hbs
    rcases mem_blocksOf_runCalls_target hs hbs with h | h
    · simp [hempty] at h
    · apply hnotin
      rw [hws₀]
      simp only [List.map_append, List.map_cons, List.map_nil, List.mem_append,
        List.mem_cons] at h ⊢
      rcases h with h | h | h
      · exact .inl h
      · exact .inr (.inl h)
      · cases h
  rw [hsteps, List.countP_append, hearlier, List.countP_singleton]
  simp [hlast]

end Writes

/-- **The written blocks of a piece.** Over every run of calls on a disk as it is created: the
written blocks of piece `i` are listed in ascending order, once each, and they are the blocks
that some call recorded with no later call forgetting the piece; a write that fails leaves the
disk as it was; a write reports its piece complete exactly when the piece was not complete
before it and is complete after it; and once the piece has no written block, writes of
distinct blocks covering it report it complete exactly once, in whatever order they come. -/
theorem written_blocks_track_calls {info : Info} {c : Int} {st₀ st₁ : σ}
    (hcreate : Disk.create fs info c st₀ = (.ok d, st₁)) (cs : List (Call σ)) (i : UInt32) :
    ((runCalls fs d cs).blocksOf i).Pairwise (· < ·) ∧
      (∀ k, k ∈ (runCalls fs d cs).blocksOf i ↔
        ∃ n s, (steps fs d cs)[n]? = some s ∧ s.2.Marks fs s.1 i k ∧
          ∀ s' ∈ (steps fs d cs).drop (n + 1), ¬ s'.2.Clears fs s'.1 i) ∧
      (∀ s ∈ steps fs d cs, ∀ st index begin data, s.2 = .write st index begin data →
        (∀ e, (s.1.writeBlock fs st index begin data).1 = .error e → s.2.apply fs s.1 = s.1) ∧
        (s.2.completes fs s.1 = true ↔ ∃ p, s.1.pieces[index.toNat]? = some p ∧
          ¬ s.1.Complete p ∧ (s.2.apply fs s.1).Complete p)) ∧
      ((runCalls fs d cs).blocksOf i = [] → ∀ ws : List (Call σ), ws ≠ [] →
        (∀ s ∈ steps fs (runCalls fs d cs) ws, s.2.isWrite = true ∧ ∃ k, s.2.Marks fs s.1 i k) →
        (ws.map Call.target).Nodup →
        (∀ p, (runCalls fs d cs).pieces[i.toNat]? = some p → ∀ m < p.numBlocks,
          some (i, m) ∈ ws.map Call.target) →
        (steps fs (runCalls fs d cs) ws).countP (fun s => s.2.completes fs s.1) = 1) := by
  obtain ⟨hpieces, hwritten⟩ := create_eq_ok hcreate
  have hs : d.Sound := ⟨writtenWF_of_nil hwritten, indexed_of_layout hpieces⟩
  have hempty : d.blocksOf i = [] := by simp [blocksOf_eq, writtenOf, hwritten]
  refine ⟨pairwise_blocksOf _ i, fun k => ?_, fun s hs' st index begin data hc => ?_,
    fun he ws hne hw hnd hcov => countP_completes_eq_one (hs.runCalls cs) he hne hw hnd hcov⟩
  · rw [mem_blocksOf_runCalls hs cs i k, hempty]
    simp
  · rw [hc]
    exact ⟨fun e he => apply_write_of_error he, completes_write_iff (hs.of_mem_steps hs') _ _ _ _⟩

/-- The disk of a torrent of one piece of four bytes, over an empty store, and a write of the
whole piece. -/
theorem whole_piece_write_tracked :
    ∃ (d : Disk) (st₁ : MemStore),
      Disk.create MemStore.fileStore Torrent.Pipeline.onePiece.info 0 {} = (.ok d, st₁) ∧
      let fs := MemStore.fileStore
      let cs : List (Call MemStore) := [.write {} 0 0 [1, 2, 3, 4]]
      ((runCalls fs d cs).blocksOf 0).Pairwise (· < ·) ∧
      (∀ k, k ∈ (runCalls fs d cs).blocksOf 0 ↔
        ∃ n s, (steps fs d cs)[n]? = some s ∧ s.2.Marks fs s.1 0 k ∧
          ∀ s' ∈ (steps fs d cs).drop (n + 1), ¬ s'.2.Clears fs s'.1 0) ∧
      (∀ s ∈ steps fs d cs, ∀ st index begin data, s.2 = .write st index begin data →
        (∀ e, (s.1.writeBlock fs st index begin data).1 = .error e → s.2.apply fs s.1 = s.1) ∧
        (s.2.completes fs s.1 = true ↔ ∃ p, s.1.pieces[index.toNat]? = some p ∧
          ¬ s.1.Complete p ∧ (s.2.apply fs s.1).Complete p)) ∧
      ((runCalls fs d cs).blocksOf 0 = [] → ∀ ws : List (Call MemStore), ws ≠ [] →
        (∀ s ∈ steps fs (runCalls fs d cs) ws, s.2.isWrite = true ∧ ∃ k, s.2.Marks fs s.1 0 k) →
        (ws.map Call.target).Nodup →
        (∀ p, (runCalls fs d cs).pieces[(0 : UInt32).toNat]? = some p → ∀ m < p.numBlocks,
          some (0, m) ∈ ws.map Call.target) →
        (steps fs (runCalls fs d cs) ws).countP (fun s => s.2.completes fs s.1) = 1) :=
by
  obtain ⟨d, st₁, h⟩ : ∃ (d : Disk) (st₁ : MemStore),
      Disk.create MemStore.fileStore Torrent.Pipeline.onePiece.info 0 {} = (.ok d, st₁) :=
    ⟨_, _, rfl⟩
  exact ⟨d, st₁, h, written_blocks_track_calls h _ _⟩

end Disk

end BitTorrent
