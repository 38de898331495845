import BitTorrent.Disk.Basic
import BitTorrent.Proofs.Picker.Invariant

/-!
# The blocks a disk has written

A disk keeps, for each piece not yet verified, a bitfield of the blocks written to it.
`Disk.Written d i k` says that block `k` of piece `i` is recorded as written. This module says
what each operation does to that record:

* a write of the block at `begin` of piece `index` records block `begin / blockSize` of it and
  nothing else, and reports the piece complete only when every block of it is recorded
  (`written_writeBlock`); a write that fails changes nothing (`writeBlock_eq_error`);
* a check of a piece that matches its digest forgets the piece, and any other check changes
  nothing (`verifyPiece_cases`); a reset forgets the piece (`written_resetPiece`);
* a block restored from saved state is recorded as a write records it (`restoreBlock_cases`).

Each recorded bitfield has the length of its piece's block count and its spare bits clear
(`Disk.WrittenWF`), which is what lets "complete" be read bit by bit; and each piece of the disk
sits at its own index (`Disk.Indexed`). Last, a scan that is not canceled gives a bitfield with
one bit per piece, or a failure of the files (`scan_ok_or_disk`).
-/

namespace BitTorrent

namespace Block

theorem find?_eq_some {len begin length : UInt32} {b : Block} (h : find? len begin length = some b) :
    begin % blockSize = 0 ∧ b.index = begin / blockSize ∧ begin / blockSize < count len := by
  unfold find? at h
  split at h
  · cases h
  · rename_i hmod
    simp only [bne_iff_ne, ne_eq, Decidable.not_not] at hmod
    cases hg : get? len (begin / blockSize) with
    | none => simp [hg] at h
    | some b' =>
      simp only [hg] at h
      split at h
      · cases h
        unfold get? at hg
        split at hg
        · rename_i hlt
          cases hg
          exact ⟨hmod, rfl, hlt⟩
        · cases hg
      · cases h

end Block

namespace Disk

theorem find?_putWritten (i j : UInt32) (bf : Bitfield) (ws : List (UInt32 × Bitfield)) :
    (putWritten i bf ws).find? (·.1 == j) = if j = i then some (i, bf) else ws.find? (·.1 == j) := by
  induction ws with
  | nil =>
    by_cases h : j = i
    · subst h; simp [putWritten]
    · simp [putWritten, h, Ne.symm h]
  | cons e ws ih =>
    obtain ⟨k, b⟩ := e
    rw [putWritten]
    by_cases hk : k = i
    · subst hk
      by_cases h : j = k
      · subst h; simp
      · simp [h, Ne.symm h]
    · simp only [beq_iff_eq, hk, ↓reduceIte]
      by_cases hlt : i < k
      · by_cases h : j = i
        · subst h; simp [hlt]
        · simp [hlt, h, Ne.symm h]
      · simp only [hlt, ↓reduceIte, List.find?_cons, ih]
        by_cases h : j = i
        · subst h
          have : (k == j) = false := by simpa using hk
          simp [this]
        · simp [h]

/-- Block `k` of piece `i` is recorded as written. -/
def Written (d : Disk) (i : UInt32) (k : Nat) : Prop :=
  ∃ bf, d.writtenOf i = some bf ∧ k < bf.length.toNat ∧ bf.getD k.toUInt32 = true

/-- The record of each piece is a bitfield of the piece's block count with its spare bits
clear. -/
def WrittenWF (d : Disk) : Prop :=
  ∀ i bf, d.writtenOf i = some bf →
    bf.SpareClear ∧ ∃ p, d.pieces[i.toNat]? = some p ∧ bf.length = p.numBlocks

/-- Each piece sits at its own index. -/
def Indexed (d : Disk) : Prop :=
  ∀ (k : Nat) (p : PieceLayout), d.pieces[k]? = some p → p.index.toNat = k

theorem writtenOf_putWritten (d : Disk) (i j : UInt32) (bf : Bitfield) :
    ({ d with written := putWritten i bf d.written } : Disk).writtenOf j =
      if j = i then some bf else d.writtenOf j := by
  simp only [writtenOf, find?_putWritten]
  split <;> rfl

theorem writtenOf_resetPiece (d : Disk) (i j : UInt32) :
    (d.resetPiece i).writtenOf j = if j = i then none else d.writtenOf j := by
  simp only [writtenOf, resetPiece, List.find?_filter]
  by_cases h : j = i
  · subst h
    simp
  · rw [if_neg h]
    congr 2
    funext x
    by_cases hx : x.1 = j <;> simp [hx, h]

theorem writtenOf_markWritten (d : Disk) (p : PieceLayout) (k j : UInt32) :
    (d.markWritten p k).2.writtenOf j =
      if j = p.index then some (((d.writtenOf p.index).getD (Bitfield.new p.numBlocks)).insert k)
      else d.writtenOf j :=
  writtenOf_putWritten d _ _ _

theorem numBlocks_small (p : PieceLayout) : p.numBlocks.toNat + 7 < 2 ^ 32 := by
  have := Block.count_toNat_le p.length
  simp only [PieceLayout.numBlocks]
  omega

theorem getD_new (n i : UInt32) : (Bitfield.new n).getD i = false := by
  by_cases hi : i < (Bitfield.new n).length
  · rw [Bitfield.getD_eq_bitOf hi]
    simp only [Bitfield.new, Bitfield.bitOf, Array.toList_replicate, List.getElem?_replicate]
    by_cases h : i.toNat / 8 < Bitfield.byteCount n <;> simp [h]
  · simp [Bitfield.getD, Bitfield.get?, hi]

variable {d : Disk}

/-- The record of a piece before a write: its bitfield, or a clear one of its block count. -/
theorem length_record (hwf : d.WrittenWF) {p : PieceLayout}
    (hp : d.pieces[p.index.toNat]? = some p) :
    ((d.writtenOf p.index).getD (Bitfield.new p.numBlocks)).length = p.numBlocks ∧
      ((d.writtenOf p.index).getD (Bitfield.new p.numBlocks)).SpareClear := by
  cases hw : d.writtenOf p.index with
  | none => exact ⟨rfl, Bitfield.spareClear_new _⟩
  | some bf =>
    obtain ⟨hsc, q, hq, hl⟩ := hwf _ _ hw
    rw [hp] at hq
    cases hq
    exact ⟨hl, hsc⟩

/-- A piece's written blocks, read off its record. -/
theorem written_iff_record (hwf : d.WrittenWF) {p : PieceLayout}
    (hp : d.pieces[p.index.toNat]? = some p) (m : Nat) :
    d.Written p.index m ↔ m < p.numBlocks.toNat ∧
      ((d.writtenOf p.index).getD (Bitfield.new p.numBlocks)).getD m.toUInt32 = true := by
  simp only [Written]
  cases hw : d.writtenOf p.index with
  | none => simp [getD_new]
  | some bf =>
    obtain ⟨-, q, hq, hl⟩ := hwf _ _ hw
    rw [hp] at hq
    cases hq
    simp [hl]

/-- Marking block `k` of a piece records that block and nothing else. -/
theorem written_markWritten (hwf : d.WrittenWF) {p : PieceLayout}
    (hp : d.pieces[p.index.toNat]? = some p) {k : UInt32} (hk : k < p.numBlocks) (j : UInt32)
    (m : Nat) :
    (d.markWritten p k).2.Written j m ↔ d.Written j m ∨ (j = p.index ∧ m = k.toNat) := by
  by_cases hj : j = p.index
  · subst hj
    obtain ⟨hlen, -⟩ := length_record hwf hp
    have hsmall := numBlocks_small p
    have hk' := UInt32.lt_iff_toNat_lt.1 hk
    rw [written_iff_record hwf hp]
    simp only [Written, writtenOf_markWritten, ↓reduceIte, Option.some.injEq, exists_eq_left',
      Bitfield.length_insert]
    generalize (d.writtenOf p.index).getD (Bitfield.new p.numBlocks) = old at hlen ⊢
    rw [hlen]
    by_cases hmk : m = k.toNat
    · -- the block just marked
      subst hmk
      have hset : (old.insert k).getD k.toNat.toUInt32 = true := by
        rw [Nat.toUInt32_eq, UInt32.ofNat_toNat]
        exact Bitfield.getD_insert_self (hlen ▸ hk) (hlen ▸ hsmall)
      exact iff_of_true ⟨hk', hset⟩ (.inr ⟨trivial, rfl⟩)
    · -- another block keeps its record
      by_cases hm : m < p.numBlocks.toNat
      · have hne : m.toUInt32 ≠ k := by
          intro h
          apply hmk
          rw [← h, Nat.toUInt32_eq, UInt32.toNat_ofNat', Nat.mod_eq_of_lt (by omega)]
        rw [Bitfield.getD_insert_of_ne hne]
        simp [hmk]
      · simp [hm, hmk]
  · simp [Written, writtenOf_markWritten, hj]

/-- Forgetting a piece forgets its blocks only. -/
theorem written_resetPiece (i j : UInt32) (m : Nat) :
    (d.resetPiece i).Written j m ↔ d.Written j m ∧ j ≠ i := by
  simp only [Written, writtenOf_resetPiece]
  by_cases hj : j = i <;> simp [hj]

theorem WrittenWF.resetPiece (hwf : d.WrittenWF) (i : UInt32) : (d.resetPiece i).WrittenWF := by
  intro j bf hj
  rw [writtenOf_resetPiece] at hj
  split at hj
  · cases hj
  · exact hwf j bf hj

theorem WrittenWF.markWritten (hwf : d.WrittenWF) {p : PieceLayout}
    (hp : d.pieces[p.index.toNat]? = some p) (k : UInt32) : (d.markWritten p k).2.WrittenWF := by
  intro j bf hj
  rw [writtenOf_markWritten] at hj
  split at hj
  · rename_i hjp
    subst hjp
    cases hj
    obtain ⟨hlen, hsc⟩ := length_record hwf hp
    exact ⟨hsc.insert k, p, hp, by rw [Bitfield.length_insert, hlen]⟩
  · exact hwf j bf hj

/-- When marking a block completes a piece, every block of it is recorded. -/
theorem written_of_markWritten_complete (hwf : d.WrittenWF) {p : PieceLayout}
    (hp : d.pieces[p.index.toNat]? = some p) {k : UInt32} (hc : (d.markWritten p k).1 = true)
    {m : Nat} (hm : m < p.numBlocks.toNat) : (d.markWritten p k).2.Written p.index m := by
  obtain ⟨hlen, hsc⟩ := length_record hwf hp
  have hsmall := numBlocks_small p
  simp only [markWritten, Bool.and_eq_true, Bool.not_eq_true'] at hc
  refine ⟨_, by rw [writtenOf_markWritten, if_pos rfl], ?_, ?_⟩
  · rw [Bitfield.length_insert, hlen]; exact hm
  · refine Bitfield.getD_of_all (hsc.insert k) ?_ hc.2 ?_
    · rw [Bitfield.length_insert, hlen]; exact hsmall
    · rw [Bitfield.length_insert, hlen, UInt32.lt_iff_toNat_lt]
      simp only [Nat.toUInt32_eq, UInt32.toNat_ofNat']
      omega

/-! ## Writing, checking and restoring -/

@[simp] theorem pieces_markWritten (d : Disk) (p : PieceLayout) (k : UInt32) :
    (d.markWritten p k).2.pieces = d.pieces := rfl

@[simp] theorem pieces_resetPiece (d : Disk) (i : UInt32) : (d.resetPiece i).pieces = d.pieces :=
  rfl

variable {σ : Type} {fs : FileStore σ} {st st' : σ}

/-- A write that succeeds marks the block it found at `begin` in the piece at `index`. -/
theorem writeBlock_eq_ok {index begin : UInt32} {data : List UInt8} {c : Bool} {d' : Disk}
    (h : d.writeBlock fs st index begin data = (.ok c, d', st')) :
    ∃ p blk, d.pieces[index.toNat]? = some p ∧
      Block.find? p.length begin data.length.toUInt32 = some blk ∧
      d.markWritten p blk.index = (c, d') := by
  unfold writeBlock at h
  split at h
  · cases h
  · rename_i p hp
    split at h
    · cases h
    · rename_i blk hblk
      split at h
      · cases h
      · -- the write itself: a failure of the file, or the block marked
        dsimp only at h
        split at h
        · cases h
        · simp only [Prod.mk.injEq, Except.ok.injEq] at h
          exact ⟨p, blk, hp, hblk, Prod.ext h.1 h.2.1⟩

theorem Indexed.index_eq (hix : d.Indexed) {i : UInt32} {p : PieceLayout}
    (hp : d.pieces[i.toNat]? = some p) : p.index = i :=
  UInt32.toNat_inj.1 (hix _ _ hp)

/-- What a successful write does to the record: the block at `begin` of piece `index` is
recorded, nothing else changes, and a piece reported complete has every block recorded. -/
theorem written_writeBlock (hwf : d.WrittenWF) (hix : d.Indexed) {index begin : UInt32}
    {data : List UInt8} {c : Bool} {d' : Disk}
    (h : d.writeBlock fs st index begin data = (.ok c, d', st')) :
    ∃ p, d.pieces[index.toNat]? = some p ∧ begin % blockSize = 0 ∧
      d'.pieces = d.pieces ∧ d'.WrittenWF ∧
      (∀ j m, d'.Written j m ↔ d.Written j m ∨ (j = index ∧ m = (begin / blockSize).toNat)) ∧
      (c = true → ∀ m < p.numBlocks.toNat, d'.Written index m) := by
  obtain ⟨p, blk, hp, hblk, hmark⟩ := writeBlock_eq_ok h
  obtain ⟨hmod, hidx, hlt⟩ := Block.find?_eq_some hblk
  have hpi := hix.index_eq hp
  have hp' : d.pieces[p.index.toNat]? = some p := hpi ▸ hp
  have hd' : d' = (d.markWritten p blk.index).2 := by rw [hmark]
  have hc : c = (d.markWritten p blk.index).1 := by rw [hmark]
  refine ⟨p, hp, hmod, by rw [hd']; rfl, by rw [hd']; exact hwf.markWritten hp' _,
    fun j m => ?_, fun hcomp m hm => ?_⟩
  · rw [hd', written_markWritten hwf hp' (hidx ▸ hlt), hpi, hidx]
  · rw [hd', ← hpi]
    exact written_of_markWritten_complete hwf hp' (hc ▸ hcomp) hm

/-- A write that fails leaves the record as it was. -/
theorem writeBlock_eq_error {index begin : UInt32} {data : List UInt8} {e : Failure} {d' : Disk}
    (h : d.writeBlock fs st index begin data = (.error e, d', st')) : d' = d := by
  unfold writeBlock at h
  split at h
  · cases h; rfl
  · split at h
    · cases h; rfl
    · split at h
      · cases h; rfl
      · dsimp only at h
        split at h
        · cases h; rfl
        · cases h

/-- A check that matches forgets the piece; any other verdict, or a failed read, changes
nothing. -/
theorem verifyPiece_cases {index : UInt32} {r : Except Error Bool} {d' : Disk}
    (h : d.verifyPiece fs st index = .ok (r, d')) :
    (r = .ok true ∧ d' = d.resetPiece index) ∨ ((r = .ok false ∨ ∃ e, r = .error e) ∧ d' = d) := by
  unfold verifyPiece at h
  rw [Except.bind_eq_ok] at h
  obtain ⟨p, -, h⟩ := h
  split at h
  · simp only [Except.pure_eq_ok, Prod.mk.injEq] at h
    exact .inr ⟨.inr ⟨_, h.1.symm⟩, h.2.symm⟩
  · split at h
    · simp only [Except.pure_eq_ok, Prod.mk.injEq] at h
      exact .inl ⟨h.1.symm, h.2.symm⟩
    · simp only [Except.pure_eq_ok, Prod.mk.injEq] at h
      exact .inr ⟨.inl h.1.symm, h.2.symm⟩

/-- Checking a piece of the disk never faults. -/
theorem verifyPiece_ok {index : UInt32} (hi : index.toNat < d.pieces.size) :
    ∃ r d', d.verifyPiece fs st index = .ok (r, d') := by
  unfold verifyPiece
  simp only [Fault.get, hi, ↓reduceDIte, bind, Except.bind]
  split
  · exact ⟨_, _, rfl⟩
  · split <;> exact ⟨_, _, rfl⟩

/-- A block restored from saved state is marked as a write marks it, when a block of the piece
starts at `begin`. -/
theorem restoreBlock_cases {index begin : UInt32} {ok : Bool} {d' : Disk}
    (h : d.restoreBlock index begin = (ok, d')) :
    (ok = false ∧ d' = d) ∨
      (ok = true ∧ ∃ p, d.pieces[index.toNat]? = some p ∧ begin % blockSize = 0 ∧
        begin / blockSize < p.numBlocks ∧ d' = (d.markWritten p (begin / blockSize)).2) := by
  unfold restoreBlock at h
  split at h
  · simp only [Prod.mk.injEq] at h
    exact .inl ⟨h.1.symm, h.2.symm⟩
  · rename_i p hp
    dsimp only at h
    split at h
    · simp only [Prod.mk.injEq] at h
      exact .inl ⟨h.1.symm, h.2.symm⟩
    · rename_i hc
      simp only [Bool.or_eq_true, bne_iff_ne, ne_eq, decide_eq_true_eq, not_or,
        Decidable.not_not, UInt32.not_le] at hc
      simp only [Prod.mk.injEq] at h
      exact .inr ⟨h.1.symm, p, hp, hc.1, hc.2, h.2.symm⟩

/-! ## Scanning -/

/-- A scan whose context is never done keeps the length of its bitfield and fails only by a
failure of the files. -/
theorem scanFrom_ok_or_disk {ctx : Context} (hctx : ∀ k, ctx.doneAt k = false) (bf : Bitfield)
    (k : Nat) (ps : List PieceLayout) :
    (∃ bf', (d.scanFrom fs st ctx bf k ps).1 = .ok bf' ∧ bf'.length = bf.length) ∨
      ∃ e, (d.scanFrom fs st ctx bf k ps).1 = .error (.disk e) := by
  induction ps generalizing bf k with
  | nil => exact .inl ⟨bf, rfl, rfl⟩
  | cons p ps ih =>
    unfold scanFrom
    rw [if_neg (by simp [hctx k])]
    split
    · exact ih bf (k + 1)
    · exact ih bf (k + 1)
    · exact .inr ⟨_, rfl⟩
    · rcases ih (if Piece.hashMatches p.length p.hash _ then bf.insert p.index else bf) (k + 1) with
        ⟨bf', h, hl⟩ | he
      · refine .inl ⟨bf', h, hl.trans ?_⟩
        split
        · exact Bitfield.length_insert bf p.index
        · rfl
      · exact .inr he

/-- The scan of a torrent's files, when not canceled, gives a bitfield with a bit per piece, or
a failure of the files. -/
theorem scan_ok_or_disk :
    (∃ bf, (d.scan fs st false).1 = .ok bf ∧ bf.length = d.pieces.size.toUInt32) ∨
      ∃ e, (d.scan fs st false).1 = .error (.disk e) := by
  unfold scan
  split
  · exact .inl ⟨_, rfl, rfl⟩
  · exact scanFrom_ok_or_disk (fun _ => rfl) _ _ _

end Disk

end BitTorrent
