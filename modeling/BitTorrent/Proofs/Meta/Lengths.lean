import BitTorrent.Torrent.Download
import BitTorrent.Proofs.Picker.Invariant
import Mathlib.Algebra.Order.BigOperators.Group.Finset

/-!
# The lengths of a torrent

Reading an info dictionary (`Info.ofBytes`) checks that the piece length is not zero, that the
hashes fill whole entries, that no file of a multi-file torrent has a negative length, and that
the pieces cover the total length with less than one piece to spare. `Info.Accepted` collects
what these checks leave true of every dictionary read (`Info.accepted_of_ofBytes`), in exact
integers: the 64-bit difference of the check does not wrap.

From it, for every torrent read:

* piece `i` is the part of the content between `i` and `i + 1` piece lengths
  (`Accepted.pieceLen_toNat`), so every piece has between one byte and the piece length, and the
  pieces add up to the total length, or to nothing when that is not positive
  (`Accepted.sum_pieceLen`);
* the hash of every piece is a whole entry of the hashes (`Accepted.length_pieceHash`);
* the total length is the sum of the file lengths taken in 64-bit arithmetic, so never more than
  their exact sum, and equal to it when that sum fits (`Accepted.total_le`, `Accepted.total_eq`);
* what a download has left is the total length less the lengths of the pieces it has
  (`Accepted.bytesLeft_eq`).

Main statement: `Info.lengths_of_ofBytes`. When the exact sum of the file lengths is a length,
not negative and below `2 ^ 63`, the total length is that sum, the pieces add up to it, and a
download has between nothing and all of it left, nothing exactly when it has every piece. The
reading lets other torrents through: a single file of negative length with no pieces is read
with a negative total (`Info.negative_length_read`).
-/

namespace BitTorrent

/-- A sum over the first `n` numbers, as a list or over a finite set. -/
theorem List.sum_map_range {M : Type} [AddCommMonoid M] (f : ℕ → M) (n : ℕ) :
    ((List.range n).map f).sum = ∑ i ∈ Finset.range n, f i := by
  simp [Finset.sum, Finset.range_val, Multiset.range]

namespace Int64

/-- A 64-bit value that is not negative has its value as unsigned bits. -/
theorem toNat_toUInt64_of_nonneg {x : Int64} (h : 0 ≤ x.toInt) :
    (x.toUInt64.toNat : Int) = x.toInt := by
  have hlt := x.toBitVec.isLt
  rw [← Int64.toNat_toBitVec]
  rw [← Int64.toInt_toBitVec, BitVec.toInt_eq_toNat_cond] at h ⊢
  split at h
  · simp_all
  · omega

/-- Adding a value that is not negative, in 64 bits, never gives more than the exact sum. -/
theorem toInt_add_le {a b : Int64} (ha : 0 ≤ a.toInt) : (a + b).toInt ≤ a.toInt + b.toInt := by
  have h1 := Int64.toInt_le a
  have h2 := Int64.le_toInt b
  simp only [Int64.toInt_maxValue] at h1
  rw [Int64.toInt_add, Int.bmod_def]
  split <;> omega

end Int64

namespace Info

/-- The sum of lengths that reading a multi-file torrent computes, when no length is negative:
the lengths added in 64-bit arithmetic. -/
theorem sumLengths_eq_ok {fs : List FileEntry} {t : Int64} (h : sumLengths fs = .ok t) :
    (∀ f ∈ fs, 0 ≤ f.length.toInt) ∧ t = fs.foldr (fun (f : FileEntry) t => f.length + t) 0 := by
  induction fs generalizing t with
  | nil =>
    simp only [sumLengths, Except.ok.injEq] at h
    simp [h]
  | cons f fs ih =>
    unfold sumLengths at h
    split at h
    · cases h
    rename_i hf
    obtain ⟨t', ht', rfl⟩ : ∃ t', sumLengths fs = .ok t' ∧ f.length + t' = t := by
      cases hs : sumLengths fs with
      | error e => simp [hs, Functor.map, Except.map] at h
      | ok t' =>
        simp only [hs, Functor.map, Except.map, Except.ok.injEq] at h
        exact ⟨t', rfl, h⟩
    obtain ⟨hnonneg, rfl⟩ := ih ht'
    refine ⟨fun g hg => ?_, rfl⟩
    rcases List.mem_cons.1 hg with rfl | hg
    · simpa [Int64.lt_iff_toInt_lt] using hf
    · exact hnonneg g hg

/-- Lengths that are not negative, added in 64-bit arithmetic, give at most their exact sum, and
exactly it when it is below `2 ^ 63`. -/
theorem foldr_add_toInt {fs : List FileEntry} (h : ∀ f ∈ fs, 0 ≤ f.length.toInt) :
    (fs.foldr (fun (f : FileEntry) t => f.length + t) 0).toInt ≤ (fs.map (·.length.toInt)).sum ∧
      ((fs.map (·.length.toInt)).sum < 2 ^ 63 →
        (fs.foldr (fun (f : FileEntry) t => f.length + t) 0).toInt = (fs.map (·.length.toInt)).sum) := by
  induction fs with
  | nil => simp
  | cons f fs ih =>
    have hf := h f List.mem_cons_self
    obtain ⟨hle, heq⟩ := ih fun g hg => h g (List.mem_cons_of_mem f hg)
    have hrest : 0 ≤ (fs.map (·.length.toInt)).sum :=
      List.sum_nonneg fun x hx => by
        obtain ⟨g, hg, rfl⟩ := List.mem_map.1 hx
        exact h g (List.mem_cons_of_mem f hg)
    simp only [List.foldr_cons, List.map_cons, List.sum_cons]
    refine ⟨(Int64.toInt_add_le hf).trans (by omega), fun hlt => ?_⟩
    have ht := heq (by omega)
    rw [Int64.toInt_add, ht]
    exact Int.bmod_eq_of_le (by omega) (by omega)

/-- **What reading checks.** The piece length is not zero, the hashes fill whole entries and give
the piece count, the total is the single file's length or the 64-bit sum of the files' lengths,
and the pieces cover it with less than a piece to spare, in 64-bit arithmetic. -/
theorem ofBytes_checks {b : List UInt8} {info : Info} (h : ofBytes b = .ok info) :
    info.pieceLength ≠ 0 ∧ info.pieces.length.toUInt32 % hashSize.toUInt32 = 0 ∧
      info.numPieces = info.pieces.length.toUInt32 / hashSize.toUInt32 ∧
      (if info.files.isEmpty then info.totalLength = info.length
        else sumLengths info.files = .ok info.totalLength) ∧
      ¬ (Int64.ofNat (info.pieceLength.toNat * info.numPieces.toNat) - info.totalLength ≥
          Int64.ofNat info.pieceLength.toNat ∨
        Int64.ofNat (info.pieceLength.toNat * info.numPieces.toNat) - info.totalLength < 0) := by
  unfold ofBytes at h
  dsimp only at h
  -- every failed check throws; what is left is the record built from the checked fields
  split at h
  · exact absurd h (Except.throw_bind_ne_ok _ _ _)
  split at h
  · exact absurd h (Except.throw_bind_ne_ok _ _ _)
  rename_i hpl
  split at h
  · exact absurd h (Except.throw_bind_ne_ok _ _ _)
  rename_i hpieces
  rw [Except.bind_eq_ok] at h
  obtain ⟨-, -, h⟩ := h
  -- the total length is the single file's length, or the sum of the files' lengths
  split at h
  all_goals
    rename_i hfiles
    rw [Except.bind_eq_ok] at h
    obtain ⟨t, ht, h⟩ := h
    split at h
    · exact absurd h (Except.throw_bind_ne_ok _ _ _)
    rename_i hdelta
    rw [Except.pure_eq_ok] at h
    subst h
    refine ⟨by simpa using hpl, by simpa using hpieces, rfl, ?_,
      by simpa only [Bool.or_eq_true, decide_eq_true_eq] using hdelta⟩
    simp only [hfiles]
  · rw [Except.pure_eq_ok] at ht
    simp [ht]
  · simpa using ht

/-- What reading an info dictionary leaves true of it, in exact integers: the piece length is
positive; the hashes hold one entry for each piece, and there are fewer than `2 ^ 28` pieces; no
file of a multi-file torrent has a negative length, and the total is the files' lengths added in
64-bit arithmetic; and the pieces cover the total with less than a piece to spare. -/
structure Accepted (info : Info) : Prop where
  pieceLength_pos : 0 < info.pieceLength.toNat
  hashes : info.numPieces.toNat * hashSize ≤ info.pieces.length
  few : info.numPieces.toNat < 2 ^ 28
  files_nonneg : ∀ f ∈ info.files, 0 ≤ f.length.toInt
  total : info.totalLength =
    if info.files.isEmpty then info.length else info.files.foldr (fun (f : FileEntry) t => f.length + t) 0
  covers : info.totalLength.toInt ≤ ((info.pieceLength.toNat * info.numPieces.toNat : Nat) : Int)
  spare : ((info.pieceLength.toNat * info.numPieces.toNat : Nat) : Int) <
    info.totalLength.toInt + info.pieceLength.toNat

/-- The coverage check in exact integers. With fewer than `2 ^ 28` pieces they hold fewer than
`2 ^ 60` bytes, so the 64-bit difference with the total wraps only when the total is far below
it, and the check then fails as it should. -/
theorem coverCheck_iff {pl : UInt32} {n : Nat} {total : Int64} (hn : n < 2 ^ 28) :
    (Int64.ofNat (pl.toNat * n) - total ≥ Int64.ofNat pl.toNat ∨
        Int64.ofNat (pl.toNat * n) - total < 0) ↔
      ¬ (total.toInt ≤ ((pl.toNat * n : Nat) : Int) ∧
        ((pl.toNat * n : Nat) : Int) < total.toInt + pl.toNat) := by
  have hplt := pl.toNat_lt
  have hprod : pl.toNat * n < 2 ^ 60 := by
    calc pl.toNat * n < 2 ^ 32 * 2 ^ 28 := Nat.mul_lt_mul'' hplt hn
      _ = 2 ^ 60 := by norm_num
  have hT1 := Int64.le_toInt total
  have hT2 := Int64.toInt_le total
  simp only [Int64.toInt_maxValue] at hT2
  rw [ge_iff_le, Int64.le_iff_toInt_le, Int64.lt_iff_toInt_lt, Int64.toInt_sub,
    Int64.toInt_ofNat_of_lt (by omega), Int64.toInt_ofNat_of_lt (by omega), Int.bmod_def]
  simp only [Int64.toInt_zero]
  split <;> omega

/-- **Reading an info dictionary accepts only what `Accepted` describes.** -/
theorem accepted_of_ofBytes {b : List UInt8} {info : Info} (h : ofBytes b = .ok info) :
    info.Accepted := by
  obtain ⟨hpl, -, hnum, htotal, hdelta⟩ := ofBytes_checks h
  have hpl' : 0 < info.pieceLength.toNat := by
    have : info.pieceLength.toNat ≠ 0 := fun h0 => hpl (UInt32.toNat_inj.1 (by simpa using h0))
    omega
  have hn : info.numPieces.toNat = info.pieces.length % 2 ^ 32 / 20 := by
    rw [hnum]
    simp [hashSize, UInt32.toNat_div]
  have hfew : info.numPieces.toNat < 2 ^ 28 := by omega
  have hcover := not_not.1 ((coverCheck_iff hfew).not.1 hdelta)
  refine ⟨hpl', by rw [hn, hashSize]; omega, hfew, ?_, ?_, hcover.1, hcover.2⟩
  · intro f hf
    have hmulti : info.files.isEmpty = false := by
      cases hfs : info.files with
      | nil => simp [hfs] at hf
      | cons _ _ => rfl
    rw [hmulti] at htotal
    exact (sumLengths_eq_ok (by simpa using htotal)).1 f hf
  · split
    · rename_i hsingle
      simpa [hsingle] using htotal
    · rename_i hmulti
      simp only [hmulti] at htotal
      exact (sumLengths_eq_ok (by simpa using htotal)).2

variable {info : Info}

/-- The pieces up to piece `i` take `i + 1` piece lengths of what the pieces hold. -/
theorem mul_add_le_of_lt {i : Nat} (hi : i < info.numPieces.toNat) :
    info.pieceLength.toNat * i + info.pieceLength.toNat ≤
      info.pieceLength.toNat * info.numPieces.toNat := by
  rw [← Nat.mul_add_one]
  exact Nat.mul_le_mul_left _ hi

/-- Every piece starts inside the content. -/
theorem Accepted.start_lt (ha : info.Accepted) {i : Nat} (hi : i < info.numPieces.toNat) :
    ((info.pieceLength.toNat * i : Nat) : Int) < info.totalLength.toInt := by
  have hle := mul_add_le_of_lt hi
  have hspare := ha.spare
  generalize info.pieceLength.toNat * i = P at *
  generalize info.pieceLength.toNat * info.numPieces.toNat = N at *
  omega

/-- **Piece `i` is the part of the content between `i` and `i + 1` piece lengths.** Only the
last piece can be shorter than the piece length. -/
theorem Accepted.pieceLen_toNat (ha : info.Accepted) {i : UInt32} (hi : i < info.numPieces) :
    (info.pieceLen i).toNat =
      min info.totalLength.toInt.toNat (info.pieceLength.toNat * (i.toNat + 1)) -
        info.pieceLength.toNat * i.toNat := by
  have hi' := UInt32.lt_iff_toNat_lt.1 hi
  have hstart := ha.start_lt hi'
  have hle := mul_add_le_of_lt hi'
  have hplt := info.pieceLength.toNat_lt
  have hfew := ha.few
  have hprod : info.pieceLength.toNat * i.toNat < 2 ^ 60 := by
    calc info.pieceLength.toNat * i.toNat
        < 2 ^ 32 * 2 ^ 28 := Nat.mul_lt_mul'' hplt (by omega)
      _ = 2 ^ 60 := by norm_num
  rw [Nat.mul_add_one]
  unfold pieceLen
  split
  · -- the last piece has what is left
    rename_i hlast
    have hlast : i = info.numPieces - 1 := by simpa using hlast
    have hidx : info.numPieces.toNat = i.toNat + 1 := by
      rw [hlast, UInt32.toNat_sub_of_le _ _ (UInt32.le_iff_toNat_le.2 (by simp; omega))]
      simp; omega
    have hcov := ha.covers
    rw [hidx, Nat.mul_add_one] at hcov
    have hmul : (Int64.ofNat info.pieceLength.toNat * Int64.ofNat i.toNat).toInt =
        ((info.pieceLength.toNat * i.toNat : Nat) : Int) := by
      rw [Int64.toInt_mul, Int64.toInt_ofNat_of_lt (by omega), Int64.toInt_ofNat_of_lt (by omega),
        ← Nat.cast_mul]
      exact Int.bmod_eq_of_le (by omega) (by omega)
    have hT := Int64.toInt_le info.totalLength
    simp only [Int64.toInt_maxValue] at hT
    have hrest : (info.totalLength - Int64.ofNat info.pieceLength.toNat *
        Int64.ofNat i.toNat).toInt =
          info.totalLength.toInt - ((info.pieceLength.toNat * i.toNat : Nat) : Int) := by
      rw [Int64.toInt_sub, hmul]
      exact Int.bmod_eq_of_le (by omega) (by omega)
    have hbits := Int64.toNat_toUInt64_of_nonneg (x := info.totalLength -
      Int64.ofNat info.pieceLength.toNat * Int64.ofNat i.toNat) (by omega)
    rw [hrest] at hbits
    rw [UInt64.toNat_toUInt32]
    generalize info.pieceLength.toNat * i.toNat = P at *
    omega
  · -- any other piece has the piece length, and the next piece starts inside the content
    rename_i hnotlast
    have hnext : i.toNat + 1 < info.numPieces.toNat := by
      by_contra hge
      apply hnotlast
      simp only [beq_iff_eq]
      apply UInt32.toNat_inj.1
      rw [UInt32.toNat_sub_of_le _ _ (UInt32.le_iff_toNat_le.2 (by simp; omega))]
      simp; omega
    have hstart' := ha.start_lt hnext
    rw [Nat.mul_add_one] at hstart'
    generalize info.pieceLength.toNat * i.toNat = P at *
    omega

/-- Every piece has at least one byte and at most the piece length. -/
theorem Accepted.pieceLen_pos (ha : info.Accepted) {i : UInt32} (hi : i < info.numPieces) :
    0 < (info.pieceLen i).toNat ∧ (info.pieceLen i).toNat ≤ info.pieceLength.toNat := by
  have hstart := ha.start_lt (UInt32.lt_iff_toNat_lt.1 hi)
  have hpl := ha.pieceLength_pos
  rw [ha.pieceLen_toNat hi, Nat.mul_add_one]
  generalize info.pieceLength.toNat * i.toNat = P at *
  omega

/-- A torrent with a piece has a positive total length; one with none has a total that is not
positive. -/
theorem Accepted.total_pos_iff (ha : info.Accepted) :
    0 < info.totalLength.toInt ↔ 0 < info.numPieces.toNat := by
  have hcov := ha.covers
  constructor
  · intro hpos
    by_contra h0
    simp only [Nat.not_lt, Nat.le_zero] at h0
    simp [h0] at hcov
    omega
  · intro hn
    have := ha.start_lt hn
    simp only [Nat.mul_zero, Nat.cast_zero] at this
    exact this

/-- **The first `j` pieces hold `j` piece lengths of the content**, or all of it. -/
theorem Accepted.sum_pieceLen_range (ha : info.Accepted) {j : Nat} (hj : j ≤ info.numPieces.toNat) :
    ∑ i ∈ Finset.range j, (info.pieceLen i.toUInt32).toNat =
      min info.totalLength.toInt.toNat (info.pieceLength.toNat * j) := by
  have hlt := info.numPieces.toNat_lt
  -- the piece lengths are the steps of `k ↦ min total (k piece lengths)`, which telescope
  have hmono : Monotone fun k => min info.totalLength.toInt.toNat (info.pieceLength.toNat * k) :=
    fun a b hab => min_le_min_left _ (Nat.mul_le_mul_left _ hab)
  have hstep : ∀ i ∈ Finset.range j, (info.pieceLen i.toUInt32).toNat =
      min info.totalLength.toInt.toNat (info.pieceLength.toNat * (i + 1)) -
        min info.totalLength.toInt.toNat (info.pieceLength.toNat * i) := by
    intro i hi
    have hi' : i < info.numPieces.toNat := by have := Finset.mem_range.1 hi; omega
    have hidx : i.toUInt32.toNat = i := by simp; omega
    have hstart := ha.start_lt hi'
    rw [ha.pieceLen_toNat (UInt32.lt_iff_toNat_lt.2 (by omega)), hidx]
    generalize info.pieceLength.toNat * i = P at *
    omega
  rw [Finset.sum_congr rfl hstep, Finset.sum_range_tsub hmono]
  simp

/-- **The pieces add up to the total length**, or to nothing when the total is not positive. -/
theorem Accepted.sum_pieceLen (ha : info.Accepted) :
    ∑ i ∈ Finset.range info.numPieces.toNat, (info.pieceLen i.toUInt32).toNat =
      info.totalLength.toInt.toNat := by
  rw [ha.sum_pieceLen_range le_rfl]
  have hcov := ha.covers
  generalize info.pieceLength.toNat * info.numPieces.toNat = N at *
  omega

/-- The hash of every piece is a whole entry of the hashes. -/
theorem Accepted.length_pieceHash (ha : info.Accepted) {i : UInt32} (hi : i < info.numPieces) :
    i.toNat * hashSize + hashSize ≤ info.pieces.length ∧ (info.pieceHash i).length = hashSize := by
  have hi' := UInt32.lt_iff_toNat_lt.1 hi
  have hin : i.toNat * hashSize + hashSize ≤ info.pieces.length :=
    (Nat.succ_mul i.toNat hashSize ▸ Nat.mul_le_mul_right hashSize hi').trans ha.hashes
  refine ⟨hin, ?_⟩
  simp only [pieceHash, List.length_take, List.length_drop]
  omega

/-- The exact sum of the lengths of a torrent's files. -/
def fileLengthSum (info : Info) : Int :=
  (info.getFiles.map (·.length.toInt)).sum

theorem fileLengthSum_eq (info : Info) :
    info.fileLengthSum =
      if info.files.isEmpty then info.length.toInt else (info.files.map (·.length.toInt)).sum := by
  unfold fileLengthSum getFiles multiFile
  cases info.files <;> simp [Function.comp_def]

/-- **The total length is never more than the exact sum of the file lengths**, and it is that
sum when the sum is below `2 ^ 63`: the 64-bit sum that reading takes can only wrap downwards. -/
theorem Accepted.total_le (ha : info.Accepted) :
    info.totalLength.toInt ≤ info.fileLengthSum ∧
      (info.fileLengthSum < 2 ^ 63 → info.totalLength.toInt = info.fileLengthSum) := by
  rw [fileLengthSum_eq, ha.total]
  split
  · exact ⟨le_refl _, fun _ => rfl⟩
  · exact foldr_add_toInt ha.files_nonneg

/-- The verified pieces of a torrent hold at most its total length, and all of it exactly when
every piece is verified. -/
theorem Accepted.sum_verified (ha : info.Accepted) (bf : Bitfield) :
    (∑ i ∈ Finset.range info.numPieces.toNat,
        if bf.getD i.toUInt32 then (info.pieceLen i.toUInt32).toNat else 0) ≤
        info.totalLength.toInt.toNat ∧
      ((∑ i ∈ Finset.range info.numPieces.toNat,
          if bf.getD i.toUInt32 then (info.pieceLen i.toUInt32).toNat else 0) =
          info.totalLength.toInt.toNat ↔
        ∀ i ∈ Finset.range info.numPieces.toNat, bf.getD i.toUInt32 = true) := by
  have hle : ∀ i ∈ Finset.range info.numPieces.toNat,
      (if bf.getD i.toUInt32 then (info.pieceLen i.toUInt32).toNat else 0) ≤
        (info.pieceLen i.toUInt32).toNat := by
    intro i _
    split <;> omega
  rw [← ha.sum_pieceLen]
  refine ⟨Finset.sum_le_sum hle, ?_⟩
  rw [Finset.sum_eq_sum_iff_of_le hle]
  refine forall₂_congr fun i hi => ?_
  -- a piece left out takes off its length, which is positive
  have hi : i.toUInt32 < info.numPieces := by
    have := info.numPieces.toNat_lt
    simp only [Finset.mem_range] at hi
    exact UInt32.lt_iff_toNat_lt.2 (by simp; omega)
  have hpos := (ha.pieceLen_pos hi).1
  by_cases hbit : bf.getD i.toUInt32 = true
  · simp [hbit]
  · simp only [hbit, Bool.false_eq_true, ↓reduceIte, iff_false]
    omega

end Info

namespace Torrent.Download

variable {σ : Type} {d : Download σ}

/-- A download that has its bitfield has left the total length less the lengths of the pieces
whose bit is set. -/
theorem bytesLeft_eq {bf : Bitfield} (hbf : d.bitfield = some bf) :
    d.bytesLeft = d.info.totalLength.toInt -
      ∑ i ∈ Finset.range bf.length.toNat,
        if bf.getD i.toUInt32 then ((d.info.pieceLen i.toUInt32).toNat : Int) else 0 := by
  -- the fold takes off the length of each set bit in turn
  have hfold : ∀ (l : List UInt32) (a : Int),
      l.foldl (fun (left : Int) i => left - ((d.info.pieceLen i).toNat : Int)) a =
        a - (l.map fun i => ((d.info.pieceLen i).toNat : Int)).sum := by
    intro l
    induction l with
    | nil => simp
    | cons i l ih =>
      intro a
      rw [List.foldl_cons, ih, List.map_cons, List.sum_cons]
      ring
  have hfilter : ∀ l : List Nat, ((l.filter (bf.getD ·.toUInt32)).map
      fun i => ((d.info.pieceLen i.toUInt32).toNat : Int)).sum =
        (l.map fun i => if bf.getD i.toUInt32 then ((d.info.pieceLen i.toUInt32).toNat : Int)
          else 0).sum := by
    intro l
    induction l with
    | nil => rfl
    | cons i l ih => by_cases h : bf.getD i.toUInt32 <;> simp [h, ih]
  rw [bytesLeft, hbf]
  dsimp only
  rw [hfold, Bitfield.indexes, List.filter_map, List.map_map]
  simp only [Function.comp_def]
  rw [hfilter, List.sum_map_range]

/-- The bytes a download reports completed and left add up to its total. -/
theorem stats_completed_add_left (d : Download σ) :
    d.stats.bytes.completed + d.stats.bytes.left = d.stats.bytes.total := by
  simp only [stats]
  omega

/-- **What a download has left.** For an accepted torrent whose total is not negative, and a
bitfield with one bit per piece, what is left lies between nothing and the total, and is nothing
exactly when every piece is verified. -/
theorem bytesLeft_bounds (ha : d.info.Accepted) (htotal : 0 ≤ d.info.totalLength.toInt)
    (hlen : ∀ bf, d.bitfield = some bf → bf.length = d.info.numPieces) :
    0 ≤ d.bytesLeft ∧ d.bytesLeft ≤ d.info.totalLength.toInt ∧
      (d.bytesLeft = 0 ↔ ∀ i < d.info.numPieces, d.bitfield.any (·.getD i) = true) := by
  cases hbf : d.bitfield with
  | none =>
    -- before the files are checked everything is left, which is nothing only with no piece
    have hleft : d.bytesLeft = d.info.totalLength.toInt := by
      rw [bytesLeft, hbf]
    refine ⟨by omega, by omega, ?_⟩
    rw [hleft]
    simp only [Option.any_none, Bool.false_eq_true, imp_false]
    constructor
    · intro h0 i hi
      have := ha.total_pos_iff.2 (by have := UInt32.lt_iff_toNat_lt.1 hi; omega)
      omega
    · intro hnone
      have hn : d.info.numPieces.toNat = 0 := by
        by_contra hn
        exact hnone 0 (UInt32.lt_iff_toNat_lt.2 (by simp; omega))
      have := ha.total_pos_iff.not.2 (by omega)
      omega
  | some bf =>
    -- what is left is the total less the verified pieces
    have hleft := bytesLeft_eq hbf
    rw [hlen bf hbf] at hleft
    obtain ⟨hle, hiff⟩ := ha.sum_verified bf
    have hcast : (∑ i ∈ Finset.range d.info.numPieces.toNat,
        if bf.getD i.toUInt32 then ((d.info.pieceLen i.toUInt32).toNat : Int) else 0) =
        ((∑ i ∈ Finset.range d.info.numPieces.toNat,
          if bf.getD i.toUInt32 then (d.info.pieceLen i.toUInt32).toNat else 0 : Nat) : Int) := by
      push_cast
      rfl
    rw [hcast] at hleft
    refine ⟨by omega, by omega, ?_⟩
    rw [hleft]
    simp only [Option.any_some]
    constructor
    · intro h0 i hi
      have hall := hiff.1 (by omega)
      simpa using hall i.toNat (by simpa [UInt32.lt_iff_toNat_lt] using hi)
    · intro hall
      have := hiff.2 fun i hi => by
        have := d.info.numPieces.toNat_lt
        simp only [Finset.mem_range] at hi
        exact hall _ (UInt32.lt_iff_toNat_lt.2 (by simp; omega))
      omega

end Torrent.Download

namespace Info

variable {info : Info}

/-- **The lengths of a torrent read from its info dictionary.** When the exact sum of the file
lengths is not negative and below `2 ^ 63`: the total length is that sum; every piece has
between one byte and the piece length, and the pieces add up to the total; the hash of every
piece is a whole entry of the hashes; and a download of the torrent, whose bitfield has one bit
per piece, has between nothing and the total left, nothing exactly when it has every piece, and
reports what it completed and what it has left adding up to the total. -/
theorem lengths_of_ofBytes {b : List UInt8} (h : ofBytes b = .ok info)
    (hsum : 0 ≤ info.fileLengthSum ∧ info.fileLengthSum < 2 ^ 63) :
    info.totalLength.toInt = info.fileLengthSum ∧ 0 ≤ info.totalLength.toInt ∧
      (∀ i < info.numPieces,
        1 ≤ (info.pieceLen i).toNat ∧ (info.pieceLen i).toNat ≤ info.pieceLength.toNat) ∧
      ((∑ i ∈ Finset.range info.numPieces.toNat, (info.pieceLen i.toUInt32).toNat : Nat) : Int) =
        info.totalLength.toInt ∧
      (∀ i < info.numPieces,
        i.toNat * hashSize + hashSize ≤ info.pieces.length ∧ (info.pieceHash i).length = hashSize) ∧
      ∀ {σ : Type} (d : Torrent.Download σ), d.info = info →
        (∀ bf, d.bitfield = some bf → bf.length = info.numPieces) →
        0 ≤ d.bytesLeft ∧ d.bytesLeft ≤ info.totalLength.toInt ∧
        (d.bytesLeft = 0 ↔ ∀ i < info.numPieces, d.bitfield.any (·.getD i) = true) ∧
        d.stats.bytes.completed + d.stats.bytes.left = d.stats.bytes.total := by
  have ha := accepted_of_ofBytes h
  have heq := ha.total_le.2 hsum.2
  refine ⟨heq, by omega, fun i hi => ha.pieceLen_pos hi, ?_, fun i hi => ha.length_pieceHash hi,
    ?_⟩
  · rw [ha.sum_pieceLen]
    omega
  intro σ d hinfo hlen
  subst hinfo
  obtain ⟨hnonneg, hle, hdone⟩ := Torrent.Download.bytesLeft_bounds ha (by omega) hlen
  exact ⟨hnonneg, hle, hdone, Torrent.Download.stats_completed_add_left d⟩

/-- The info dictionary of a single file of twenty bytes in pieces of sixteen. -/
def twoPieces : List UInt8 :=
  "d6:lengthi20e4:name1:a12:piece lengthi16e6:pieces40:".toUTF8.toList ++
    List.replicate 40 0 ++ "e".toUTF8.toList

/-- Twenty bytes in pieces of sixteen: the total is the file's length, and the two pieces make
it up. -/
theorem lengths_of_twoPieces : ∃ info, ofBytes twoPieces = .ok info ∧
    info.fileLengthSum = 20 ∧ info.totalLength.toInt = 20 ∧ info.numPieces = 2 ∧
    ((∑ i ∈ Finset.range info.numPieces.toNat, (info.pieceLen i.toUInt32).toNat : Nat) : Int) =
      20 := by
  have hok : ((ofBytes twoPieces).toOption.any fun info =>
      info.fileLengthSum == 20 && info.numPieces == 2) = true := by
    decide +kernel
  obtain ⟨info, hinfo, hfacts⟩ := Except.toOption_any_eq_true.1 hok
  simp only [Bool.and_eq_true, beq_iff_eq] at hfacts
  obtain ⟨hsum, hn⟩ := hfacts
  obtain ⟨htotal, -, -, hpieces, -⟩ :=
    lengths_of_ofBytes hinfo ⟨by rw [hsum]; decide, by rw [hsum]; decide⟩
  exact ⟨info, hinfo, hsum, htotal.trans hsum, hn, hpieces.trans (htotal.trans hsum)⟩

/-- The info dictionary of a single file of length `-5` with no pieces. -/
def negativeLength : List UInt8 :=
  "d6:lengthi-5e4:name1:x12:piece lengthi32e6:pieces0:e".toUTF8.toList

/-- **A negative total is read.** The length of a single file is not checked for a sign, and
with no pieces the check of the total lets `-5` through. -/
theorem negative_length_read : ∃ info, ofBytes negativeLength = .ok info ∧
    info.numPieces = 0 ∧ info.totalLength.toInt = -5 := by
  have hok : ((ofBytes negativeLength).toOption.any fun info =>
      info.numPieces == 0 && info.totalLength.toInt == -5) = true := by
    decide +kernel
  obtain ⟨info, hinfo, hfacts⟩ := Except.toOption_any_eq_true.1 hok
  simp only [Bool.and_eq_true, beq_iff_eq] at hfacts
  exact ⟨info, hinfo, hfacts⟩

end Info

end BitTorrent
