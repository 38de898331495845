import BitTorrent.Meta.Build
import BitTorrent.Proofs.Text.Timestamp
import Mathlib.Tactic

/-!
# Hashing the pieces of new content

Every SHA-1 digest has twenty bytes (`Sha1.length_ofList`): the state it is read from keeps its
five words through every block.

Hashing the pieces of the first `total` bytes of some content (`Info.hashPieces`) gives, when the
content has them all, the digests of its chunks one after another (`Info.hashPieces_eq`): chunk
`i` runs from `i` piece lengths to `i + 1` of them, or to the total for the last. With fewer bytes
than the total it fails, at the end of the content or part way through a piece
(`Info.hashPieces_short`). Each step either ends the content or takes one whole chunk, so the
proof is an induction on the fuel with the content shortened by a chunk at each step.
-/

namespace BitTorrent

namespace Sha1

theorem size_block (h : Array UInt32) (b : ByteArray) (off : Nat) : (block h b off).size = 5 := by
  simp [block]

theorem size_foldl_block (p : ByteArray) (l : List Nat) {h : Array UInt32} (hh : h.size = 5) :
    (l.foldl (fun b a => block b p (64 * a)) h).size = 5 := by
  induction l generalizing h with
  | nil => exact hh
  | cons a l ih => exact ih (size_block _ _ _)

theorem size_foldl_push (l : List UInt32) (out : ByteArray) :
    (l.foldl (fun b a => (((b.push (a >>> 24).toUInt8).push (a >>> 16).toUInt8).push
      (a >>> 8).toUInt8).push a.toUInt8) out).size = out.size + 4 * l.length := by
  induction l generalizing out with
  | nil => simp
  | cons a l ih =>
    rw [List.foldl_cons, ih]
    simp
    omega

theorem size_digest (msg : ByteArray) : (digest msg).size = 20 := by
  simp only [digest, Std.Legacy.Range.forIn_eq_forIn_range', List.forIn_pure_yield_eq_foldl,
    Array.forIn_pure_yield_eq_foldl, Id.run_bind, Id.run_pure]
  -- four bytes for each of the five words of the state
  rw [← Array.foldl_toList, size_foldl_push, Array.length_toList, size_foldl_block _ _ rfl]
  rfl

@[simp]
theorem length_ofList (bs : List UInt8) : (ofList bs).length = 20 := by
  rw [ofList, Bytes.byteArray_toList, Bytes.length_data_toList, size_digest]

end Sha1

namespace Info

/-- Piece `i` of the first `total` bytes of `data`, pieces being `pl` bytes long: the bytes from
`i` piece lengths to `i + 1` of them, or to the total for the last piece. -/
def chunk (pl total : Nat) (data : List UInt8) (i : Nat) : List UInt8 :=
  (data.take (min ((i + 1) * pl) total)).drop (i * pl)

/-- The number of pieces of `total` bytes: the total over the piece length, rounded up. -/
def pieceCount (pl total : Nat) : Nat :=
  (total + pl - 1) / pl

/-- The digests of the pieces of the first `total` bytes of `data`, one after another. -/
def chunkHashes (pl total : Nat) (data : List UInt8) : List UInt8 :=
  (List.range (pieceCount pl total)).flatMap fun i => Sha1.ofList (chunk pl total data i)

section Int64

variable {left : Int64}

theorem toNat_toInt_sub {n : Nat} (h0 : 0 ≤ left.toInt) (hn : n ≤ left.toInt.toNat) :
    (left - Int64.ofNat n).toInt.toNat = left.toInt.toNat - n ∧ 0 ≤ (left - Int64.ofNat n).toInt := by
  have hlt := Int64.toInt_lt left
  have hle := Int64.le_toInt left
  have hofNat : (Int64.ofNat n).toInt = n := Int64.toInt_ofNat_of_lt (by omega)
  rw [Int64.toInt_sub, hofNat, Int.bmod_eq_of_le (by omega) (by omega)]
  omega

theorem le_zero_iff : left ≤ 0 ↔ left.toInt ≤ 0 := by
  rw [Int64.le_iff_toInt_le, Int64.toInt_zero]

end Int64

/-- No bytes are left to hash. -/
theorem hashPieces_done {pl fuel : Nat} {left : Int64} (h : left.toInt ≤ 0) (data : List UInt8) :
    hashPieces pl (fuel + 1) left data = .ok [] := by
  simp [hashPieces, le_zero_iff.2 h]

/-- One piece hashed: the next `min pl left` bytes, when the content has them. -/
theorem hashPieces_step {pl fuel : Nat} {left : Int64} {data : List UInt8} (h : 0 < left.toInt)
    (hlen : min pl left.toInt.toNat ≤ data.length) (hne : data ≠ []) :
    hashPieces pl (fuel + 1) left data =
      (Sha1.ofList (data.take (min pl left.toInt.toNat)) ++ ·) <$>
        hashPieces pl fuel (left - Int64.ofNat (min pl left.toInt.toNat))
          (data.drop (min pl left.toInt.toNat)) := by
  have hpos : ¬ left ≤ 0 := fun h' => by have := le_zero_iff.1 h'; omega
  have hempty : data.isEmpty = false := by simpa using hne
  simp only [hashPieces, hpos, if_false, hempty, Bool.false_eq_true, Nat.not_lt.2 hlen]

theorem pieceCount_zero (pl : Nat) : pieceCount pl 0 = 0 := by
  simp [pieceCount]
  omega

/-- The pieces cover the total with less than a piece to spare. -/
theorem le_mul_pieceCount {pl : Nat} (hpl : 0 < pl) (total : Nat) :
    total ≤ pl * pieceCount pl total := by
  have h := Nat.div_add_mod (total + pl - 1) pl
  have hr := Nat.mod_lt (total + pl - 1) hpl
  unfold pieceCount
  omega

theorem mul_pieceCount_lt {pl : Nat} (hpl : 0 < pl) (total : Nat) :
    pl * pieceCount pl total < total + pl := by
  have h := Nat.div_add_mod (total + pl - 1) pl
  unfold pieceCount
  omega

/-- The chunks after the first piece are those of what follows it. -/
theorem chunk_succ {pl total : Nat} (hpl : pl < total) (data : List UInt8) (i : Nat) :
    chunk pl (total - pl) (data.drop pl) i = chunk pl total data (i + 1) := by
  have h1 : (i + 1) * pl = i * pl + pl := Nat.succ_mul i pl
  have h2 : (i + 1 + 1) * pl = i * pl + pl + pl := by rw [Nat.succ_mul, h1]
  have hmin : pl + min ((i + 1) * pl) (total - pl) = min ((i + 1 + 1) * pl) total := by
    omega
  rw [chunk, chunk, List.take_drop, hmin, List.drop_drop, h1]
  congr 1
  omega

theorem chunk_zero (pl total : Nat) (data : List UInt8) :
    chunk pl total data 0 = data.take (min pl total) := by
  simp [chunk]

/-- The pieces of content that has all of them are hashed one after another. -/
theorem hashPieces_eq {pl : Nat} (hpl : 0 < pl) :
    ∀ (fuel : Nat) (left : Int64) (data : List UInt8), 0 ≤ left.toInt →
      left.toInt.toNat ≤ data.length → left.toInt.toNat < fuel →
      hashPieces pl fuel left data = .ok (chunkHashes pl left.toInt.toNat data) := by
  -- on the fuel, each step taking one chunk off the front of the content
  intro fuel
  induction fuel with
  | zero => intro left data _ _ hfuel; omega
  | succ fuel ih =>
    intro left data h0 hlen hfuel
    by_cases hleft : left.toInt ≤ 0
    · have hT : left.toInt.toNat = 0 := by omega
      rw [hashPieces_done hleft, hT, chunkHashes, pieceCount_zero]
      rfl
    · have hn : min pl left.toInt.toNat ≤ data.length := by omega
      have hne : data ≠ [] := by
        intro h
        rw [h, List.length_nil] at hlen
        omega
      obtain ⟨hsub, hsub0⟩ := toNat_toInt_sub (n := min pl left.toInt.toNat) h0 (by omega)
      rw [hashPieces_step (by omega) hn hne, ih _ _ hsub0 (by rw [hsub, List.length_drop]; omega)
        (by rw [hsub]; omega), hsub]
      simp only [Functor.map, Except.map, Except.ok.injEq]
      by_cases hlast : left.toInt.toNat ≤ pl
      · -- the last piece: what is left fits in one
        rw [Nat.min_eq_right hlast, Nat.sub_self, chunkHashes, pieceCount_zero]
        have hone : pieceCount pl left.toInt.toNat = 1 := by
          unfold pieceCount
          rw [Nat.div_eq_iff hpl]
          omega
        rw [List.range_zero, List.flatMap_nil, List.append_nil, chunkHashes, hone, List.range_one,
          List.flatMap_singleton, chunk_zero, Nat.min_eq_right hlast]
      · -- a whole piece, then the pieces of the rest
        rw [Nat.min_eq_left (by omega)]
        have hcount : pieceCount pl left.toInt.toNat = pieceCount pl (left.toInt.toNat - pl) + 1 := by
          unfold pieceCount
          rw [show left.toInt.toNat + pl - 1 = (left.toInt.toNat - pl + pl - 1) + 1 * pl by omega,
            Nat.add_mul_div_right _ _ hpl]
        rw [chunkHashes, chunkHashes, hcount, List.range_succ_eq_map, List.flatMap_cons, chunk_zero,
          Nat.min_eq_left (by omega), List.flatMap_map]
        simp only [chunk_succ (by omega : pl < left.toInt.toNat)]

/-- Content shorter than the total ends the hashing: at the end of the content, or part way
through a piece. -/
theorem hashPieces_short {pl : Nat} :
    ∀ (fuel : Nat) (left : Int64) (data : List UInt8), 0 ≤ left.toInt →
      data.length < left.toInt.toNat →
      ∃ e, hashPieces pl fuel left data = .error e ∧ (e = .eof ∨ e = .unexpectedEof) := by
  intro fuel
  induction fuel with
  | zero => intro left data _ _; exact ⟨.eof, rfl, .inl rfl⟩
  | succ fuel ih =>
    intro left data h0 hshort
    have hpos : ¬ left ≤ 0 := fun h' => by have := le_zero_iff.1 h'; omega
    by_cases hne : data = []
    · refine ⟨.eof, ?_, .inl rfl⟩
      simp only [hashPieces, hpos, if_false, hne, List.isEmpty_nil, if_true]
    have hempty : data.isEmpty = false := by simpa using hne
    by_cases hpart : data.length < min pl left.toInt.toNat
    · refine ⟨.unexpectedEof, ?_, .inr rfl⟩
      simp only [hashPieces, hpos, if_false, hempty, Bool.false_eq_true, hpart, if_true]
    · obtain ⟨hsub, hsub0⟩ := toNat_toInt_sub (n := min pl left.toInt.toNat) h0 (by omega)
      obtain ⟨e, he, hkind⟩ := ih (left - Int64.ofNat (min pl left.toInt.toNat))
        (data.drop (min pl left.toInt.toNat)) hsub0 (by rw [hsub, List.length_drop]; omega)
      refine ⟨e, ?_, hkind⟩
      rw [hashPieces_step (by omega) (by omega) hne, he]
      rfl

theorem length_chunkHashes (pl total : Nat) (data : List UInt8) :
    (chunkHashes pl total data).length = 20 * pieceCount pl total := by
  simp [chunkHashes, List.length_flatMap, Nat.mul_comm]

/-- The hash of piece `i` is the `i`-th twenty bytes of the hashes. -/
theorem drop_take_chunkHashes {pl total : Nat} (data : List UInt8) {i : Nat}
    (hi : i < pieceCount pl total) :
    ((chunkHashes pl total data).drop (i * 20)).take 20 = Sha1.ofList (chunk pl total data i) := by
  unfold chunkHashes
  generalize pieceCount pl total = k at hi
  -- on the number of pieces, the last one appended
  induction k with
  | zero => omega
  | succ k ih =>
    rw [List.range_succ, List.flatMap_append, List.flatMap_singleton]
    have hlen : ((List.range k).flatMap fun i => Sha1.ofList (chunk pl total data i)).length =
        20 * k := by
      simp [List.length_flatMap, Nat.mul_comm]
    by_cases hik : i < k
    · rw [List.drop_append_of_le_length (by omega), List.take_append_of_le_length (by simp; omega)]
      exact ih hik
    · have hi' : i = k := by omega
      subst hi'
      rw [List.drop_append_of_le_length (by omega), List.drop_eq_nil_of_le (by omega)]
      simp

end Info

end BitTorrent
