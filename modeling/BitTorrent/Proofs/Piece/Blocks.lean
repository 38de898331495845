import BitTorrent.Proofs.Piece.Cover
import BitTorrent.Proofs.Picker.Bytes
import BitTorrent.Proofs.Disk.Written
import BitTorrent.Proofs.Torrent.Counters

/-!
# One block geometry for picker, disk and wire

The blocks of a piece of length `L` (`Block.all L`) cut the range `[0, L)` into `⌈L / 16384⌉`
consecutive ranges: block `k` sits at position `k`, starts `16384 * k` bytes in, and has `16384`
bytes, except the last, which has what is left and at least one byte (`Block.getElem_all`,
`Block.flatMap_all`). No offset wraps a 32-bit word, even for a piece of nearly `2 ^ 32` bytes.

Three lookups read these blocks: by position (`Block.get?`), by offset and length on the disk
(`Block.find?`) and in the picker's partial pieces (`PartialPiece.slotAt?`); they find the same
blocks (`Block.get?_eq`, `Block.find?_eq_some_iff`, `PartialPiece.slotAt?_isSome`). A block the
picker takes from a peer therefore lies within its piece on the disk, whose sections add up to the
piece's length, and the disk takes it (`Disk.writeBlock_ne_invalidBlock`).
-/

namespace BitTorrent

/-- Ranges that run from `f k` to `f (k + 1)`, one after another, run from `f 0` to `f n`. -/
theorem List.flatMap_range_range' (f : ℕ → ℕ) (hf : Monotone f) (n : ℕ) :
    (List.range n).flatMap (fun k => List.range' (f k) (f (k + 1) - f k)) =
      List.range' (f 0) (f n - f 0) := by
  induction n with
  | zero => simp
  | succ n ih =>
    have h0 := hf (Nat.zero_le n)
    have h1 := hf (Nat.le_add_right n 1)
    rw [List.range_succ, List.flatMap_append, ih, List.flatMap_singleton]
    have happ := List.range'_append_1 (s := f 0) (m := f n - f 0) (n := f (n + 1) - f n)
    rw [show f 0 + (f n - f 0) = f n by omega, show f n - f 0 + (f (n + 1) - f n) =
      f (n + 1) - f 0 by omega] at happ
    exact happ

namespace Block

/-- A piece has its length over the block size, rounded up, blocks. -/
theorem count_toNat (len : UInt32) : (count len).toNat = (len.toNat + 16383) / 16384 := by
  have := len.toNat_lt
  unfold count blockSize
  split
  · rename_i hmod
    simp only [bne_iff_ne, ne_eq] at hmod
    have hmod' : len.toNat % 16384 ≠ 0 := fun h0 =>
      hmod (UInt32.toNat_inj.1 (by simpa [UInt32.toNat_mod] using h0))
    simp [UInt32.toNat_add, UInt32.toNat_div]
    omega
  · rename_i hmod
    simp only [bne_iff_ne, ne_eq, Decidable.not_not] at hmod
    have hmod' : len.toNat % 16384 = 0 := by
      simpa [UInt32.toNat_mod] using congrArg UInt32.toNat hmod
    simp [UInt32.toNat_div]
    omega

theorem getElem_all {len : UInt32} {k : ℕ} (hk : k < (all len).length) :
    (all len)[k] = nth len k.toUInt32 :=
  ((getElem?_all.1 (List.getElem?_eq_getElem hk)).2).symm

/-- Block `k` of a piece sits at position `k` and starts `16384 * k` bytes in; it has `16384`
bytes unless it is the last, which has the rest of the piece, at least one byte. -/
theorem nth_spec {len : UInt32} {k : ℕ} (hk : k < (count len).toNat) :
    (nth len k.toUInt32).index = k.toUInt32 ∧ (nth len k.toUInt32).begin.toNat = 16384 * k ∧
      (k + 1 < (count len).toNat → (nth len k.toUInt32).length.toNat = 16384) ∧
      (k + 1 = (count len).toNat →
        0 < (nth len k.toUInt32).length.toNat ∧
          (nth len k.toUInt32).length.toNat = len.toNat - 16384 * k) := by
  have hlen := length_nth_toNat hk
  have hstart := begin_lt_of_lt_count hk
  have hend := le_count_mul len
  refine ⟨rfl, by rw [begin_nth_toNat hk]; omega, fun hnext => ?_, fun hlast => ?_⟩
  · -- a block with one after it ends where that one starts, inside the piece
    have := begin_lt_of_lt_count hnext
    rw [hlen]
    omega
  · rw [← hlast] at hend
    rw [hlen]
    omega

/-- A block of a piece ends within the piece. -/
theorem end_le_of_mem {len : UInt32} {b : Block} (hb : b ∈ all len) :
    b.begin.toNat + b.length.toNat ≤ len.toNat := by
  obtain ⟨k, hk, rfl⟩ := List.mem_iff_getElem.1 hb
  rw [length_all] at hk
  rw [getElem_all, begin_nth_toNat hk, length_nth_toNat hk]
  have := begin_lt_of_lt_count hk
  omega

/-- **The blocks of a piece cut it into consecutive ranges**, from its first byte to its last. -/
theorem flatMap_all (len : UInt32) :
    (all len).flatMap (fun b => List.range' b.begin.toNat b.length.toNat) =
      List.range len.toNat := by
  have hmono : Monotone fun k => min len.toNat (16384 * k) :=
    fun a b hab => min_le_min_left _ (Nat.mul_le_mul_left _ hab)
  have hrange := List.flatMap_range_range' _ hmono (count len).toNat
  simp only [Nat.mul_zero, Nat.zero_le, min_eq_right, Nat.sub_zero,
    min_eq_left (le_count_mul len)] at hrange
  rw [all, List.flatMap_map, show List.range len.toNat = List.range' 0 len.toNat from
    List.range_eq_range', ← hrange]
  refine List.flatMap_congr fun k hk => ?_
  have hk := List.mem_range.1 hk
  have := begin_lt_of_lt_count hk
  rw [begin_nth_toNat hk, length_nth_toNat hk, min_eq_right (by omega : 16384 * k ≤ len.toNat)]
  congr 1
  omega

/-- The lookup by position gives block `i` of the piece, when the piece has one. -/
theorem get?_eq (len i : UInt32) : get? len i = (all len)[i.toNat]? := by
  unfold get?
  split
  · rename_i hi
    have hk : i.toNat < (count len).toNat := UInt32.lt_iff_toNat_lt.1 hi
    rw [List.getElem?_eq_getElem (by rw [length_all]; exact hk), getElem_all]
    simp only [Nat.toUInt32_eq, UInt32.ofNat_toNat]
  · rename_i hi
    rw [List.getElem?_eq_none]
    rw [length_all]
    exact Nat.le_of_not_lt fun h => hi (UInt32.lt_iff_toNat_lt.2 h)

/-- **The lookup by offset and length finds exactly the blocks of the piece.** -/
theorem find?_eq_some_iff {len begin length : UInt32} {b : Block} :
    find? len begin length = some b ↔ b ∈ all len ∧ b.begin = begin ∧ b.length = length := by
  constructor
  · intro h
    obtain ⟨hmod, -, hlt⟩ := find?_eq_some h
    obtain ⟨rfl, hl⟩ := find?_eq_nth h
    have hk : (begin / blockSize).toNat < (count len).toNat := UInt32.lt_iff_toNat_lt.1 hlt
    refine ⟨getElem?_all.2 ⟨hk, by rw [Nat.toUInt32_eq, UInt32.ofNat_toNat]⟩ |>
      List.mem_of_getElem?, ?_, hl⟩
    -- the block starts where `begin` points, as `begin` is a multiple of the block size
    have hbegin := begin_nth_toNat hk
    simp only [Nat.toUInt32_eq, UInt32.ofNat_toNat] at hbegin
    apply UInt32.toNat_inj.1
    rw [hbegin]
    have hmod' : begin.toNat % 16384 = 0 := by
      simpa [UInt32.toNat_mod, blockSize] using congrArg UInt32.toNat hmod
    simp only [UInt32.toNat_div, blockSize, UInt32.reduceToNat]
    omega
  · rintro ⟨hb, rfl, rfl⟩
    obtain ⟨k, hk, rfl⟩ := List.mem_iff_getElem.1 hb
    rw [length_all] at hk
    rw [getElem_all]
    have hbegin := begin_nth_toNat hk
    have hmod : (nth len k.toUInt32).begin % blockSize = 0 := by
      apply UInt32.toNat_inj.1
      simp [UInt32.toNat_mod, hbegin, blockSize]
    have hdiv : (nth len k.toUInt32).begin / blockSize = k.toUInt32 := by
      apply UInt32.toNat_inj.1
      have := count_toNat_le len
      simp [UInt32.toNat_div, hbegin, blockSize]
      omega
    have hget : get? len k.toUInt32 = some (nth len k.toUInt32) := by
      have hk32 : k.toUInt32.toNat = k := by
        have := count_toNat_le len
        rw [Nat.toUInt32_eq, UInt32.toNat_ofNat_of_lt' (by simp only [UInt32.size]; omega)]
      rw [get?_eq, hk32, List.getElem?_eq_getElem (by rw [length_all]; exact hk), getElem_all]
    simp [find?, hmod, hdiv, hget]

end Block

namespace PartialPiece

variable {P : Type}

/-- **The picker finds a block of a partial piece exactly when the disk finds it** in a piece of
the same length. -/
theorem slotAt?_isSome {pp : PartialPiece P}
    (hb : pp.slots.toList.map (·.block) = Block.all pp.length) (begin length : UInt32) :
    (pp.slotAt? begin length).isSome = (Block.find? pp.length begin length).isSome := by
  apply Bool.eq_iff_iff.2
  rw [Option.isSome_iff_exists, Option.isSome_iff_exists]
  constructor
  · rintro ⟨k, hk⟩
    obtain ⟨s, hs, rfl, rfl⟩ := block_of_slotAt? hb hk
    have hmem : s.block ∈ Block.all pp.length := by
      rw [← hb]
      exact List.mem_map_of_mem (Array.mem_toList_iff.2 (Array.mem_of_getElem? hs))
    exact ⟨s.block, Block.find?_eq_some_iff.2 ⟨hmem, rfl, rfl⟩⟩
  · rintro ⟨blk, hblk⟩
    obtain ⟨hmem, rfl, rfl⟩ := Block.find?_eq_some_iff.1 hblk
    rw [← hb] at hmem
    obtain ⟨s, hs, rfl⟩ := List.mem_map.1 hmem
    obtain ⟨k, hk, hsk⟩ := List.mem_iff_getElem.1 hs
    have hslot : pp.slots[k]? = some s := by
      rw [← Array.getElem?_toList, List.getElem?_eq_getElem hk, hsk]
    exact ⟨k, slotAt?_block hb hslot⟩

end PartialPiece

namespace Sections

/-- The total length of sections none of which is negative, when the lengths add up below
`2 ^ 63`: nothing wraps on the way. -/
theorem length_toInt_foldl : ∀ (ss : List Section) (a : Int64), 0 ≤ a.toInt →
    (∀ s ∈ ss, 0 ≤ s.length.toInt) → a.toInt + (ss.map (·.length.toInt)).sum < 2 ^ 63 →
    (ss.foldl (fun n s => n + s.length) a).toInt = a.toInt + (ss.map (·.length.toInt)).sum
  | [], _, _, _, _ => by simp
  | s :: rest, a, ha, hss, hlt => by
    simp only [List.map_cons, List.sum_cons] at hlt ⊢
    have hs := hss s List.mem_cons_self
    have hrest : 0 ≤ (rest.map (·.length.toInt)).sum :=
      List.sum_nonneg fun x hx => by
        obtain ⟨t, ht, rfl⟩ := List.mem_map.1 hx
        exact hss t (List.mem_cons_of_mem _ ht)
    have hadd : (a + s.length).toInt = a.toInt + s.length.toInt :=
      Int64.toInt_add_of_lt ha hs (by omega)
    rw [List.foldl_cons, length_toInt_foldl rest (a + s.length) (by omega)
      (fun t ht => hss t (List.mem_cons_of_mem _ ht)) (by omega), hadd]
    omega

theorem length_toInt {ss : List Section} (hss : ∀ s ∈ ss, 0 ≤ s.length.toInt)
    (hlt : (ss.map (·.length.toInt)).sum < 2 ^ 63) :
    (Sections.length ss).toInt = (ss.map (·.length.toInt)).sum := by
  have := length_toInt_foldl ss 0 (by simp) hss (by simpa using hlt)
  simpa [Sections.length] using this

/-- A range within the sections slices without error. -/
theorem slice_eq_ok {ss : List Section} {off len : Int64} (hoff : 0 ≤ off.toInt)
    (hlen : 0 ≤ len.toInt) (hle : (off + len).toInt ≤ (Sections.length ss).toInt) :
    slice ss off len = .ok (cut ss off len) := by
  unfold slice
  rw [if_neg]
  simp only [Bool.or_eq_true, decide_eq_true_eq, not_or, Int64.lt_iff_toInt_lt,
    Int64.toInt_zero, not_lt]
  exact ⟨⟨hoff, hlen⟩, hle⟩

end Sections

namespace Picker

variable {P : Type} [DecidableEq P]

/-- **A block the picker takes from a peer is a block of its piece**: the piece is one of the
torrent's, and the request names one of its blocks by offset and length. -/
theorem find?_of_markReceived {pk pk' : Picker P} (hinv : pk.Inv) {pe : P} {r : Request}
    {others : List P} (hmr : pk.markReceived pe r = .ok (true, others, pk')) :
    r.index < pk.numPieces ∧ (Block.find? (pk.pieceLength r.index) r.begin r.length).isSome := by
  rcases markReceived_cases hmr with ⟨h, -⟩ | ⟨pp, i, s, hp, hi, -⟩
  · cases h
  obtain ⟨hmem, hidx⟩ := mem_of_partial? hp
  have ht := hinv.tracks pp hmem
  rw [← hidx, ← ht.length, ← PartialPiece.slotAt?_isSome ht.sound.blocks, hi]
  exact ⟨ht.lt, rfl⟩

end Picker

namespace Disk

variable {σ : Type} (fs : FileStore σ) (st : σ)

/-- **The disk takes every block of a piece of the torrent.** For the pieces laid out from an
accepted info, a write of the data of a block of piece `index` at the block's offset finds the
block and slices the piece's sections without error: it can fail only as the files fail. -/
theorem writeBlock_ne_invalidBlock {info : Info} (ha : info.Accepted) {d : Disk}
    (hpieces : d.pieces = (info.layout info.numPieces.toNat).toArray) {index begin : UInt32}
    (hi : index < info.numPieces) {data : List UInt8} (hdata : data.length < 2 ^ 32)
    (hfind : (Block.find? (info.pieceLen index) begin data.length.toUInt32).isSome) :
    (d.writeBlock fs st index begin data).1 ≠ .error .invalidBlock := by
  have hj : index.toNat < (info.layout info.numPieces.toNat).length := by
    rw [info.length_layout]
    exact UInt32.lt_iff_toNat_lt.1 hi
  have hp : (info.layout info.numPieces.toNat)[index.toNat]? =
      some (info.layout info.numPieces.toNat)[index.toNat] := List.getElem?_eq_getElem hj
  generalize (info.layout info.numPieces.toNat)[index.toNat] = p at hp
  obtain ⟨hidx, hlen, -⟩ := info.getElem?_layout hp
  have hpidx : p.index = index := UInt32.toNat_inj.1 hidx
  obtain ⟨blk, hblk⟩ := Option.isSome_iff_exists.1 hfind
  obtain ⟨hmem, rfl, hblen⟩ := Block.find?_eq_some_iff.1 hblk
  -- the block ends within the piece, whose sections add up to its length
  have hend := Block.end_le_of_mem hmem
  have hsum := ha.sum_sections hp
  rw [hpidx] at hsum
  have hplen := (info.pieceLen index).toNat_lt
  have hsecs : (Sections.length p.sections).toInt = (info.pieceLen index).toNat := by
    rw [Sections.length_toInt
      (fun s hs => (ha.layout_bytes.2.2 p (List.mem_of_getElem? hp) s hs).le) (by omega), hsum]
  have hblen' : blk.length.toNat = data.length := by
    rw [hblen, Nat.toUInt32_eq, UInt32.toNat_ofNat_of_lt' hdata]
  have hoff : (Int64.ofNat blk.begin.toNat).toInt = blk.begin.toNat :=
    Int64.toInt_ofNat_of_lt (by have := blk.begin.toNat_lt; omega)
  have hdlen : (Int64.ofNat data.length).toInt = data.length :=
    Int64.toInt_ofNat_of_lt (by omega)
  have hslice : Sections.slice p.sections (Int64.ofNat blk.begin.toNat) (Int64.ofNat data.length) =
      .ok (Sections.cut p.sections _ _) := Sections.slice_eq_ok (by omega) (by omega) (by
    rw [Int64.toInt_add_of_lt (by omega) (by omega) (by omega), hoff, hdlen, hsecs]
    omega)
  have hpiece : d.pieces[index.toNat]? = some p := by
    rw [hpieces, List.getElem?_toArray, hp]
  -- past the lookups, only the write to the files can fail
  unfold writeBlock
  rw [hpiece]
  dsimp only
  rw [hlen, hpidx, hblk]
  dsimp only
  rw [hslice]
  dsimp only
  split <;> simp

end Disk

/-- **One block geometry for picker, disk and wire.** For every piece length, the blocks of the
piece are its length over `16384` bytes, rounded up, and cut it into consecutive ranges; block
`k` sits at position `k`, starts `16384 * k` bytes in, and has `16384` bytes unless it is the
last, which has at least one. The lookup by position gives the blocks by position, and the lookup
by offset and length finds exactly the blocks of the piece. A partial piece of the picker whose
slots are the blocks of its length finds a block exactly when the disk does. So for a torrent read
from its info dictionary, a picker and a disk laid out from it, a block the picker takes from a
peer, with the data its request names, is never refused by the disk as an invalid block. -/
theorem block_lookups_agree :
    (∀ len : UInt32,
      (Block.count len).toNat = (len.toNat + 16383) / 16384 ∧
      (Block.all len).length = (Block.count len).toNat ∧
      (Block.all len).flatMap (fun b => List.range' b.begin.toNat b.length.toNat) =
        List.range len.toNat ∧
      (∀ k b, (Block.all len)[k]? = some b →
        b.index.toNat = k ∧ b.begin.toNat = 16384 * k ∧
        (k + 1 < (Block.count len).toNat → b.length.toNat = 16384) ∧
        (k + 1 = (Block.count len).toNat → 0 < b.length.toNat)) ∧
      (∀ i, Block.get? len i = (Block.all len)[i.toNat]?) ∧
      ∀ begin length b, Block.find? len begin length = some b ↔
        b ∈ Block.all len ∧ b.begin = begin ∧ b.length = length) ∧
    (∀ {P : Type} (pp : PartialPiece P), pp.slots.toList.map (·.block) = Block.all pp.length →
      ∀ begin length,
        (pp.slotAt? begin length).isSome = (Block.find? pp.length begin length).isSome) ∧
    ∀ {b : List UInt8} {info : Info}, Info.ofBytes b = .ok info →
      ∀ {P : Type} [DecidableEq P] {pk pk' : Picker P} {pe : P} {r : Request} {others : List P},
        pk.Inv → pk.numPieces = info.numPieces → pk.pieceLength = info.pieceLen →
        pk.markReceived pe r = .ok (true, others, pk') →
        ∀ {d : Disk}, d.pieces = (info.layout info.numPieces.toNat).toArray →
        ∀ {σ : Type} (fs : FileStore σ) (st : σ) (data : List UInt8),
          data.length = r.length.toNat →
          (d.writeBlock fs st r.index r.begin data).1 ≠ .error .invalidBlock := by
  refine ⟨fun len => ⟨Block.count_toNat len, Block.length_all len, Block.flatMap_all len,
    fun k b hb => ?_, Block.get?_eq len, fun _ _ _ => Block.find?_eq_some_iff⟩,
    fun pp hb => PartialPiece.slotAt?_isSome hb, ?_⟩
  · obtain ⟨hk, rfl⟩ := Block.getElem?_all.1 hb
    obtain ⟨hidx, hbegin, hnext, hlast⟩ := Block.nth_spec hk
    have := Block.count_toNat_le len
    refine ⟨?_, hbegin, hnext, fun h => (hlast h).1⟩
    rw [hidx, Nat.toUInt32_eq, UInt32.toNat_ofNat_of_lt' (by simp only [UInt32.size]; omega)]
  · intro b info h P _ pk pk' pe r others hinv hn hlen hmr d hpieces σ fs st data hdata
    obtain ⟨hi, hfind⟩ := Picker.find?_of_markReceived hinv hmr
    have hr := r.length.toNat_lt
    have hdata' : data.length.toUInt32 = r.length := by
      rw [hdata, Nat.toUInt32_eq, UInt32.ofNat_toNat]
    rw [hn] at hi
    rw [hlen, ← hdata'] at hfind
    exact Disk.writeBlock_ne_invalidBlock fs st (Info.accepted_of_ofBytes h) hpieces hi
      (by omega) hfind

end BitTorrent
