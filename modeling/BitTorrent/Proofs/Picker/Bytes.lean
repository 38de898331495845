import BitTorrent.Proofs.Picker.Received

/-!
# The bytes of the received blocks

A received block holds data that was downloaded and is not yet verified. `Picker.receivedBytes`
adds up the lengths of the received blocks over the pieces of the torrent, piece by piece
(`Picker.pieceBytes`), each block with the length the block layout of its piece gives it.

* The blocks of a piece cut it into consecutive ranges, so a piece whose blocks are all received
  holds its whole length (`Block.sum_length_nth`, `pieceBytes_of_allReceived`).
* The operations that keep the received blocks keep their bytes (`receivedBytes_of_keeps`).
* An answer that wins adds the length of its block, which is the length its request names
  (`receivedBytes_markReceived`).
* Dropping a partial piece takes its bytes away (`receivedBytes_removePartial`).
-/

namespace BitTorrent

/-- Two sums over the same indexes whose terms agree off the index `j` differ by the terms at
`j`. -/
theorem Finset.sum_add_of_agree_off {s : Finset ℕ} {f g : ℕ → ℕ} {j : ℕ} (hj : j ∈ s)
    (h : ∀ i ∈ s, i ≠ j → f i = g i) : ∑ i ∈ s, f i + g j = ∑ i ∈ s, g i + f j := by
  have hf := Finset.add_sum_erase s f hj
  have hg := Finset.add_sum_erase s g hj
  have hrest : ∑ i ∈ s.erase j, f i = ∑ i ∈ s.erase j, g i :=
    Finset.sum_congr rfl fun i hi => h i (Finset.mem_of_mem_erase hi) (Finset.ne_of_mem_erase hi)
  omega

/-- A number below `2 ^ 32` other than the value of a word is taken to another word. -/
theorem Nat.toUInt32_ne_of_ne {i : ℕ} {j : UInt32} (hi : i < 2 ^ 32) (h : i ≠ j.toNat) :
    i.toUInt32 ≠ j := by
  intro heq
  apply h
  rw [← heq, Nat.toUInt32_eq, UInt32.toNat_ofNat_of_lt' hi]

namespace Block

/-- A block of a piece starts before the piece ends. -/
theorem begin_lt_of_lt_count {len : UInt32} {k : ℕ} (hk : k < (count len).toNat) :
    k * 16384 < len.toNat := by
  have := len.toNat_lt
  unfold count blockSize at hk
  split at hk
  · rename_i hmod
    simp only [bne_iff_ne, ne_eq] at hmod
    have hmod' : len.toNat % 16384 ≠ 0 := fun h0 =>
      hmod (UInt32.toNat_inj.1 (by simpa [UInt32.toNat_mod] using h0))
    simp [UInt32.toNat_add, UInt32.toNat_div] at hk
    omega
  · rename_i hmod
    simp only [bne_iff_ne, ne_eq, Decidable.not_not] at hmod
    have hmod' : len.toNat % 16384 = 0 := by
      simpa [UInt32.toNat_mod] using congrArg UInt32.toNat hmod
    simp [UInt32.toNat_div] at hk
    omega

/-- The blocks of a piece reach its end. -/
theorem le_count_mul (len : UInt32) : len.toNat ≤ 16384 * (count len).toNat := by
  have := len.toNat_lt
  unfold count blockSize
  split
  · simp [UInt32.toNat_add, UInt32.toNat_div]
    omega
  · rename_i hmod
    simp only [bne_iff_ne, ne_eq, Decidable.not_not] at hmod
    have hmod' : len.toNat % 16384 = 0 := by
      simpa [UInt32.toNat_mod] using congrArg UInt32.toNat hmod
    simp [UInt32.toNat_div]
    omega

/-- Block `k` of a piece is the part of the piece between `k` and `k + 1` block sizes. -/
theorem length_nth_toNat {len : UInt32} {k : ℕ} (hk : k < (count len).toNat) :
    (nth len k.toUInt32).length.toNat =
      min len.toNat (16384 * (k + 1)) - min len.toNat (16384 * k) := by
  have hbegin := begin_nth_toNat hk
  have hlt := begin_lt_of_lt_count hk
  -- the rest of the piece from the block on does not wrap
  have hrest : (len - (nth len k.toUInt32).begin).toNat = len.toNat - k * 16384 := by
    rw [UInt32.toNat_sub_of_le _ _ (UInt32.le_iff_toNat_le.2 (by omega)), hbegin]
  simp only [nth] at hrest ⊢
  split
  · rename_i hsmall
    rw [UInt32.lt_iff_toNat_lt, hrest] at hsmall
    rw [hrest]
    simp [blockSize] at hsmall
    omega
  · rename_i hbig
    rw [UInt32.lt_iff_toNat_lt, hrest] at hbig
    simp [blockSize] at hbig ⊢
    omega

/-- **The blocks of a piece add up to the piece.** -/
theorem sum_length_nth (len : UInt32) :
    ∑ k ∈ Finset.range (count len).toNat, (nth len k.toUInt32).length.toNat = len.toNat := by
  have hmono : Monotone fun k => min len.toNat (16384 * k) :=
    fun a b hab => min_le_min_left _ (Nat.mul_le_mul_left _ hab)
  rw [Finset.sum_congr rfl fun k hk => length_nth_toNat (Finset.mem_range.1 hk),
    Finset.sum_range_tsub hmono]
  simp [le_count_mul len]

end Block

namespace Picker

variable {P : Type}

theorem received_iff_any {pk : Picker P} {i : UInt32} {k : ℕ} :
    pk.Received i k ↔
      ((pk.partial? i).any fun pp => pp.slots[k]?.any (·.state == .received)) = true := by
  simp [Received, PartialPiece.ReceivedAt, Option.any_eq_true]

instance (pk : Picker P) (i : UInt32) (k : ℕ) : Decidable (pk.Received i k) :=
  decidable_of_iff _ received_iff_any.symm

/-- The bytes of the received blocks of piece `i`. -/
def pieceBytes (pk : Picker P) (i : UInt32) : ℕ :=
  ∑ k ∈ Finset.range (Block.count (pk.pieceLength i)).toNat,
    if pk.Received i k then (Block.nth (pk.pieceLength i) k.toUInt32).length.toNat else 0

/-- The bytes of the received blocks of every piece: downloaded and not yet verified. -/
def receivedBytes (pk : Picker P) : ℕ :=
  ∑ i ∈ Finset.range pk.numPieces.toNat, pk.pieceBytes i.toUInt32

theorem pieceBytes_congr {pk pk' : Picker P} {i : UInt32} (hl : pk'.pieceLength = pk.pieceLength)
    (hr : ∀ k, pk'.Received i k ↔ pk.Received i k) : pk'.pieceBytes i = pk.pieceBytes i := by
  unfold pieceBytes
  rw [hl]
  exact Finset.sum_congr rfl fun k _ => if_congr (hr k) rfl rfl

/-- The operations that keep the received blocks keep their bytes. -/
theorem receivedBytes_of_keeps {pk pk' : Picker P} (h : Keeps pk pk') :
    pk'.receivedBytes = pk.receivedBytes := by
  unfold receivedBytes
  rw [h.numPieces]
  exact Finset.sum_congr rfl fun i _ => pieceBytes_congr h.pieceLength (h.received _)

/-- A piece whose blocks are all received holds its whole length. -/
theorem pieceBytes_of_allReceived {pk : Picker P} {i : UInt32} (h : pk.AllReceived i) :
    pk.pieceBytes i = (pk.pieceLength i).toNat := by
  unfold pieceBytes
  rw [← Block.sum_length_nth (pk.pieceLength i)]
  refine Finset.sum_congr rfl fun k hk => ?_
  exact if_pos (h k (Finset.mem_range.1 hk))

/-- Forgetting the received blocks of piece `j` takes its bytes away. -/
theorem receivedBytes_forget {pk pk' : Picker P} {j : UInt32} (hj : j < pk.numPieces)
    (hn : pk'.numPieces = pk.numPieces) (hl : pk'.pieceLength = pk.pieceLength)
    (hr : ∀ i k, pk'.Received i k ↔ pk.Received i k ∧ i ≠ j) :
    pk'.receivedBytes + pk.pieceBytes j = pk.receivedBytes := by
  have hj' : j.toNat ∈ Finset.range pk.numPieces.toNat :=
    Finset.mem_range.2 (UInt32.lt_iff_toNat_lt.1 hj)
  have hzero : pk'.pieceBytes j = 0 := by
    unfold pieceBytes
    refine Finset.sum_eq_zero fun k _ => ?_
    exact if_neg fun h => ((hr j k).1 h).2 rfl
  have hsum := Finset.sum_add_of_agree_off hj'
    (f := fun i => pk'.pieceBytes i.toUInt32) (g := fun i => pk.pieceBytes i.toUInt32)
    fun i hi hne => pieceBytes_congr hl fun k => by
      have hi32 := Nat.toUInt32_ne_of_ne
        ((Finset.mem_range.1 hi).trans pk.numPieces.toNat_lt) hne
      rw [hr]
      exact and_iff_left hi32
  have hjj : j.toNat.toUInt32 = j := UInt32.ofNat_toNat
  simp only [hjj, hzero, add_zero] at hsum
  rw [receivedBytes, hn, hsum]
  rfl

/-- Receiving block `K` of piece `j`, not received before, adds its length. -/
theorem receivedBytes_receive {pk pk' : Picker P} {j : UInt32} {K : ℕ} (hj : j < pk.numPieces)
    (hK : K < (Block.count (pk.pieceLength j)).toNat) (hnot : ¬ pk.Received j K)
    (hn : pk'.numPieces = pk.numPieces) (hl : pk'.pieceLength = pk.pieceLength)
    (hr : ∀ i k, pk'.Received i k ↔ pk.Received i k ∨ (i = j ∧ k = K)) :
    pk'.receivedBytes = pk.receivedBytes + (Block.nth (pk.pieceLength j) K.toUInt32).length.toNat := by
  -- the piece gains the block's bytes
  have hpiece : pk'.pieceBytes j = pk.pieceBytes j +
      (Block.nth (pk.pieceLength j) K.toUInt32).length.toNat := by
    have hsum := Finset.sum_add_of_agree_off (Finset.mem_range.2 hK)
      (f := fun k => if pk'.Received j k then
        (Block.nth (pk.pieceLength j) k.toUInt32).length.toNat else 0)
      (g := fun k => if pk.Received j k then
        (Block.nth (pk.pieceLength j) k.toUInt32).length.toNat else 0)
      fun k _ hne => if_congr (by simp [hr, hne]) rfl rfl
    have hK' : pk'.Received j K := (hr j K).2 (.inr ⟨rfl, rfl⟩)
    simp only [hK', hnot, ↓reduceIte, add_zero] at hsum
    unfold pieceBytes
    rw [hl, hsum]
  -- the other pieces keep theirs
  have hsum := Finset.sum_add_of_agree_off (Finset.mem_range.2 (UInt32.lt_iff_toNat_lt.1 hj))
    (f := fun i => pk'.pieceBytes i.toUInt32) (g := fun i => pk.pieceBytes i.toUInt32)
    fun i hi hne => pieceBytes_congr hl fun k => by
      have hi32 := Nat.toUInt32_ne_of_ne
        ((Finset.mem_range.1 hi).trans pk.numPieces.toNat_lt) hne
      simp [hr, hi32]
  have hjj : j.toNat.toUInt32 = j := UInt32.ofNat_toNat
  simp only [hjj, hpiece] at hsum
  unfold receivedBytes
  rw [hn]
  omega

section

variable [DecidableEq P]

/-- An answer that wins names a block of a piece of the torrent, with that block's length. -/
theorem length_of_markReceived {pk pk' : Picker P} (h : pk.Inv) {pe : P} {r : Request}
    {others : List P} (hr : pk.markReceived pe r = .ok (true, others, pk')) :
    r.index < pk.numPieces ∧
      r.length = (Block.nth (pk.pieceLength r.index) (r.begin / blockSize).toNat.toUInt32).length := by
  rcases markReceived_cases hr with ⟨h, -⟩ | ⟨pp, i, s, hp, hi, -, -, -, -, -, -⟩
  · cases h
  obtain ⟨hpp, hidx⟩ := mem_of_partial? hp
  have ht := h.tracks pp hpp
  obtain ⟨s', hs', -, hlen⟩ := PartialPiece.block_of_slotAt? ht.sound.blocks hi
  obtain ⟨-, hnth⟩ := PartialPiece.block_of_getElem? ht.sound.blocks hs'
  obtain ⟨-, rfl⟩ := PartialPiece.slotAt?_eq_some hi
  refine ⟨hidx ▸ ht.lt, ?_⟩
  rw [← hlen, ← hnth, ht.length, hidx]

/-- **An answer that wins adds the length of its request** to the received bytes. -/
theorem receivedBytes_markReceived {pk pk' : Picker P} (h : pk.Inv) {pe : P} {r : Request}
    {others : List P} (hr : pk.markReceived pe r = .ok (true, others, pk')) :
    pk'.receivedBytes = pk.receivedBytes + r.length.toNat := by
  obtain ⟨-, hnot, hrec, hn, hl, -⟩ := received_markReceived hr
  obtain ⟨hlt, hlen⟩ := length_of_markReceived h hr
  have hK : (r.begin / blockSize).toNat < (Block.count (pk.pieceLength r.index)).toNat := by
    rw [← hl]
    exact (h.markReceived hr).lt_of_received ((hrec _ _).2 (.inr ⟨rfl, rfl⟩))
  rw [receivedBytes_receive hlt hK hnot hn hl hrec, ← hlen]

end

/-- **Dropping a partial piece takes its bytes away.** -/
theorem receivedBytes_removePartial (pk : Picker P) {j : UInt32} (hj : j < pk.numPieces) :
    (pk.removePartial j).receivedBytes + pk.pieceBytes j = pk.receivedBytes :=
  receivedBytes_forget hj rfl rfl (received_removePartial pk j)

end Picker

end BitTorrent
