import BitTorrent.Proofs.Torrent.Pipeline
import BitTorrent.Proofs.Piece.Layout

/-!
# What a started download holds

A download that starts opens its files (`Disk.create`), scans them, and builds a picker with the
pieces found intact as verified; blocks written in an earlier run, as the saved state lists them,
are marked written on the disk and received in the picker together (`Download.restorePartial`).

* `Disk.create_eq_ok`: the disk lays out every piece of the torrent and has nothing written.
* `Download.Restored`: the disk's record of written blocks is the picker's received blocks, and
  no block is requested; `Restored.restore` keeps it over the saved state.
* `Download.start_restored`: a stopped download that starts without an error downloads or seeds,
  with its bitfield the picker's verified pieces and its disk and picker `Restored`.
-/

namespace BitTorrent

namespace Disk

variable {σ : Type} {d : Disk}

/-- A disk just opened lays out every piece and has nothing written. -/
theorem create_eq_ok {fs : FileStore σ} {info : Info} {c : Int} {st st' : σ}
    (h : Disk.create fs info c st = (.ok d, st')) :
    d.pieces = (info.layout info.numPieces.toNat).toArray ∧ d.written = [] := by
  unfold create at h
  split at h
  · cases h
  · simp only [Prod.mk.injEq, Except.ok.injEq] at h
    rw [← h.1]
    exact ⟨rfl, rfl⟩

theorem not_written_of_nil (hw : d.written = []) (i : UInt32) (k : Nat) : ¬ d.Written i k := by
  rintro ⟨bf, hbf, -⟩
  simp [writtenOf, hw] at hbf

theorem writtenWF_of_nil (hw : d.written = []) : d.WrittenWF := by
  intro i bf hbf
  simp [writtenOf, hw] at hbf

variable {info : Info}

/-- The pieces of a torrent's layout sit at their own indexes. -/
theorem indexed_of_layout (h : d.pieces = (info.layout info.numPieces.toNat).toArray) :
    d.Indexed := by
  intro k p hp
  rw [h, List.getElem?_toArray] at hp
  exact (info.getElem?_layout hp).1

/-- A piece of a torrent's layout has the blocks of the torrent's piece length at its index. -/
theorem numBlocks_of_layout (h : d.pieces = (info.layout info.numPieces.toNat).toArray)
    {i : UInt32} {p : PieceLayout} (hp : d.pieces[i.toNat]? = some p) :
    p.index = i ∧ p.numBlocks = Block.count (info.pieceLen i) := by
  have hpi := (indexed_of_layout h).index_eq hp
  rw [h, List.getElem?_toArray] at hp
  refine ⟨hpi, ?_⟩
  rw [PieceLayout.numBlocks, (info.getElem?_layout hp).2.1, hpi]

theorem size_of_layout (h : d.pieces = (info.layout info.numPieces.toNat).toArray) :
    d.pieces.size = info.numPieces.toNat := by
  rw [h, List.size_toArray, Info.length_layout]

end Disk

namespace Torrent

namespace Download

variable {σ : Type} {d d' : Download σ} {info : Info} {bf : Bitfield} {disk : Disk}
  {pk : Picker String}

/-- The disk's record of written blocks is the picker's received blocks, and no block is
requested: so it is while the saved state is restored, before any peer is asked. -/
structure Restored (info : Info) (bf : Bitfield) (disk : Disk) (pk : Picker String) : Prop where
  inv : pk.Inv
  unrequested : pk.Unrequested
  numPieces : pk.numPieces = info.numPieces
  pieceLength : pk.pieceLength = info.pieceLen
  verified : pk.verified = bf
  pieces : disk.pieces = (info.layout info.numPieces.toNat).toArray
  wf : disk.WrittenWF
  agree : ∀ i k, disk.Written i k ↔ pk.Received i k

/-- A new picker and a disk with nothing written agree. -/
theorem restored_new (hpos : ∀ i, i < info.numPieces → 0 < info.pieceLen i) (ranker : Ranker)
    (hpieces : disk.pieces = (info.layout info.numPieces.toNat).toArray) (hw : disk.written = []) :
    Restored info bf disk (Picker.new info.numPieces info.pieceLen bf ranker) := by
  refine ⟨Picker.new_inv hpos bf ranker, Picker.unrequested_new _ _ _ _, rfl, rfl, rfl, hpieces,
    Disk.writtenWF_of_nil hw, fun i k => iff_of_false (Disk.not_written_of_nil hw i k) ?_⟩
  rintro ⟨pp, hp, -⟩
  simp [Picker.partial?, Picker.new] at hp

/-- Restoring one block of an unverified piece marks it on the disk and in the picker alike. -/
theorem Restored.block (h : Restored info bf disk pk) {index begin : UInt32}
    (hlt : index < info.numPieces) (hv : bf.getD index = false) {disk' : Disk}
    (hb : disk.restoreBlock index begin = (true, disk')) {b : Bool} {pk' : Picker String}
    (hr : pk.restoreReceived index begin = .ok (b, pk')) : Restored info bf disk' pk' := by
  rcases Disk.restoreBlock_cases hb with ⟨hf, -⟩ | ⟨-, p, hp, hmod, hk, rfl⟩
  · cases hf
  obtain ⟨hpi, hnb⟩ := Disk.numBlocks_of_layout h.pieces hp
  have hk' : (begin / blockSize).toNat < (Block.count (pk.pieceLength index)).toNat := by
    rw [h.pieceLength, ← hnb]
    exact UInt32.lt_iff_toNat_lt.1 hk
  obtain ⟨hn, hl, hver, hrec⟩ := Picker.received_restoreReceived h.inv h.unrequested hr
    (h.numPieces ▸ hlt) (h.verified ▸ hv) hmod hk'
  have hp' : disk.pieces[p.index.toNat]? = some p := hpi ▸ hp
  refine ⟨h.inv.restoreReceived hr, h.unrequested.restoreReceived h.inv hr,
    hn.trans h.numPieces, hl.trans h.pieceLength, hver.trans h.verified, h.pieces,
    h.wf.markWritten hp' _, fun i k => ?_⟩
  rw [Disk.written_markWritten h.wf hp' hk, hrec, h.agree, hpi]

/-- Restoring the saved state keeps the disk and the picker agreeing. -/
theorem Restored.restore (h : Restored info bf disk pk) {pending : List Resume.PartialPiece} {res : Disk × Picker String}
    (hr : restorePartial info.numPieces info.pieceLen bf disk pk pending = .ok res) :
    Restored info bf res.1 res.2 := by
  unfold Download.restorePartial at hr
  refine List.foldlM_except_inv (Q := fun x => Restored info bf x.1 x.2) ?_ pending _ _ h hr
  rintro ⟨disk, pk⟩ pp c hQ hstep
  dsimp only at hstep
  split at hstep
  · rw [Except.pure_eq_ok] at hstep
    exact hstep ▸ hQ
  rename_i hge
  have hlt : pp.index < info.numPieces := UInt32.not_le.1 hge
  rw [Except.bind_eq_ok] at hstep
  obtain ⟨t, ht, hstep⟩ := hstep
  split at hstep
  · rw [Except.pure_eq_ok] at hstep
    exact hstep ▸ hQ
  rename_i hnot
  have hv : bf.getD pp.index = false := by
    rw [Bitfield.getD_of_test_eq_ok ht]
    simpa using hnot
  split at hstep
  · rw [Except.pure_eq_ok] at hstep
    exact hstep ▸ hQ
  -- the blocks of the piece, one after another
  refine List.foldlM_except_inv (Q := fun x => Restored info bf x.1 x.2) ?_ pp.blocks _ _ hQ
    hstep
  rintro ⟨disk, pk⟩ begin c hQ hblk
  dsimp only at hblk
  rcases hres : disk.restoreBlock pp.index begin with ⟨ok, disk'⟩
  rw [hres] at hblk
  cases ok with
  | false =>
    -- a block of no piece is skipped, on the disk as in the picker
    rcases Disk.restoreBlock_cases hres with ⟨-, rfl⟩ | ⟨hf, -⟩
    · simp only [Bool.not_false, ↓reduceIte, Except.pure_eq_ok] at hblk
      exact hblk ▸ hQ
    · cases hf
  | true =>
    simp only [Bool.not_true, Bool.false_eq_true, ↓reduceIte] at hblk
    rw [Except.bind_eq_ok] at hblk
    obtain ⟨⟨b, pk'⟩, hr, hblk⟩ := hblk
    rw [Except.pure_eq_ok] at hblk
    exact hblk ▸ hQ.block hlt hv hres hr

theorem dialAddresses_eq (d : Download σ) :
    ∃ dl q, d.dialAddresses = { d with dialed := dl, queue := q } := by
  unfold dialAddresses
  split
  · exact ⟨d.dialed, d.queue, rfl⟩
  · exact ⟨_, _, rfl⟩

@[simp] theorem picker_dialAddresses (d : Download σ) : d.dialAddresses.picker = d.picker := by
  obtain ⟨_, _, h⟩ := dialAddresses_eq d
  rw [h]

@[simp] theorem disk_dialAddresses (d : Download σ) : d.dialAddresses.disk = d.disk := by
  obtain ⟨_, _, h⟩ := dialAddresses_eq d
  rw [h]

@[simp] theorem bitfield_dialAddresses (d : Download σ) :
    d.dialAddresses.bitfield = d.bitfield := by
  obtain ⟨_, _, h⟩ := dialAddresses_eq d
  rw [h]

@[simp] theorem status_dialAddresses (d : Download σ) : d.dialAddresses.status = d.status := by
  obtain ⟨_, _, h⟩ := dialAddresses_eq d
  rw [h]

@[simp] theorem info_dialAddresses (d : Download σ) : d.dialAddresses.info = d.info := by
  obtain ⟨_, _, h⟩ := dialAddresses_eq d
  rw [h]

@[simp] theorem lastErr_dialAddresses (d : Download σ) : d.dialAddresses.lastErr = d.lastErr := by
  obtain ⟨_, _, h⟩ := dialAddresses_eq d
  rw [h]

@[simp] theorem completed_dialAddresses (d : Download σ) :
    d.dialAddresses.completed = d.completed := by
  obtain ⟨_, _, h⟩ := dialAddresses_eq d
  rw [h]

@[simp] theorem closed_dialAddresses (d : Download σ) : d.dialAddresses.closed = d.closed := by
  obtain ⟨_, _, h⟩ := dialAddresses_eq d
  rw [h]

/-- A verification that does not fail leaves the download downloading or seeding, with a bit
per piece, the picker's verified pieces, and a disk and picker that agree. -/
theorem verify_restored (h : d.verify disk = .ok d') (hst : d.status ≠ .stopped)
    (hnone : d'.lastErr = none) (hpos : ∀ i, i < d.info.numPieces → 0 < d.info.pieceLen i)
    (hpieces : disk.pieces = (d.info.layout d.info.numPieces.toNat).toArray)
    (hw : disk.written = []) :
    ∃ pk disk' bf, d'.picker = some pk ∧ d'.disk = some disk' ∧ d'.bitfield = some bf ∧
      (d'.status = .downloading ∨ d'.status = .seeding) ∧ d'.info = d.info ∧
      bf.length = d.info.numPieces ∧ Restored d.info bf disk' pk := by
  unfold verify at h
  obtain ⟨⟨r, progress⟩, hs⟩ : ∃ x, disk.scan d.fs d.store false = x := ⟨_, rfl⟩
  have hscan : (∃ bf, (disk.scan d.fs d.store false).1 = .ok bf ∧
      bf.length = disk.pieces.size.toUInt32) ∨
      ∃ e, (disk.scan d.fs d.store false).1 = .error (.disk e) := Disk.scan_ok_or_disk
  rw [hs] at h hscan
  dsimp only at h hscan
  rcases hscan with ⟨bf, rfl, hlen⟩ | ⟨e, rfl⟩
  · have hlen' : bf.length = d.info.numPieces := by
      rw [hlen, Disk.size_of_layout hpieces, Nat.toUInt32_eq, UInt32.ofNat_toNat]
    have hnew : Restored d.info bf disk (Picker.new d.info.numPieces d.info.pieceLen bf d.ranker) :=
      restored_new hpos d.ranker hpieces hw
    dsimp only at h
    split at h
    all_goals
      rw [Except.bind_eq_ok] at h
      obtain ⟨⟨disk1, pk1⟩, hrp, h⟩ := h
    on_goal 2 =>
      rw [Except.pure_eq_ok] at hrp
      cases hrp
    on_goal 1 => replace hnew := hnew.restore hrp
    all_goals
      simp only [Except.pure_eq_ok] at h
      subst h
      simp only [picker_dialAddresses, disk_dialAddresses, bitfield_dialAddresses,
        status_dialAddresses, info_dialAddresses]
      split
      · exact ⟨_, _, bf, rfl, rfl, rfl, .inr rfl, rfl, hlen', hnew⟩
      · exact ⟨_, _, bf, rfl, rfl, rfl, .inl rfl, rfl, hlen', hnew⟩
  · -- a failed scan fails the download
    dsimp only at h
    simp only [Except.pure_eq_ok] at h
    have := lastErr_fail_isSome (d := { d with checked := progress.getLastD d.checked }) hst
      (.disk e)
    rw [h, hnone] at this
    cases this

/-- A stopped download that starts without an error, and has not failed, downloads or seeds,
with a bit per piece, its bitfield the picker's verified pieces, and a disk laid out for the
torrent that agrees with the picker. -/
theorem start_restored (hstop : d.status = .stopped) (h : d.start = .ok (none, d'))
    (hnone : d'.lastErr = none) (hpos : ∀ i, i < d.info.numPieces → 0 < d.info.pieceLen i) :
    ∃ pk disk bf, d'.picker = some pk ∧ d'.disk = some disk ∧ d'.bitfield = some bf ∧
      (d'.status = .downloading ∨ d'.status = .seeding) ∧ d'.info = d.info ∧
      bf.length = d.info.numPieces ∧ Restored d.info bf disk pk := by
  unfold start at h
  split at h
  · simp only [Except.pure_eq_ok, Prod.mk.injEq, reduceCtorEq, false_and] at h
  split at h
  · rename_i hst
    simp [hstop] at hst
  split at h
  · simp only [Except.pure_eq_ok, Prod.mk.injEq, reduceCtorEq, false_and] at h
  rename_i disk store hcreate
  obtain ⟨hpieces, hw⟩ := Disk.create_eq_ok hcreate
  dsimp only at h
  split at h
  · simp only [Except.pure_eq_ok, Prod.mk.injEq, reduceCtorEq, false_and] at h
  rw [Except.bind_eq_ok] at h
  obtain ⟨d2, hv, h⟩ := h
  simp only [Except.pure_eq_ok, Prod.mk.injEq, true_and] at h
  subst h
  exact (verify_restored hv (by simp) hnone hpos hpieces hw :)

end Download

end Torrent

end BitTorrent
