import BitTorrent.Proofs.Torrent.Resume
import BitTorrent.Proofs.Torrent.Lifecycle
import BitTorrent.Proofs.Torrent.Counters
import BitTorrent.Proofs.Disk.Intact

/-!
# Verified pieces stay intact

A download sets the bit of a piece when the scan at its start read the piece whole and matching
its digest, or when the check of a piece it completed passed. This module proves that the bit
keeps that meaning while the download runs. Start a stopped download of a torrent whose files
have distinct paths, and run any interleaving of the sessions' operations with the steps of
taking blocks; while the download has not failed, every piece set in its bitfield reads whole
from the files of the store and matches its digest, and no write in flight, selection or reset
touches it again (`Pipeline.verified_pieces_intact`).

The argument is the claim before each write. A block is written only after the picker took it,
and the picker takes blocks of partial pieces only, which are never verified; a piece that passed
its check is the only one of its piece in flight (`Pipeline.Agree`). So every write in flight is
to a piece whose bit is clear and which waits for no verdict, and a write changes the store only
within its own piece's sections, which share no byte with another piece's when the files have
distinct paths (`Disk.readPiece_writeBlock_of_layout`). `Pipeline.Kept` is the invariant: the
pieces set in the bitfield are intact, and so are the pieces that passed their check and wait to
be verified. It holds after a start (`Pipeline.kept_start`) and every step keeps it
(`Pipeline.Kept.step`).

Two files of one path are one file of the store. Over such a torrent the write of the second
piece lands on the first piece's byte after the first piece was verified, and the first piece
stays set with bytes that do not match its digest (`Pipeline.twin_files_overwrite_verified`).
-/

namespace BitTorrent.Torrent

namespace Download

variable {σ : Type} {d d' : Download σ}

/-- Piece `i` of the torrent, as its layout places it, reads whole from the files of the store
and matches its digest. -/
def PieceIntact (d : Download σ) (i : UInt32) : Prop :=
  ∃ disk p, d.disk = some disk ∧ (d.info.layout d.info.numPieces.toNat)[i.toNat]? = some p ∧
    disk.Intact d.fs d.store p

/-- A change of a download that keeps its torrent, its store of files and the names of the
files of its disk. -/
structure SameFiles (d d' : Download σ) : Prop where
  info : d'.info = d.info
  fs : d'.fs = d.fs
  store : d'.store = d.store
  names : d'.disk.map Disk.names = d.disk.map Disk.names

theorem PieceIntact.of_sameFiles {i : UInt32} (h : d.PieceIntact i) (hs : SameFiles d d') :
    d'.PieceIntact i := by
  obtain ⟨disk, p, hd, hp, hi⟩ := h
  have hn := hs.names
  rw [hd, Option.map_some] at hn
  obtain ⟨disk', hd', hnames⟩ := Option.map_eq_some_iff.1 hn
  refine ⟨disk', p, hd', by rw [hs.info]; exact hp, ?_⟩
  rw [hs.fs, hs.store]
  exact hi.of_names hnames

/-! ## The sessions' operations keep the files -/

theorem sameFiles_requestWork {name : String} {n : Int} {rs : List Request}
    (h : d.requestWork name n = .ok (rs, d')) : SameFiles d d' := by
  rcases requestWork_eq h with ⟨-, rfl⟩ | ⟨_, _, _, -, -, -, -, -, rfl⟩ <;> exact ⟨rfl, rfl, rfl, rfl⟩

theorem sameFiles_cancelRequests {name : String} {rs : List Request}
    (h : d.cancelRequests name rs = .ok d') : SameFiles d d' := by
  rcases cancelRequests_eq h with rfl | ⟨_, _, -, -, rfl⟩ <;> exact ⟨rfl, rfl, rfl, rfl⟩

theorem sameFiles_reportHave {name : String} {i : UInt32} {b : Bool}
    (h : d.reportHave name i = .ok (b, d')) : SameFiles d d' := by
  rcases reportHave_eq h with rfl | ⟨_, _, _, _, -, -, -, -, rfl⟩ <;> exact ⟨rfl, rfl, rfl, rfl⟩

theorem sameFiles_reportBitfield {name : String} {bf : Bitfield} {b : Bool}
    (h : d.reportBitfield name bf = .ok (b, d')) : SameFiles d d' := by
  rcases reportBitfield_eq h with rfl | ⟨_, _, _, _, -, -, -, -, rfl⟩ <;>
    exact ⟨rfl, rfl, rfl, rfl⟩

theorem sameFiles_peerConnected {name : String} {id : List UInt8} {outgoing : Bool}
    {ours : Option Bitfield} (h : d.peerConnected name id outgoing = (ours, d')) :
    SameFiles d d' := by
  rcases peerConnected_eq h with ⟨-, rfl⟩ | ⟨_, -, -, rfl⟩ <;> exact ⟨rfl, rfl, rfl, rfl⟩

theorem sameFiles_peerDisconnected {name : String} (h : d.peerDisconnected name = .ok d') :
    SameFiles d d' := by
  rcases peerDisconnected_eq h with ⟨-, rfl⟩ | ⟨_, _, _, _, _, _, -, -, -, -, -, rfl⟩ <;>
    exact ⟨rfl, rfl, rfl, rfl⟩

theorem sameFiles_claimBlock {name : String} {r : Request} {data : List UInt8} {ok : Bool}
    (h : d.claimBlock name r data = .ok (ok, d')) : SameFiles d d' := by
  rcases claimBlock_eq h with ⟨-, rfl⟩ | ⟨_, _, _, -, -, -, ⟨-, rfl⟩ | ⟨-, rfl⟩⟩ <;>
    exact ⟨rfl, rfl, rfl, rfl⟩

/-- Work handed out by a download whose picker keeps its invariant is of no verified piece. -/
theorem requestWork_unverified {pk : Picker String} (hpk : d.picker = some pk) (hinv : pk.Inv)
    {name : String} {n : Int} {rs : List Request} (h : d.requestWork name n = .ok (rs, d')) :
    ∀ r ∈ rs, pk.verified.getD r.index = false := by
  rcases requestWork_eq h with ⟨rfl, -⟩ | ⟨_, pk₀, _, -, -, -, hpk₀, hsel, -⟩
  · exact fun r hr => absurd hr List.not_mem_nil
  · rw [hpk] at hpk₀
    cases hpk₀
    exact hinv.select_unverified hsel

@[simp] theorem bitfield_fail (d : Download σ) (e : Disk.Failure) :
    (d.fail e).bitfield = d.bitfield := by
  unfold fail
  split <;> simp

/-! ## Starting -/

@[simp] theorem fs_dialAddresses (d : Download σ) : d.dialAddresses.fs = d.fs := by
  obtain ⟨_, _, h⟩ := dialAddresses_eq d
  rw [h]

@[simp] theorem store_dialAddresses (d : Download σ) : d.dialAddresses.store = d.store := by
  obtain ⟨_, _, h⟩ := dialAddresses_eq d
  rw [h]

/-- Restoring the saved state marks blocks written and keeps the names of the files. -/
theorem names_restorePartial {numPieces : UInt32} {pieceLen : UInt32 → UInt32} {bf : Bitfield}
    {disk : Disk} {pk : Picker String} {pending : List Resume.PartialPiece}
    {res : Disk × Picker String}
    (h : restorePartial numPieces pieceLen bf disk pk pending = .ok res) :
    res.1.names = disk.names := by
  rw [restorePartial_eq] at h
  refine List.foldlM_except_inv (Q := fun x : Disk × Picker String => x.1.names = disk.names)
    ?_ pending _ _ rfl h
  rintro ⟨disk₁, pk₁⟩ pp c hQ hpiece
  dsimp only [restorePiece] at hpiece
  -- an entry that is skipped keeps the pair; otherwise its blocks are restored one by one
  split at hpiece
  · rw [Except.pure_eq_ok] at hpiece
    exact hpiece ▸ hQ
  rw [Except.bind_eq_ok] at hpiece
  obtain ⟨t, -, hpiece⟩ := hpiece
  split at hpiece
  · rw [Except.pure_eq_ok] at hpiece
    exact hpiece ▸ hQ
  split at hpiece
  · rw [Except.pure_eq_ok] at hpiece
    exact hpiece ▸ hQ
  refine List.foldlM_except_inv (Q := fun x : Disk × Picker String => x.1.names = disk.names)
    ?_ pp.blocks _ _ hQ hpiece
  rintro ⟨disk₂, pk₂⟩ begin c hQ hone
  dsimp only [restoreOne] at hone
  rcases hres : disk₂.restoreBlock pp.index begin with ⟨ok, disk₃⟩
  have hnames : disk₃.names = disk₂.names := by
    rcases Disk.restoreBlock_cases hres with ⟨-, rfl⟩ | ⟨-, p, -, -, -, rfl⟩ <;> rfl
  rw [hres] at hone
  dsimp only at hone
  split at hone
  · rw [Except.pure_eq_ok] at hone
    rw [← hone]
    exact hnames.trans hQ
  · rw [Except.bind_eq_ok] at hone
    obtain ⟨_, -, hone⟩ := hone
    rw [Except.pure_eq_ok] at hone
    rw [← hone]
    exact hnames.trans hQ

/-- A start of a stopped download that answers no error opens the files and verifies them. -/
theorem start_verify (hstop : d.status = .stopped) (h : d.start = .ok (none, d')) :
    ∃ (disk : Disk) (d₁ : Download σ),
      Disk.create d.fs d.info d.config.readCachePieces d.store = (.ok disk, d₁.store) ∧
      d₁.info = d.info ∧ d₁.fs = d.fs ∧ d₁.status ≠ .stopped ∧ d₁.verify disk = .ok d' := by
  unfold start at h
  split at h
  · simp only [Except.pure_eq_ok, Prod.mk.injEq, reduceCtorEq, false_and] at h
  split at h
  · rename_i hst
    simp [hstop] at hst
  split at h
  · simp only [Except.pure_eq_ok, Prod.mk.injEq, reduceCtorEq, false_and] at h
  rename_i disk store hcreate
  dsimp only at h
  split at h
  · simp only [Except.pure_eq_ok, Prod.mk.injEq, reduceCtorEq, false_and] at h
  rw [Except.bind_eq_ok] at h
  obtain ⟨d₂, hv, h⟩ := h
  simp only [Except.pure_eq_ok, Prod.mk.injEq, true_and] at h
  subst h
  refine ⟨disk, _, ?_, ?_, ?_, ?_, hv⟩
  · exact hcreate
  · rfl
  · rfl
  · simp

/-- A verification that does not fail keeps the torrent, the store and the names of the files,
and sets only the bits of pieces the scan found whole and matching. -/
theorem verify_intact {disk : Disk} (h : d.verify disk = .ok d') (hst : d.status ≠ .stopped)
    (hnone : d'.lastErr = none)
    (hpieces : disk.pieces = (d.info.layout d.info.numPieces.toNat).toArray) :
    ∃ disk', d'.disk = some disk' ∧ disk'.names = disk.names ∧ d'.info = d.info ∧
      d'.fs = d.fs ∧ d'.store = d.store ∧ ∃ bf, d'.bitfield = some bf ∧
        ∀ i, bf.getD i = true → ∃ p, disk.pieces[i.toNat]? = some p ∧ disk.Intact d.fs d.store p := by
  unfold verify at h
  obtain ⟨⟨r, progress⟩, hs⟩ : ∃ x, disk.scan d.fs d.store false = x := ⟨_, rfl⟩
  have hscan : (∃ bf, (disk.scan d.fs d.store false).1 = .ok bf ∧
      bf.length = disk.pieces.size.toUInt32) ∨
      ∃ e, (disk.scan d.fs d.store false).1 = .error (.disk e) := Disk.scan_ok_or_disk
  have hbits : ∀ {bf : Bitfield}, (disk.scan d.fs d.store false).1 = .ok bf →
      ∀ i, bf.getD i = true → ∃ p, disk.pieces[i.toNat]? = some p ∧ disk.Intact d.fs d.store p :=
    fun h => Disk.scan_intact (Disk.indexed_of_layout hpieces) h
  rw [hs] at h hscan hbits
  dsimp only at h hscan hbits
  rcases hscan with ⟨bf, rfl, -⟩ | ⟨e, rfl⟩
  · dsimp only at h
    split at h
    all_goals
      rw [Except.bind_eq_ok] at h
      obtain ⟨⟨disk₁, pk₁⟩, hrp, h⟩ := h
      rw [Except.pure_eq_ok] at h
      subst h
    · -- the saved state, restored, only marks blocks written
      refine ⟨disk₁, ?_, names_restorePartial hrp, ?_, ?_, ?_, bf, ?_, hbits rfl⟩ <;> split <;>
        simp [setCompleted]
    · rw [Except.pure_eq_ok] at hrp
      cases hrp
      refine ⟨disk, ?_, rfl, ?_, ?_, ?_, bf, ?_, hbits rfl⟩ <;> split <;> simp [setCompleted]
  · -- a failed scan fails the download
    dsimp only at h
    simp only [Except.pure_eq_ok] at h
    have := lastErr_fail_isSome (d := { d with checked := progress.getLastD d.checked }) hst
      (.disk e)
    rw [h, hnone] at this
    cases this

end Download

namespace Pipeline

variable {σ : Type}

/-! ## The invariant -/

/-- A download of torrent `info` over the store operations `fs`, taking the submissions `fl`:
its disk names the torrent's files by their joined paths, every piece set in its bitfield is
intact, and so is every piece that passed its check and waits to be verified. -/
structure Kept (info : Info) (fs : FileStore σ) (d : Download σ) (fl : List Submission) :
    Prop where
  info_eq : d.info = info
  fs_eq : d.fs = fs
  names : ∀ disk, d.disk = some disk →
    disk.names.toList = info.getFiles.map fun f => Path.join f.path
  verified : ∀ bf, d.bitfield = some bf → ∀ i, bf.getD i = true → d.PieceIntact i
  passed : ∀ sub ∈ fl, sub.stage = .checked true → d.PieceIntact sub.piece

section

variable {info : Info} {fs : FileStore σ} {d d' : Download σ} {fl fl' : List Submission}
  {pk : Picker String} {disk : Disk}

/-- No submission in flight is of a verified piece: a claimed block is received, so its piece
is partial, and a piece past its claims has every block received. -/
theorem Agree.unverified (h : Agree d fl pk disk) : ∀ sub ∈ fl, pk.verified.getD sub.piece = false := by
  intro sub hsub
  by_cases hst : sub.stage = .claimed
  · obtain ⟨pp, hp, -⟩ := (h.claimed sub hsub hst).1
    exact (Picker.mem_of_partial? hp).2 ▸ (h.inv.tracks pp (Picker.mem_of_partial? hp).1).unverified
  · obtain ⟨hlt, hall⟩ := h.complete sub hsub hst
    exact h.inv.unverified_of_allReceived hlt hall

/-- A change that keeps the files keeps the invariant, when every piece it sets or sends to be
verified was intact before. -/
theorem Kept.of_sameFiles (h : Kept info fs d fl) (hs : Download.SameFiles d d')
    (hbits : ∀ bf, d'.bitfield = some bf → ∀ i, bf.getD i = true → d.PieceIntact i)
    (hfl : ∀ sub ∈ fl', sub.stage = .checked true → d.PieceIntact sub.piece) :
    Kept info fs d' fl' := by
  refine ⟨hs.info ▸ h.info_eq, hs.fs ▸ h.fs_eq, fun disk' hd' => ?_,
    fun bf hb i hi => (hbits bf hb i hi).of_sameFiles hs,
    fun sub hsub hst => (hfl sub hsub hst).of_sameFiles hs⟩
  have hn := hs.names
  rw [hd', Option.map_some] at hn
  obtain ⟨disk, hd, hnames⟩ := Option.map_eq_some_iff.1 hn.symm
  rw [← hnames]
  exact h.names disk hd

/-- A change that keeps the files and the bitfield, and sends no new piece to be verified,
keeps the invariant. -/
theorem Kept.of_quiet (h : Kept info fs d fl) (hs : Download.SameFiles d d')
    (hbf : d'.bitfield = d.bitfield) (hfl : ∀ sub ∈ fl', sub.stage = .checked true → sub ∈ fl) :
    Kept info fs d' fl' :=
  h.of_sameFiles hs (fun bf hb => h.verified bf (hbf ▸ hb))
    fun sub hsub hst => h.passed sub (hfl sub hsub hst) hst

/-- A write to piece `index` keeps every other piece intact: their sections share no byte with
the piece written. -/
theorem Kept.pieceIntact_write (hfs : fs.Separate) (hlen : ∀ f ∈ info.getFiles, 0 ≤ f.length.toInt)
    (hnd : (info.getFiles.map fun f => Path.join f.path).Nodup) (h : Kept info fs d fl)
    (hd : d.disk = some disk) (hpieces : disk.pieces = (d.info.layout d.info.numPieces.toNat).toArray)
    {index begin : UInt32} {data : List UInt8} {res : Except Disk.Failure Bool} {disk' : Disk}
    {st : σ} (hw : disk.writeBlock d.fs d.store index begin data = (res, disk', st)) {i : UInt32}
    (hne : i ≠ index) (hi : d.PieceIntact i) :
    ({ d with disk := some disk', store := st } : Download σ).PieceIntact i := by
  obtain ⟨disk₀, p, hd₀, hp, bytes, hread, hmatch⟩ := hi
  rw [hd] at hd₀
  cases hd₀
  have hp' : disk.pieces[i.toNat]? = some p := by
    rw [hpieces, List.getElem?_toArray]
    exact hp
  rw [h.fs_eq] at hw hread
  rw [h.info_eq] at hpieces
  exact ⟨disk', p, rfl, hp, bytes, by
    rw [h.fs_eq]
    exact Disk.readPiece_writeBlock_of_layout hfs hlen (h.names disk hd) hnd hpieces hw
      (fun heq => hne (UInt32.toNat_inj.1 heq)) hp' hread, hmatch⟩

/-! ## The steps -/

/-- A claimed block is written: the write lands on its own piece, which is neither verified nor
waiting for its verdict. -/
theorem Kept.write (hfs : fs.Separate) (hlen : ∀ f ∈ info.getFiles, 0 ≤ f.length.toInt)
    (hnd : (info.getFiles.map fun f => Path.join f.path).Nodup) (h : Kept info fs d fl)
    (ha : Agree d fl pk disk) {r : Request} {data : List UInt8}
    (hin : ⟨r, data, .claimed⟩ ∈ fl) {complete : Bool}
    (hw : d.writeClaimed r data = .ok (complete, d')) (hok : d'.lastErr = none) :
    Kept info fs d' (if complete then ⟨r, data, .written⟩ :: fl.erase ⟨r, data, .claimed⟩
      else fl.erase ⟨r, data, .claimed⟩) := by
  obtain ⟨disk₀, hd₀, ⟨e, disk', st, -, rfl⟩ | ⟨disk', st, hwb, rfl⟩⟩ := Download.writeClaimed_cases hw
  · refine absurd hok (Download.lastErr_fail_ne_none ?_ e)
    exact ha.running
  rw [ha.disk_eq] at hd₀
  cases hd₀
  have hkeep : ∀ i, i ≠ r.index → d.PieceIntact i →
      ({ d with disk := some disk', store := st } : Download σ).PieceIntact i :=
    fun i hne hi => h.pieceIntact_write hfs hlen hnd ha.disk_eq ha.pieces hwb hne hi
  -- the piece written is not verified
  have hunv : pk.verified.getD r.index = false := ha.unverified _ hin
  refine ⟨h.info_eq, h.fs_eq, fun x hx => ?_, fun bf hb i hi => ?_, fun sub hsub hst => ?_⟩
  · cases hx
    rw [(Disk.writeBlock_store hwb).1]
    exact h.names disk ha.disk_eq
  · have hbf : bf = pk.verified := Option.some.inj (hb.symm.trans ha.bitfield_eq)
    subst hbf
    refine hkeep i (fun hir => ?_) (h.verified _ ha.bitfield_eq i hi)
    rw [hir, hunv] at hi
    cases hi
  · -- a submission that passed its check is alone of its piece, so not the one written
    have hold : sub ∈ fl := by
      split at hsub
      · rcases List.mem_cons.1 hsub with rfl | hsub
        · cases hst
        · exact List.mem_of_mem_erase hsub
      · exact List.mem_of_mem_erase hsub
    have hne : sub.piece ≠ r.index :=
      fun heq => ha.piece_ne_of_stage hold (by rw [hst]; simp) hin (by rw [hst]; simp) heq.symm
    exact hkeep _ hne (h.passed sub hold hst)

/-- A complete piece is checked: a check that passes read the piece whole and matching. -/
theorem Kept.check (h : Kept info fs d fl) (ha : Agree d fl pk disk) {r : Request}
    {data : List UInt8} {v : Option Bool} (hk : d.checkPiece r.index = .ok (v, d'))
    (hok : d'.lastErr = none) :
    Kept info fs d' ((v.toList.map fun good => ⟨r, data, .checked good⟩) ++
      fl.erase ⟨r, data, .written⟩) := by
  obtain ⟨disk₀, hd₀, ⟨-, e, disk', rfl⟩ | ⟨good, disk', rfl, hv, rfl⟩⟩ :=
    Download.checkPiece_cases hk
  · refine absurd hok (Download.lastErr_fail_ne_none ?_ (.disk e))
    exact ha.running
  rw [ha.disk_eq] at hd₀
  cases hd₀
  have hn : disk'.names = disk.names := Disk.names_verifyPiece hv
  have hs : Download.SameFiles d { d with disk := some disk' } :=
    ⟨rfl, rfl, rfl, by rw [ha.disk_eq, Option.map_some, Option.map_some, hn]⟩
  refine h.of_sameFiles hs (fun bf hb => h.verified bf hb) fun sub hsub hst => ?_
  rcases List.mem_append.1 hsub with hnew | hold
  · -- the verdict just given: the piece read whole and matched
    simp only [Option.toList_some, List.map_cons, List.map_nil, List.mem_singleton] at hnew
    subst hnew
    cases hst
    obtain ⟨p, hp, hi⟩ := Disk.verifyPiece_intact hv
    rw [ha.pieces, List.getElem?_toArray] at hp
    exact ⟨disk, p, ha.disk_eq, hp, hi⟩
  · exact h.passed sub (List.mem_of_mem_erase hold) hst

/-- A checked piece is verified or reset: a verified piece is one that passed its check. -/
theorem Kept.finish (h : Kept info fs d fl) (ha : Agree d fl pk disk) {r : Request}
    {data : List UInt8} {good : Bool} (hin : ⟨r, data, .checked good⟩ ∈ fl)
    (hf : d.finishPiece r.index good = .ok d') :
    Kept info fs d' (fl.erase ⟨r, data, .checked good⟩) := by
  have hfl : ∀ sub ∈ fl.erase ⟨r, data, .checked good⟩, sub.stage = .checked true → sub ∈ fl :=
    fun sub hsub _ => List.mem_of_mem_erase hsub
  rcases Download.finishPiece_cases hf with ⟨-, rfl⟩ | ⟨rfl, hv⟩ | ⟨rfl, hfail⟩
  · exact h.of_quiet ⟨rfl, rfl, rfl, rfl⟩ rfl hfl
  · -- the bit set is that of the piece that passed
    obtain ⟨pk₀, sender, pk', bf, bf', ps, -, -, hbf, hset, hd'⟩ := Download.pieceVerified_eq hv
    have hs : Download.SameFiles d d' := by
      rw [hd']
      split <;> exact ⟨rfl, rfl, rfl, rfl⟩
    have hbf' : d'.bitfield = some bf' := by
      rw [hd']
      split <;> rfl
    refine h.of_sameFiles hs (fun b hb i hi => ?_)
      fun sub hsub hst => h.passed sub (hfl sub hsub hst) hst
    rw [hbf'] at hb
    cases hb
    by_cases hir : i = r.index
    · exact hir ▸ h.passed _ hin rfl
    · rw [Bitfield.getD_set_of_ne hset hir] at hi
      exact h.verified bf hbf i hi
  · -- a reset forgets the piece's written blocks and keeps the names of the files
    obtain ⟨_, _, _, _, -, -, rfl⟩ := Download.pieceFailed_eq hfail
    refine h.of_quiet ⟨rfl, rfl, rfl, ?_⟩ rfl hfl
    cases d.disk <;> rfl

variable {s s' : Pipeline σ}

/-- Every step keeps the invariant while the download has not failed. -/
theorem Kept.step (hfs : fs.Separate) (hlen : ∀ f ∈ info.getFiles, 0 ≤ f.length.toInt)
    (hnd : (info.getFiles.map fun f => Path.join f.path).Nodup)
    (h : Kept info fs s.download s.inFlight) (ha : Agree s.download s.inFlight pk disk)
    (hs : Step s s') (hok : s'.download.lastErr = none) : Kept info fs s'.download s'.inFlight := by
  have hsame : ∀ sub ∈ s.inFlight, sub.stage = .checked true → sub ∈ s.inFlight :=
    fun _ hsub _ => hsub
  cases hs with
  | requestWork _ _ _ hr =>
    exact h.of_quiet (Download.sameFiles_requestWork hr) (Download.tame_requestWork hr).bitfield
      hsame
  | cancelRequests _ _ hr =>
    exact h.of_quiet (Download.sameFiles_cancelRequests hr)
      (Download.tame_cancelRequests hr).bitfield hsame
  | reportHave _ _ _ hr =>
    exact h.of_quiet (Download.sameFiles_reportHave hr) (Download.tame_reportHave hr).bitfield hsame
  | reportBitfield _ _ _ hr =>
    exact h.of_quiet (Download.sameFiles_reportBitfield hr)
      (Download.tame_reportBitfield hr).bitfield hsame
  | peerConnected _ _ _ _ hr =>
    exact h.of_quiet (Download.sameFiles_peerConnected hr)
      (Download.tame_peerConnected hr).bitfield hsame
  | peerDisconnected _ hr =>
    exact h.of_quiet (Download.sameFiles_peerDisconnected hr)
      (Download.tame_peerDisconnected hr).bitfield hsame
  | @claim d d' _ _ _ _ _ hc =>
    have hbf : d'.bitfield = d.bitfield := by
      rcases Download.claimBlock_cases hc with ⟨-, ht⟩ | ⟨-, -, -, -, -, -, -, rfl⟩
      · exact ht.bitfield
      · rfl
    -- a new claim is not a passed check
    refine h.of_quiet (Download.sameFiles_claimBlock hc) hbf fun sub hsub hst => ?_
    split at hsub
    · rcases List.mem_cons.1 hsub with rfl | hsub
      · cases hst
      · exact hsub
    · exact hsub
  | write _ _ hin _ hw => exact h.write hfs hlen hnd ha hin hw hok
  | check _ _ _ _ hk => exact h.check ha hk hok
  | finish _ _ _ hin hf => exact h.finish ha hin hf

/-- Along a run, the invariant holds at every state where the download has not failed. -/
theorem kept_of_run (hfs : fs.Separate) (hlen : ∀ f ∈ info.getFiles, 0 ≤ f.length.toInt)
    (hnd : (info.getFiles.map fun f => Path.join f.path).Nodup)
    (hr : Relation.ReflTransGen Step s s') (ha : ∃ pk disk, Agree s.download s.inFlight pk disk)
    (h : Kept info fs s.download s.inFlight) (hok : s'.download.lastErr = none) :
    Kept info fs s'.download s'.inFlight := by
  induction hr with
  | refl => exact h
  | @tail b c hbc hs ih =>
    have hb : b.download.lastErr = none := lastErr_none_of_run (.single hs) hok
    obtain ⟨pk, disk, hab⟩ := agree_of_run hbc ha hb
    exact (ih hb).step hfs hlen hnd hab hs hok

/-- A stopped download that starts without failing has only intact pieces set, and nothing in
flight. -/
theorem kept_start {d d₀ : Download σ} (hstop : d.status = .stopped)
    (hstart : d.start = .ok (none, d₀)) (hnone : d₀.lastErr = none) :
    Kept d.info d.fs d₀ [] := by
  obtain ⟨disk, d₁, hcreate, hinfo, hfs, hst, hv⟩ := Download.start_verify hstop hstart
  obtain ⟨hpieces, -⟩ := Disk.create_eq_ok hcreate
  obtain ⟨disk', hd', hn', hinfo', hfs', hst', bf, hbf, hbits⟩ :=
    Download.verify_intact hv hst hnone (hinfo ▸ hpieces)
  refine ⟨hinfo'.trans hinfo, hfs'.trans hfs, fun x hx => ?_, fun b hb i hi => ?_,
    fun _ hsub => absurd hsub List.not_mem_nil⟩
  · rw [hd'] at hx
    cases hx
    rw [hn']
    exact Disk.names_create hcreate
  · rw [hbf] at hb
    cases hb
    obtain ⟨p, hp, hint⟩ := hbits i hi
    rw [hpieces, List.getElem?_toArray] at hp
    refine ⟨disk', p, hd', by rw [hinfo', hinfo]; exact hp, ?_⟩
    rw [hfs', hst']
    exact hint.of_names hn'

/-- A step keeps every bit set in the bitfield: a bit is only ever set. -/
theorem Step.bitfield_mono (hs : Step s s') {bf : Bitfield}
    (hbf : s.download.bitfield = some bf) :
    ∃ bf', s'.download.bitfield = some bf' ∧ ∀ i, bf.getD i = true → bf'.getD i = true := by
  have keep : ∀ {d' : Download σ}, d'.bitfield = s.download.bitfield →
      ∃ bf', d'.bitfield = some bf' ∧ ∀ i, bf.getD i = true → bf'.getD i = true :=
    fun h => ⟨bf, h.trans hbf, fun _ => id⟩
  cases hs with
  | requestWork _ _ _ hr => exact keep (Download.tame_requestWork hr).bitfield
  | cancelRequests _ _ hr => exact keep (Download.tame_cancelRequests hr).bitfield
  | reportHave _ _ _ hr => exact keep (Download.tame_reportHave hr).bitfield
  | reportBitfield _ _ _ hr => exact keep (Download.tame_reportBitfield hr).bitfield
  | peerConnected _ _ _ _ hr => exact keep (Download.tame_peerConnected hr).bitfield
  | peerDisconnected _ hr => exact keep (Download.tame_peerDisconnected hr).bitfield
  | claim _ _ _ _ hc =>
    rcases Download.claimBlock_cases hc with ⟨-, ht⟩ | ⟨-, -, -, -, -, -, -, rfl⟩
    · exact keep ht.bitfield
    · exact keep rfl
  | write _ _ _ _ hw =>
    obtain ⟨_, -, ⟨e, _, _, -, rfl⟩ | ⟨_, _, -, rfl⟩⟩ := Download.writeClaimed_cases hw
    · exact keep (Download.bitfield_fail _ e)
    · exact keep rfl
  | check _ _ _ _ hk =>
    obtain ⟨_, -, ⟨-, e, _, rfl⟩ | ⟨_, _, -, -, rfl⟩⟩ := Download.checkPiece_cases hk
    · exact keep (Download.bitfield_fail _ _)
    · exact keep rfl
  | finish r _ _ _ hf =>
    rcases Download.finishPiece_cases hf with ⟨-, rfl⟩ | ⟨-, hv⟩ | ⟨-, hfail⟩
    · exact keep rfl
    · -- verifying sets the bit of the piece and keeps the others
      obtain ⟨_, _, _, bf₀, bf', -, -, hbf₀, hset, -, hbf', -⟩ := Download.pieceVerified_spec hv
      rw [hbf] at hbf₀
      cases hbf₀
      refine ⟨bf', hbf', fun i hi => ?_⟩
      by_cases hir : i = r.index
      · rw [hir]
        exact Bitfield.getD_set_self hset
      · rw [Bitfield.getD_set_of_ne hset hir]
        exact hi
    · obtain ⟨_, _, _, -, -, -, -, hbf', -⟩ := Download.pieceFailed_spec hfail
      exact keep hbf'

end

/-! ## Verified pieces stay intact -/

/-- **Verified pieces stay intact.** Start a stopped download of a torrent whose pieces have
positive lengths and whose files have no negative length and distinct paths, over a store that
replaces files by name only, and run any interleaving of the sessions' operations with the steps
of taking blocks. While the download has not failed:

* every piece set in the bitfield reads whole from the files and matches its digest, and writing
  the block of any submission in flight leaves it reading the same;
* no submission in flight is of a piece set in the bitfield: none is written, checked or reset;
* no work handed out is of a piece set in the bitfield;
* no step clears a bit. -/
theorem verified_pieces_intact {d d₀ : Download σ} {s : Pipeline σ} (hfs : d.fs.Separate)
    (hlen : ∀ f ∈ d.info.getFiles, 0 ≤ f.length.toInt)
    (hnd : (d.info.getFiles.map fun f => Path.join f.path).Nodup)
    (hpos : ∀ i, i < d.info.numPieces → 0 < d.info.pieceLen i)
    (hsmall : d.info.numPieces.toNat + 7 < 2 ^ 32) (hstop : d.status = .stopped)
    (hstart : d.start = .ok (none, d₀)) (hrun : Relation.ReflTransGen Step ⟨d₀, []⟩ s)
    (hok : s.download.lastErr = none) :
    ∃ bf disk, s.download.bitfield = some bf ∧ s.download.disk = some disk ∧
      (∀ i, bf.getD i = true → ∃ p, (d.info.layout d.info.numPieces.toNat)[i.toNat]? = some p ∧
        disk.Intact s.download.fs s.download.store p ∧
        ∀ sub ∈ s.inFlight, ∀ res disk' st,
          disk.writeBlock s.download.fs s.download.store sub.request.index sub.request.begin
            sub.data = (res, disk', st) →
          disk'.readPiece s.download.fs st p = disk.readPiece s.download.fs s.download.store p) ∧
      (∀ sub ∈ s.inFlight, bf.getD sub.piece = false) ∧
      (∀ name n rs d', s.download.requestWork name n = .ok (rs, d') →
        ∀ r ∈ rs, bf.getD r.index = false) ∧
      ∀ s', Step s s' → ∃ bf', s'.download.bitfield = some bf' ∧
        ∀ i, bf.getD i = true → bf'.getD i = true := by
  have h₀ : d₀.lastErr = none := lastErr_none_of_run hrun hok
  have hagree := agree_start hstop hstart h₀ hpos hsmall
  obtain ⟨pk, disk, ha⟩ := agree_of_run hrun hagree hok
  have hk : Kept d.info d.fs s.download s.inFlight :=
    kept_of_run hfs hlen hnd hrun hagree (kept_start hstop hstart h₀) hok
  refine ⟨pk.verified, disk, ha.bitfield_eq, ha.disk_eq, fun i hi => ?_, ha.unverified,
    fun _ _ _ _ hr => Download.requestWork_unverified ha.picker_eq ha.inv hr,
    fun _ hs => hs.bitfield_mono ha.bitfield_eq⟩
  obtain ⟨disk₀, p, hd, hp, hint⟩ := hk.verified _ ha.bitfield_eq i hi
  rw [ha.disk_eq] at hd
  cases hd
  rw [hk.info_eq] at hp
  refine ⟨p, hp, hint, fun sub hsub res disk' st hw => ?_⟩
  -- the block written is of a piece whose bit is clear, and the pieces' sections are apart
  obtain ⟨bytes, hread, -⟩ := hint
  have hne : i.toNat ≠ sub.request.index.toNat := fun heq => by
    have hunv := ha.unverified sub hsub
    rw [Submission.piece, ← UInt32.toNat_inj.1 heq, hi] at hunv
    cases hunv
  have hpieces : disk.pieces = (d.info.layout d.info.numPieces.toNat).toArray := by
    rw [ha.pieces, hk.info_eq]
  have hp' : disk.pieces[i.toNat]? = some p := by
    rw [hpieces, List.getElem?_toArray]
    exact hp
  rw [hread]
  rw [hk.fs_eq] at hw hread ⊢
  exact Disk.readPiece_writeBlock_of_layout hfs hlen (hk.names disk ha.disk_eq) hnd hpieces hw hne
    hp' hread

/-! ## Scripts of the sessions' operations -/

/-- Whether a peer session issues the operation: every operation but starting, stopping and
closing the download. -/
def Op.bySession : Op → Bool
  | .start | .stop | .close => false
  | _ => true

/-- A script of the sessions' operations is a run of steps. -/
theorem runScript_steps {ops : List Op} (hs : ∀ op ∈ ops, op.bySession = true)
    {d d' : Download σ} (h : runScript ops d = some d') :
    Relation.ReflTransGen Step ⟨d, []⟩ ⟨d', []⟩ := by
  induction ops generalizing d with
  | nil =>
    cases h
    exact .refl
  | cons op ops ih =>
    obtain ⟨d₁, h₁, h⟩ := Option.bind_eq_some_iff.1 h
    refine .trans ?_ (ih (fun o ho => hs o (List.mem_cons_of_mem op ho)) h)
    have hop := hs op List.mem_cons_self
    cases op with
    | start | stop | close => cases hop
    | connect name id =>
      cases h₁
      exact .single (.peerConnected name id true _ rfl)
    | bitfield name bf =>
      obtain ⟨⟨b, d₂⟩, hb, rfl⟩ := Option.map_eq_some_iff.1 h₁
      exact .single (.reportBitfield name bf b (eq_ok_of_toOption hb))
    | work name n =>
      obtain ⟨⟨rs, d₂⟩, hw, rfl⟩ := Option.map_eq_some_iff.1 h₁
      exact .single (.requestWork name n rs (eq_ok_of_toOption hw))
    | submit name r data => exact Download.submitBlock_run (eq_ok_of_toOption h₁) []
    | disconnect name => exact .single (.peerDisconnected name (eq_ok_of_toOption h₁))

/-- Peer `p`, which has both pieces of a torrent of two one-byte pieces, connects and sends them:
the byte 1 for the first piece and the byte 2 for the second. -/
def sendBoth : List Op :=
  [.connect "p" [1], .bitfield "p" (Bitfield.full 2), .work "p" 2, .submit "p" ⟨0, 0, 1⟩ [1],
    .submit "p" ⟨1, 0, 1⟩ [2]]

/-- The torrent of `twinFiles` with files of two paths, `a` and `b`. -/
def pairFiles : Info :=
  { twinFiles with files := [⟨1, [[97]]⟩, ⟨1, [[98]]⟩] }

/-- A stopped download of `pairFiles` over an empty store. -/
def pairDownload : Download MemStore :=
  { info := pairFiles, config := {}, fs := MemStore.fileStore, store := {}, port := 6881 }

/-- After peer `p` sent both pieces of `pairFiles`, both are set, and every piece set reads
intact. -/
theorem pair_files_pieces_intact : ∃ d₀ d₁ : Download MemStore,
    pairDownload.start = .ok (none, d₀) ∧ runScript sendBoth d₀ = some d₁ ∧
      ∃ bf disk, d₁.bitfield = some bf ∧ bf.getD 0 = true ∧ bf.getD 1 = true ∧
        d₁.disk = some disk ∧ ∀ i, bf.getD i = true →
          ∃ p, (pairFiles.layout 2)[i.toNat]? = some p ∧ disk.Intact d₁.fs d₁.store p := by
  -- the run, once, in the kernel: a start, two writes and two checks of a digest
  have hrun : (pairDownload.start.toOption.any fun r => r.1.isNone &&
      (runScript sendBoth r.2).any fun d₁ => d₁.lastErr.isNone &&
        d₁.bitfield.any fun bf => bf.getD 0 && bf.getD 1) = true := by
    decide +kernel
  obtain ⟨⟨e, d₀⟩, hstart, hd⟩ := Except.toOption_any_eq_true.1 hrun
  simp only [Bool.and_eq_true, Option.isNone_iff_eq_none] at hd
  obtain ⟨rfl, hd⟩ := hd
  obtain ⟨d₁, hscript, hd⟩ := (Option.any_eq_true _ _).1 hd
  simp only [Bool.and_eq_true, Option.isNone_iff_eq_none] at hd
  obtain ⟨hok, hbits⟩ := hd
  have hpos : ∀ i, i < pairFiles.numPieces → 0 < pairFiles.pieceLen i := by
    intro i hi
    rw [UInt32.lt_iff_toNat_lt] at hi
    have hi' : i.toNat = 0 ∨ i.toNat = 1 := by
      have h2 : pairFiles.numPieces.toNat = 2 := rfl
      omega
    rcases hi' with hi' | hi'
    · rw [show i = 0 from UInt32.toNat_inj.1 hi']
      decide
    · rw [show i = 1 from UInt32.toNat_inj.1 hi']
      decide
  obtain ⟨bf, disk, hbf, hdisk, hintact, -⟩ := verified_pieces_intact MemStore.separate
    (by decide) (by decide) hpos (by decide) rfl hstart (runScript_steps (by decide) hscript) hok
  rw [hbf] at hbits
  simp only [Option.any_some, Bool.and_eq_true] at hbits
  exact ⟨d₀, d₁, hstart, hscript, bf, disk, hbf, hbits.1, hbits.2, hdisk,
    fun i hi => (hintact i hi).imp fun _ hp => ⟨hp.1, hp.2.1⟩⟩

/-- **Two files of one path lose a verified piece.** Over `twinFiles`, whose two one-byte files
share a path, peer `p` sends both pieces: the first is verified, then the write of the second
lands on the same byte, and the first piece stays set in the bitfield with a byte that does not
match its digest. -/
theorem twin_files_overwrite_verified : ∃ (d d₀ : Download MemStore) (s : Pipeline MemStore),
    Download.create twinFiles {} MemStore.fileStore {} none .indexOrder [] = .ok d ∧
      d.status = .stopped ∧
      d.start = .ok (none, d₀) ∧ Relation.ReflTransGen Step ⟨d₀, []⟩ s ∧
      s.download.lastErr = none ∧ ∃ bf disk, s.download.bitfield = some bf ∧ bf.getD 0 = true ∧
        s.download.disk = some disk ∧
        ∀ p, (twinFiles.layout twinFiles.numPieces.toNat)[0]? = some p →
          ¬ disk.Intact s.download.fs s.download.store p := by
  -- the run, once, in the kernel: a start, two writes, two checks and the read of the first piece
  have hrun : ((Download.create twinFiles {} MemStore.fileStore ({} : MemStore) none .indexOrder
      []).toOption.any fun d => d.status == .stopped && d.start.toOption.any fun r =>
        r.1.isNone && (runScript sendBoth r.2).any fun d₁ =>
          d₁.lastErr.isNone && (d₁.bitfield.any fun bf => bf.getD 0) && d₁.disk.any fun disk =>
            ((twinFiles.layout twinFiles.numPieces.toNat)[0]?).any fun p =>
              (disk.readPiece d₁.fs d₁.store p).2.isNone &&
                !Piece.hashMatches p.length p.hash (disk.readPiece d₁.fs d₁.store p).1) = true := by
    decide +kernel
  obtain ⟨d, hcreate, hd⟩ := Except.toOption_any_eq_true.1 hrun
  simp only [Bool.and_eq_true, beq_iff_eq] at hd
  obtain ⟨hstop, hd⟩ := hd
  obtain ⟨⟨e, d₀⟩, hstart, hd⟩ := Except.toOption_any_eq_true.1 hd
  simp only [Bool.and_eq_true, Option.isNone_iff_eq_none] at hd
  obtain ⟨rfl, hd⟩ := hd
  obtain ⟨d₁, hscript, hd⟩ := (Option.any_eq_true _ _).1 hd
  simp only [Bool.and_eq_true, Option.isNone_iff_eq_none] at hd
  obtain ⟨⟨hok, hbit⟩, hd⟩ := hd
  obtain ⟨bf, hbf, hbit⟩ := (Option.any_eq_true _ _).1 hbit
  obtain ⟨disk, hdisk, hd⟩ := (Option.any_eq_true _ _).1 hd
  obtain ⟨p₀, hp₀, hd⟩ := (Option.any_eq_true _ _).1 hd
  simp only [Bool.and_eq_true, Option.isNone_iff_eq_none, Bool.not_eq_true'] at hd
  obtain ⟨hnone, hbad⟩ := hd
  refine ⟨d, d₀, ⟨d₁, []⟩, hcreate, hstop, hstart, runScript_steps (by decide) hscript, hok, bf,
    disk, hbf, hbit, hdisk, fun p hp ⟨data, hread, hmatch⟩ => ?_⟩
  -- the first piece reads whole, and what it reads does not match
  rw [hp₀] at hp
  cases hp
  rw [hread] at hbad
  rw [hmatch] at hbad
  cases hbad

end Pipeline

end BitTorrent.Torrent
