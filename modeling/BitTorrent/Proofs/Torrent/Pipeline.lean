import BitTorrent.Proofs.Torrent.Operations
import BitTorrent.Proofs.Picker.Selection
import BitTorrent.Proofs.Disk.Written
import Mathlib.Logic.Relation

/-!
# Taking blocks, step by step

`Download.submitBlock` takes a peer's block in four steps, of which only the first and the last
hold the download's lock: the block is claimed in the picker (`Download.claimBlock`), written
(`Download.writeClaimed`), its piece checked when the write completed it
(`Download.checkPiece`), and the piece verified or reset (`Download.finishPiece`). Between two
steps of one block, steps of other blocks and the other operations of the download may run.

A `Pipeline` is a download with the blocks it is taking outside its lock, and `Pipeline.Step`
is one step of one of them, or one of the operations the peer sessions call: selecting blocks
for a peer, withdrawing requests, learning what a peer has, and peers connecting and
disconnecting. A whole `submitBlock` is a run of such steps (`submitBlock_run`).

For proofs about runs, each operation has one lemma that says what it can change. The sessions'
operations leave the files, the bitfield, the status and the error alone and change the picker
only as its operations off the answers do (`Download.Tame`); the four steps of taking a block
are described by `claimBlock_cases`, `writeClaimed_cases`, `checkPiece_cases` and
`finishPiece_cases`. A download that failed stays failed (`Step.lastErr_isSome`).
-/

namespace BitTorrent.Torrent

/-- How far a block handed to the download has gone. -/
inductive Stage where
  /-- Claimed in the picker, not yet written. -/
  | claimed
  /-- Written, completing its piece, which is not checked yet. -/
  | written
  /-- Its piece was checked, with this verdict. -/
  | checked (good : Bool)
  deriving DecidableEq, Repr

/-- A block the download is taking outside its lock. -/
structure Submission where
  request : Request
  data : List UInt8
  stage : Stage
  deriving DecidableEq, Repr

namespace Submission

/-- The piece of the block. -/
def piece (sub : Submission) : UInt32 :=
  sub.request.index

/-- The position of the block in its piece. -/
def block (sub : Submission) : Nat :=
  (sub.request.begin / blockSize).toNat

end Submission

/-- A download with the blocks it is taking outside its lock. -/
structure Pipeline (σ : Type) where
  download : Download σ
  inFlight : List Submission

namespace Pipeline

variable {σ : Type}

/-- One step: an operation a peer session calls, or one step of taking a block. -/
inductive Step : Pipeline σ → Pipeline σ → Prop
  | requestWork {d d' : Download σ} {fl : List Submission} (name : String) (n : Int)
      (rs : List Request) (h : d.requestWork name n = .ok (rs, d')) : Step ⟨d, fl⟩ ⟨d', fl⟩
  | cancelRequests {d d' : Download σ} {fl : List Submission} (name : String)
      (rs : List Request) (h : d.cancelRequests name rs = .ok d') : Step ⟨d, fl⟩ ⟨d', fl⟩
  | reportHave {d d' : Download σ} {fl : List Submission} (name : String) (i : UInt32)
      (b : Bool) (h : d.reportHave name i = .ok (b, d')) : Step ⟨d, fl⟩ ⟨d', fl⟩
  | reportBitfield {d d' : Download σ} {fl : List Submission} (name : String) (bf : Bitfield)
      (b : Bool) (h : d.reportBitfield name bf = .ok (b, d')) : Step ⟨d, fl⟩ ⟨d', fl⟩
  | peerConnected {d d' : Download σ} {fl : List Submission} (name : String) (id : List UInt8)
      (outgoing : Bool) (ours : Option Bitfield)
      (h : d.peerConnected name id outgoing = (ours, d')) : Step ⟨d, fl⟩ ⟨d', fl⟩
  | peerDisconnected {d d' : Download σ} {fl : List Submission} (name : String)
      (h : d.peerDisconnected name = .ok d') : Step ⟨d, fl⟩ ⟨d', fl⟩
  /-- A block is claimed; when the picker was waiting for it, it goes on to be written. -/
  | claim {d d' : Download σ} {fl : List Submission} (name : String) (r : Request)
      (data : List UInt8) (ok : Bool) (h : d.claimBlock name r data = .ok (ok, d')) :
      Step ⟨d, fl⟩ ⟨d', if ok then ⟨r, data, .claimed⟩ :: fl else fl⟩
  /-- A claimed block is written; when that completes its piece, the piece goes on to be
  checked. -/
  | write {d d' : Download σ} {fl : List Submission} (r : Request) (data : List UInt8)
      (hin : ⟨r, data, .claimed⟩ ∈ fl) (complete : Bool)
      (h : d.writeClaimed r data = .ok (complete, d')) :
      Step ⟨d, fl⟩ ⟨d', if complete then ⟨r, data, .written⟩ :: fl.erase ⟨r, data, .claimed⟩
        else fl.erase ⟨r, data, .claimed⟩⟩
  /-- A complete piece is checked; a verdict goes on to be applied. -/
  | check {d d' : Download σ} {fl : List Submission} (r : Request) (data : List UInt8)
      (hin : ⟨r, data, .written⟩ ∈ fl) (v : Option Bool)
      (h : d.checkPiece r.index = .ok (v, d')) :
      Step ⟨d, fl⟩ ⟨d', (v.toList.map fun good => ⟨r, data, .checked good⟩) ++
        fl.erase ⟨r, data, .written⟩⟩
  /-- A checked piece is verified or reset. -/
  | finish {d d' : Download σ} {fl : List Submission} (r : Request) (data : List UInt8)
      (good : Bool) (hin : ⟨r, data, .checked good⟩ ∈ fl)
      (h : d.finishPiece r.index good = .ok d') :
      Step ⟨d, fl⟩ ⟨d', fl.erase ⟨r, data, .checked good⟩⟩

end Pipeline

namespace Download

variable {σ : Type} {d d' : Download σ}

/-- Taking a block whole is running its four steps one after the other. -/
theorem submitBlock_run {name : String} {r : Request} {data : List UInt8}
    (h : d.submitBlock name r data = .ok d') (fl : List Submission) :
    Relation.ReflTransGen Pipeline.Step ⟨d, fl⟩ ⟨d', fl⟩ := by
  unfold submitBlock at h
  rw [Except.bind_eq_ok] at h
  obtain ⟨⟨ok, d1⟩, hc, h⟩ := h
  have s1 : Pipeline.Step ⟨d, fl⟩ _ := Pipeline.Step.claim name r data ok hc
  cases ok with
  | false =>
    simp only [Bool.not_false, ↓reduceIte, Except.pure_eq_ok] at h
    subst h
    exact .single s1
  | true =>
  simp only [Bool.not_true, Bool.false_eq_true, ↓reduceIte] at h s1
  rw [Except.bind_eq_ok] at h
  obtain ⟨⟨complete, d2⟩, hw, h⟩ := h
  have s2 := Pipeline.Step.write r data (List.mem_cons_self : _ ∈ _ :: fl) complete hw
  rw [List.erase_cons_head] at s2
  cases complete with
  | false =>
    simp only [Bool.not_false, ↓reduceIte, Except.pure_eq_ok] at h s2
    subst h
    exact .tail (.single s1) s2
  | true =>
  simp only [Bool.not_true, Bool.false_eq_true, ↓reduceIte] at h s2
  rw [Except.bind_eq_ok] at h
  obtain ⟨⟨v, d3⟩, hk, h⟩ := h
  have s3 := Pipeline.Step.check r data (List.mem_cons_self : _ ∈ _ :: fl) v hk
  rw [List.erase_cons_head] at s3
  cases v with
  | none =>
    simp only [Except.pure_eq_ok] at h
    subst h
    exact .tail (.tail (.single s1) s2) s3
  | some good =>
    have s4 := Pipeline.Step.finish r data good (List.mem_cons_self : _ ∈ _ :: fl) h
    rw [List.erase_cons_head] at s4
    exact .tail (.tail (.tail (.single s1) s2) s3) s4

/-! ## The sessions' operations -/

/-- A change of a download that leaves its torrent, files, bitfield, status and error alone, and
changes the picker only as the picker's operations off the answers do. -/
structure Tame (d d' : Download σ) : Prop where
  info : d'.info = d.info
  disk : d'.disk = d.disk
  bitfield : d'.bitfield = d.bitfield
  status : d'.status = d.status
  lastErr : d'.lastErr = d.lastErr
  picker : ∀ pk, d.picker = some pk → pk.Inv →
    ∃ pk', d'.picker = some pk' ∧ pk'.Inv ∧ Picker.Keeps pk pk'

theorem Tame.refl (d : Download σ) : Tame d d :=
  ⟨rfl, rfl, rfl, rfl, rfl, fun pk hpk hinv => ⟨pk, hpk, hinv, Picker.Keeps.refl pk⟩⟩

theorem Tame.trans {d₁ d₂ d₃ : Download σ} (h₁ : Tame d₁ d₂) (h₂ : Tame d₂ d₃) : Tame d₁ d₃ := by
  refine ⟨h₂.info.trans h₁.info, h₂.disk.trans h₁.disk, h₂.bitfield.trans h₁.bitfield,
    h₂.status.trans h₁.status, h₂.lastErr.trans h₁.lastErr, fun pk hpk hinv => ?_⟩
  obtain ⟨pk₂, hpk₂, hinv₂, hk₂⟩ := h₁.picker pk hpk hinv
  obtain ⟨pk₃, hpk₃, hinv₃, hk₃⟩ := h₂.picker pk₂ hpk₂ hinv₂
  exact ⟨pk₃, hpk₃, hinv₃, hk₂.trans hk₃⟩

/-- Replacing the picker by one that keeps the invariant and the received blocks is tame. -/
theorem tame_setPicker {pk pk' : Picker String} (hpk : d.picker = some pk)
    (h : pk.Inv → pk'.Inv ∧ Picker.Keeps pk pk') : Tame d { d with picker := some pk' } := by
  refine ⟨rfl, rfl, rfl, rfl, rfl, fun q hq hinv => ?_⟩
  rw [hpk] at hq
  cases hq
  exact ⟨pk', rfl, (h hinv).1, (h hinv).2⟩

/-- A change that leaves the picker alone too is tame. -/
theorem Tame.of_eq (hi : d'.info = d.info) (hd : d'.disk = d.disk) (hb : d'.bitfield = d.bitfield)
    (hs : d'.status = d.status) (he : d'.lastErr = d.lastErr) (hp : d'.picker = d.picker) :
    Tame d d' :=
  ⟨hi, hd, hb, hs, he, fun pk hpk hinv => ⟨pk, hp ▸ hpk, hinv, Picker.Keeps.refl pk⟩⟩

/-- Changing the peer records is tame. -/
theorem tame_peers (d : Download σ) (ps : List PeerRecord) : Tame d { d with peers := ps } :=
  Tame.of_eq rfl rfl rfl rfl rfl rfl

theorem tame_requestWork {name : String} {n : Int} {rs : List Request}
    (h : d.requestWork name n = .ok (rs, d')) : Tame d d' := by
  rcases requestWork_eq h with ⟨-, rfl⟩ | ⟨rec, pk, pk', -, -, -, hpk, hsel, rfl⟩
  · exact Tame.refl _
  · exact tame_setPicker hpk fun hinv => ⟨(hinv.select hsel).1, (hinv.select hsel).2.2⟩

theorem tame_cancelRequests {name : String} {rs : List Request}
    (h : d.cancelRequests name rs = .ok d') : Tame d d' := by
  rcases cancelRequests_eq h with rfl | ⟨pk, pk', hpk, hfold, rfl⟩
  · exact Tame.refl _
  · exact tame_setPicker hpk fun hinv => Picker.keeps_foldCancel hinv hfold

theorem tame_reportHave {name : String} {i : UInt32} {b : Bool}
    (h : d.reportHave name i = .ok (b, d')) : Tame d d' := by
  rcases reportHave_eq h with rfl | ⟨-, -, pk, pk', -, -, hpk, hhave, rfl⟩
  · exact Tame.refl _
  · exact (tame_peers d _).trans (tame_setPicker hpk fun hinv =>
      ⟨hinv.handleHave hhave, Picker.keeps_handleHave hhave⟩)

theorem tame_reportBitfield {name : String} {bf : Bitfield} {b : Bool}
    (h : d.reportBitfield name bf = .ok (b, d')) : Tame d d' := by
  rcases reportBitfield_eq h with rfl | ⟨rec, pk, pk₁, pk₂, -, hpk, hdis, hbf, rfl⟩
  · exact Tame.refl _
  · exact (tame_peers d _).trans (tame_setPicker hpk fun hinv =>
      ⟨(hinv.handleDisconnect hdis).handleBitfield hbf,
        (Picker.keeps_handleDisconnect hdis).trans (Picker.keeps_handleBitfield hbf)⟩)

theorem tame_peerConnected {name : String} {id : List UInt8} {outgoing : Bool}
    {ours : Option Bitfield} (h : d.peerConnected name id outgoing = (ours, d')) : Tame d d' := by
  rcases peerConnected_eq h with ⟨-, rfl⟩ | ⟨-, -, -, rfl⟩
  · exact Tame.refl _
  · exact tame_peers d _

theorem tame_peerDisconnected {name : String} (h : d.peerDisconnected name = .ok d') :
    Tame d d' := by
  rcases peerDisconnected_eq h with ⟨-, rfl⟩ | ⟨rec, pk, n, pk₁, pk₂, -, -, hpk, hrel, hdis, -, rfl⟩
  · exact Tame.refl _
  · refine ⟨rfl, rfl, rfl, rfl, rfl, fun q hq hinv => ?_⟩
    rw [hpk] at hq
    cases hq
    exact ⟨pk₂, rfl, (hinv.releasePeer hrel).handleDisconnect hdis,
      (Picker.keeps_releasePeer hinv hrel).trans (Picker.keeps_handleDisconnect hdis)⟩

/-! ## The steps of taking a block -/

/-- A claim either takes nothing, counting the block at most, or marks the block received in the
picker of a download that has not failed. -/
theorem claimBlock_cases {name : String} {r : Request} {data : List UInt8} {ok : Bool}
    (h : d.claimBlock name r data = .ok (ok, d')) :
    (ok = false ∧ Tame d d') ∨
      (ok = true ∧ d.lastErr = none ∧ ∃ pk pk' others, d.picker = some pk ∧
        pk.markReceived name r = .ok (true, others, pk') ∧
        d' = { d with downloaded := d.downloaded + data.length, picker := some pk' }) := by
  rcases claimBlock_eq h with ⟨rfl, rfl⟩ | ⟨pk, others, pk', herr, hpk, hmr, ⟨rfl, rfl⟩ | ⟨rfl, rfl⟩⟩
  · exact .inl ⟨rfl, Tame.refl _⟩
  · exact .inl ⟨rfl, Tame.of_eq rfl rfl rfl rfl rfl rfl⟩
  · exact .inr ⟨rfl, herr, pk, pk', others, hpk, hmr, rfl⟩

/-- A write either fails, failing the download, or records what the disk's write did. -/
theorem writeClaimed_cases {r : Request} {data : List UInt8} {complete : Bool}
    (h : d.writeClaimed r data = .ok (complete, d')) :
    ∃ disk, d.disk = some disk ∧
      ((∃ e disk' st, disk.writeBlock d.fs d.store r.index r.begin data = (.error e, disk', st) ∧
          d' = ({ d with disk := some disk', store := st } : Download σ).fail e) ∨
        (∃ disk' st, disk.writeBlock d.fs d.store r.index r.begin data = (.ok complete, disk', st) ∧
          d' = { d with disk := some disk', store := st })) := by
  unfold writeClaimed at h
  split at h
  · rename_i disk hdisk
    refine ⟨disk, hdisk, ?_⟩
    split at h
    · rename_i e disk' st hw
      simp only [Except.pure_eq_ok, Prod.mk.injEq] at h
      exact .inl ⟨e, disk', st, hw, h.2.symm⟩
    · rename_i c disk' st hw
      simp only [Except.pure_eq_ok, Prod.mk.injEq] at h
      exact .inr ⟨disk', st, h.1 ▸ hw, h.2.symm⟩
  · cases h

/-- A check either fails to read, failing the download, or gives the disk's verdict. -/
theorem checkPiece_cases {index : UInt32} {v : Option Bool}
    (h : d.checkPiece index = .ok (v, d')) :
    ∃ disk, d.disk = some disk ∧
      ((v = none ∧ ∃ e disk', d' = ({ d with disk := some disk' } : Download σ).fail (.disk e)) ∨
        (∃ good disk', v = some good ∧
          disk.verifyPiece d.fs d.store index = .ok (.ok good, disk') ∧
          d' = { d with disk := some disk' })) := by
  unfold checkPiece at h
  split at h
  · rename_i disk hdisk
    refine ⟨disk, hdisk, ?_⟩
    rw [Except.bind_eq_ok] at h
    obtain ⟨⟨res, disk'⟩, hv, h⟩ := h
    cases res with
    | error e =>
      simp only [Except.pure_eq_ok, Prod.mk.injEq] at h
      exact .inl ⟨h.1.symm, e, disk', h.2.symm⟩
    | ok good =>
      simp only [Except.pure_eq_ok, Prod.mk.injEq] at h
      exact .inr ⟨good, disk', h.1.symm, hv, h.2.symm⟩
  · cases h

/-- A bad piece is reset in the picker and on the disk together. -/
theorem pieceFailed_spec {index : UInt32} (h : d.pieceFailed index = .ok d') :
    ∃ pk cs pk', d.picker = some pk ∧ pk.resetPiece index = .ok (cs, pk') ∧
      d'.picker = some pk' ∧ d'.disk = d.disk.map (·.resetPiece index) ∧
      d'.bitfield = d.bitfield ∧ d'.info = d.info ∧ d'.status = d.status ∧
      d'.lastErr = d.lastErr := by
  obtain ⟨pk, cs, pk', ps, hpk, hreset, rfl⟩ := pieceFailed_eq h
  exact ⟨pk, cs, pk', hpk, hreset, rfl, rfl, rfl, rfl, rfl, rfl⟩

/-- A good piece is verified in the picker and set in the bitfield by the same bit operation;
the download may switch to seeding. -/
theorem pieceVerified_spec {index : UInt32} (h : d.pieceVerified index = .ok d') :
    ∃ pk sender pk' bf bf', d.picker = some pk ∧ pk.markVerified index = .ok (sender, pk') ∧
      d.bitfield = some bf ∧ bf.set index = .ok bf' ∧ d'.picker = some pk' ∧
      d'.bitfield = some bf' ∧ d'.disk = d.disk ∧ d'.info = d.info ∧ d'.lastErr = d.lastErr ∧
      (d'.status = d.status ∨ d'.status = .seeding) := by
  obtain ⟨pk, sender, pk', bf, bf', ps, hpk, hmv, hbf, hset, rfl⟩ := pieceVerified_eq h
  refine ⟨pk, sender, pk', bf, bf', hpk, hmv, hbf, hset, ?_⟩
  split <;> simp [setCompleted]

/-- The verdict is applied only while the download has a picker: a good piece is verified and a
bad one reset. -/
theorem finishPiece_cases {index : UInt32} {good : Bool} (h : d.finishPiece index good = .ok d') :
    (d.picker = none ∧ d' = d) ∨ (good = true ∧ d.pieceVerified index = .ok d') ∨
      (good = false ∧ d.pieceFailed index = .ok d') := by
  unfold finishPiece at h
  split at h
  · rename_i hnone
    exact .inl ⟨Option.isNone_iff_eq_none.1 hnone, (Except.ok.inj h).symm⟩
  · cases good
    · simp only [Bool.false_eq_true, ↓reduceIte] at h
      exact .inr (.inr ⟨rfl, h⟩)
    · simp only [↓reduceIte] at h
      exact .inr (.inl ⟨rfl, h⟩)

/-! ## Failing -/

@[simp] theorem lastErr_writeResume (d : Download σ) : d.writeResume.lastErr = d.lastErr := by
  unfold writeResume
  split <;> rfl

@[simp] theorem lastErr_stop (d : Download σ) : d.stop.lastErr = d.lastErr := by
  unfold stop
  split <;> simp

/-- A download that has failed is not failed again. -/
theorem fail_of_lastErr_isSome (h : d.lastErr.isSome) (e : Disk.Failure) : d.fail e = d := by
  simp [fail, h]

/-- A failure keeps the download failed. -/
theorem lastErr_fail_of_isSome (h : d.lastErr.isSome) (e : Disk.Failure) :
    (d.fail e).lastErr.isSome := by
  rw [fail_of_lastErr_isSome h]
  exact h

/-- A running download that fails records its failure. -/
theorem lastErr_fail_isSome (h : d.status ≠ .stopped) (e : Disk.Failure) :
    (d.fail e).lastErr.isSome := by
  unfold fail
  split
  · rename_i hf
    simp only [Bool.or_eq_true, beq_iff_eq, h, or_false] at hf
    exact hf
  · simp

/-- A download that downloads or seeds and fails records its failure. -/
theorem lastErr_fail_ne_none (h : d.status = .downloading ∨ d.status = .seeding)
    (e : Disk.Failure) : (d.fail e).lastErr ≠ none := by
  have hst : d.status ≠ .stopped := by
    rcases h with h | h <;> simp [h]
  exact Option.isSome_iff_ne_none.1 (lastErr_fail_isSome hst e)

/-! ## Progress -/

/-- Writing a claimed block never faults while the download has its files. -/
theorem writeClaimed_ok {disk : Disk} (hdisk : d.disk = some disk) (r : Request)
    (data : List UInt8) : ∃ c d', d.writeClaimed r data = .ok (c, d') := by
  unfold writeClaimed
  rw [hdisk]
  dsimp only
  split <;> exact ⟨_, _, rfl⟩

/-- Checking a piece of the disk never faults. -/
theorem checkPiece_ok {disk : Disk} (hdisk : d.disk = some disk) {index : UInt32}
    (hi : index.toNat < disk.pieces.size) : ∃ v d', d.checkPiece index = .ok (v, d') := by
  obtain ⟨res, disk', hv⟩ : ∃ r disk', disk.verifyPiece d.fs d.store index = .ok (r, disk') :=
    Disk.verifyPiece_ok hi
  unfold checkPiece
  rw [hdisk]
  simp only [hv, bind, Except.bind]
  split <;> exact ⟨_, _, rfl⟩

/-- Resetting a piece never faults while the download has a picker. -/
theorem pieceFailed_ok {pk : Picker String} (hpk : d.picker = some pk) (index : UInt32) :
    ∃ d', d.pieceFailed index = .ok d' := by
  obtain ⟨cs, pk', hr⟩ := pk.resetPiece_ok index
  unfold pieceFailed
  simp only [picker!, hpk, Option.elim, bind, Except.bind, hr, pure, Except.pure]
  exact ⟨_, rfl⟩

/-- Verifying a piece never faults when the picker verifies it and its bit can be set. -/
theorem pieceVerified_ok {pk pk' : Picker String} {sender : Option String} {bf bf' : Bitfield}
    {index : UInt32} (hpk : d.picker = some pk) (hmv : pk.markVerified index = .ok (sender, pk'))
    (hbf : d.bitfield = some bf) (hset : bf.set index = .ok bf') :
    ∃ d', d.pieceVerified index = .ok d' := by
  unfold pieceVerified
  simp only [picker!, hpk, Option.elim, bind, Except.bind, hmv]
  cases sender.bind ({ d with picker := some pk' } : Download σ).record? <;> dsimp only
  on_goal 2 =>
    rename_i rec
    by_cases hp : rec.parole = true <;> simp only [hp, ↓reduceIte, Bool.false_eq_true]
  all_goals
    simp only [setRecord, hbf, hset, pure, Except.pure]
    exact ⟨_, rfl⟩

end Download

namespace Pipeline

variable {σ : Type} {s s' : Pipeline σ}

/-- A download that has failed stays failed, whatever step is taken. -/
theorem Step.lastErr_isSome (hs : Step s s') (h : s.download.lastErr.isSome) :
    s'.download.lastErr.isSome := by
  cases hs with
  | requestWork _ _ _ hr => exact (Download.tame_requestWork hr).lastErr ▸ h
  | cancelRequests _ _ hr => exact (Download.tame_cancelRequests hr).lastErr ▸ h
  | reportHave _ _ _ hr => exact (Download.tame_reportHave hr).lastErr ▸ h
  | reportBitfield _ _ _ hr => exact (Download.tame_reportBitfield hr).lastErr ▸ h
  | peerConnected _ _ _ _ hr => exact (Download.tame_peerConnected hr).lastErr ▸ h
  | peerDisconnected _ hr => exact (Download.tame_peerDisconnected hr).lastErr ▸ h
  | claim _ _ _ _ hr =>
    rcases Download.claimBlock_cases hr with ⟨-, ht⟩ | ⟨-, hnone, -⟩
    · exact ht.lastErr ▸ h
    · simp [hnone] at h
  | write _ _ _ _ hr =>
    obtain ⟨disk, -, ⟨e, disk', st, -, rfl⟩ | ⟨disk', st, -, rfl⟩⟩ := Download.writeClaimed_cases hr
    · apply Download.lastErr_fail_of_isSome
      exact h
    · exact h
  | check _ _ _ _ hr =>
    obtain ⟨disk, -, ⟨-, e, disk', rfl⟩ | ⟨good, disk', -, -, rfl⟩⟩ := Download.checkPiece_cases hr
    · apply Download.lastErr_fail_of_isSome
      exact h
    · exact h
  | finish _ _ _ _ hr =>
    rcases Download.finishPiece_cases hr with ⟨-, rfl⟩ | ⟨-, hv⟩ | ⟨-, hf⟩
    · exact h
    · obtain ⟨_, _, _, _, _, -, -, -, -, -, -, -, -, herr, -⟩ := Download.pieceVerified_spec hv
      exact herr ▸ h
    · obtain ⟨_, _, _, -, -, -, -, -, -, -, herr⟩ := Download.pieceFailed_spec hf
      exact herr ▸ h

/-- Along a run, a download that has failed stays failed. -/
theorem lastErr_isSome_of_run (hr : Relation.ReflTransGen Step s s')
    (h : s.download.lastErr.isSome) : s'.download.lastErr.isSome := by
  induction hr with
  | refl => exact h
  | tail _ hs ih => exact hs.lastErr_isSome ih

end Pipeline

end BitTorrent.Torrent
