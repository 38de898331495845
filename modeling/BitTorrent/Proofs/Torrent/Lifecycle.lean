import BitTorrent.Proofs.Torrent.Availability

/-!
# The life of a download

A download is created stopped. Starting it verifies its files and leaves it downloading, or
seeding when every piece is there, or stopped again when the files fail; a downloading download
seeds once its last piece is verified; stopping, closing and a failure of the files stop it.
`Pipeline.Life` is one operation of any of these, or one step of the sessions and of taking
blocks (`Pipeline.Step`), in any order, over any number of runs.

Between two operations a download is never verifying or stopping, seeds only when it has
completed with every piece verified, lacks a piece while it downloads, and has no picker while it
is stopped, so that a verdict arriving after a stop changes nothing (`Download.Phase`). One
operation moves the status only along `Status.canMove`, never clears `completed`, sets it only by
seeding, and never reopens a closed download (`Download.Advance`).

`completed` is set once and kept across runs, while the bitfield is rescanned at every start. A
download that completed, was stopped and lost data of a piece therefore starts again downloading
with `completed` still set, and no peer is given work (`restart_after_loss_stalls`). That is the
only way a downloading download is completed: the run went through seeding and then through a
stop (`life_of_run`).
-/

namespace BitTorrent

namespace Bitfield

variable {bf b : Bitfield} {i j : UInt32}

/-- A bit can be set only in a bitfield whose byte count does not wrap. -/
theorem small_of_set (h : bf.set i = .ok b) : bf.length.toNat + 7 < 2 ^ 32 := by
  obtain ⟨-, -, hsize⟩ := set_eq_ok h
  by_contra hbig
  -- the byte count of a length within seven of the top wraps to zero
  have hzero : bf.bytes.size = 0 := by
    rw [bf.size_eq, byteCount, UInt32.toNat_div, UInt32.toNat_add]
    have := bf.length.toNat_lt
    simp only [UInt32.reduceToNat]
    omega
  omega

/-- Setting a bit of a full bitfield whose spare bits are clear leaves it full. -/
theorem all_set (hsc : bf.SpareClear) (hall : bf.all = true) (h : bf.set i = .ok b) :
    b.all = true := by
  have hsmall := small_of_set h
  have hlen : b.length = bf.length := length_set h
  rw [all_eq_true_iff (hsc.set h) (hlen ▸ hsmall)]
  intro j hj
  by_cases hji : j = i
  · subst hji
    exact getD_set_self h
  · rw [getD_set_of_ne h hji]
    exact getD_of_all hsc hsmall hall (hlen ▸ hj)

end Bitfield

namespace Disk

variable {σ : Type} (fs : FileStore σ) {d : Disk} {st : σ}

/-- A scan only sets bits that name pieces, so the spare bits stay clear. -/
theorem spareClear_scanFrom {ctx : Context} {bf bf' : Bitfield} (hsc : bf.SpareClear) {k : Nat}
    (ps : List PieceLayout) (h : (d.scanFrom fs st ctx bf k ps).1 = .ok bf') : bf'.SpareClear := by
  induction ps generalizing bf k with
  | nil =>
    simp only [scanFrom, Except.ok.injEq] at h
    exact h ▸ hsc
  | cons p ps ih =>
    unfold scanFrom at h
    split at h
    · cases h
    split at h
    · exact ih hsc h
    · exact ih hsc h
    · cases h
    · refine ih ?_ h
      split
      · exact hsc.insert p.index
      · exact hsc

theorem spareClear_scan {ctx : Context} {bf : Bitfield} (h : (d.scan fs st ctx).1 = .ok bf) :
    bf.SpareClear := by
  unfold scan at h
  split at h
  · simp only [Except.ok.injEq] at h
    exact h ▸ Bitfield.spareClear_new _
  · exact spareClear_scanFrom fs (Bitfield.spareClear_new _) _ h

end Disk

namespace Torrent

namespace Status

/-- Whether one operation may take a download's status from `a` to `b`, the statuses that only
last within an operation left out: a stopped download starts downloading or seeding, a
downloading one completes, and a running one stops. -/
def canMove : Status → Status → Bool
  | .stopped, .downloading | .stopped, .seeding | .downloading, .seeding
  | .downloading, .stopped | .seeding, .stopped => true
  | a, b => a == b

@[simp] theorem canMove_self (a : Status) : canMove a a = true := by
  cases a <;> rfl

end Status

namespace Download

variable {σ : Type} {d d' d₁ : Download σ}

/-- What holds of a download between two operations. -/
structure Phase (d : Download σ) : Prop where
  /-- Verifying and stopping happen within one operation and are never seen between two. -/
  settled : d.status = .stopped ∨ d.status = .downloading ∨ d.status = .seeding
  /-- A seeding download has completed, with every piece verified. -/
  seeding : d.status = .seeding → d.completed = true ∧ ∃ bf, d.bitfield = some bf ∧ bf.all = true
  /-- A downloading download lacks a piece. -/
  downloading : d.status = .downloading → ∃ bf, d.bitfield = some bf ∧ bf.all = false
  /-- A stopped download has no picker, so a late verdict finds nothing to change. -/
  stopped : d.status = .stopped → d.picker = none
  /-- A failed download is stopped. -/
  failed : d.lastErr.isSome → d.status = .stopped
  /-- A closed download is stopped. -/
  closed : d.closed = true → d.status = .stopped
  /-- The bitfield's spare bits are clear. -/
  spare : ∀ bf, d.bitfield = some bf → bf.SpareClear

/-- What one operation may change of a download's life. -/
structure Advance (d d' : Download σ) : Prop where
  moves : Status.canMove d.status d'.status = true
  completed : d.completed = true → d'.completed = true
  /-- `completed` is set only together with seeding. -/
  completes : d.completed = false → d'.completed = true → d'.status = .seeding
  closed : d.closed = true → d'.closed = true

theorem Advance.refl (d : Download σ) : Advance d d :=
  ⟨Status.canMove_self _, id, fun h h' => absurd (h.symm.trans h') (by simp), id⟩

/-- A change that leaves a download's life alone: its status, completion, closing, bitfield and
error, and the absence of a picker. -/
structure Steady (d d' : Download σ) : Prop where
  status : d'.status = d.status
  completed : d'.completed = d.completed
  closed : d'.closed = d.closed
  bitfield : d'.bitfield = d.bitfield
  lastErr : d'.lastErr = d.lastErr
  picker : d.picker = none → d'.picker = none

theorem Steady.refl (d : Download σ) : Steady d d :=
  ⟨rfl, rfl, rfl, rfl, rfl, id⟩

/-- Giving a download that has a picker a new one is steady. -/
theorem Steady.setPicker (h : Steady d d₁) {pk pk' : Picker String} (hpk : d.picker = some pk) :
    Steady d { d₁ with picker := some pk' } := by
  refine ⟨h.status, h.completed, h.closed, h.bitfield, h.lastErr, fun hn => ?_⟩
  rw [hpk] at hn
  cases hn

theorem Steady.phase (h : Steady d d') (hph : Phase d) : Phase d' := by
  obtain ⟨hs, hc, hcl, hb, he, hp⟩ := h
  refine ⟨hs ▸ hph.settled, ?_, ?_, fun h => hp (hph.stopped (hs ▸ h)), ?_, ?_, ?_⟩
  · rw [hs, hc, hb]
    exact hph.seeding
  · rw [hs, hb]
    exact hph.downloading
  · rw [he, hs]
    exact hph.failed
  · rw [hcl, hs]
    exact hph.closed
  · rw [hb]
    exact hph.spare

/-- A steady change followed by one operation advances as the operation does. -/
theorem Steady.advance_trans {d₂ : Download σ} (h : Steady d d₁) (ha : Advance d₁ d₂) :
    Advance d d₂ := by
  obtain ⟨hs, hc, hcl, -, -, -⟩ := h
  obtain ⟨hm, hcomp, hset, hclosed⟩ := ha
  rw [hs] at hm
  rw [hc] at hcomp hset
  rw [hcl] at hclosed
  exact ⟨hm, hcomp, hset, hclosed⟩

theorem Steady.advance (h : Steady d d') : Advance d d' :=
  h.advance_trans (Advance.refl d')

/-! ## The operations that leave a download's life alone -/

theorem steady_setRecord (d : Download σ) (r : PeerRecord) : Steady d (d.setRecord r) :=
  ⟨rfl, rfl, rfl, rfl, rfl, id⟩

theorem steady_requestWork {name : String} {n : Int} {rs : List Request}
    (h : d.requestWork name n = .ok (rs, d')) : Steady d d' := by
  rcases requestWork_eq h with ⟨-, rfl⟩ | ⟨-, pk, -, -, -, -, hpk, -, rfl⟩
  · exact Steady.refl _
  · exact (Steady.refl d).setPicker hpk

theorem steady_cancelRequests {name : String} {rs : List Request}
    (h : d.cancelRequests name rs = .ok d') : Steady d d' := by
  rcases cancelRequests_eq h with rfl | ⟨pk, -, hpk, -, rfl⟩
  · exact Steady.refl _
  · exact (Steady.refl d).setPicker hpk

theorem steady_reportHave {name : String} {i : UInt32} {b : Bool}
    (h : d.reportHave name i = .ok (b, d')) : Steady d d' := by
  rcases reportHave_eq h with rfl | ⟨rec, holds, pk, -, -, -, hpk, -, rfl⟩
  · exact Steady.refl _
  · exact (steady_setRecord d _).setPicker hpk

theorem steady_reportBitfield {name : String} {bf : Bitfield} {b : Bool}
    (h : d.reportBitfield name bf = .ok (b, d')) : Steady d d' := by
  rcases reportBitfield_eq h with rfl | ⟨rec, pk, -, -, -, hpk, -, -, rfl⟩
  · exact Steady.refl _
  · exact (steady_setRecord d _).setPicker hpk

theorem steady_peerConnected {name : String} {id : List UInt8} {outgoing : Bool}
    {ours : Option Bitfield} (h : d.peerConnected name id outgoing = (ours, d')) :
    Steady d d' := by
  rcases peerConnected_eq h with ⟨-, rfl⟩ | ⟨-, -, -, rfl⟩
  · exact Steady.refl _
  · exact ⟨rfl, rfl, rfl, rfl, rfl, fun hn => hn⟩

theorem steady_peerDisconnected {name : String} (h : d.peerDisconnected name = .ok d') :
    Steady d d' := by
  rcases peerDisconnected_eq h with ⟨-, rfl⟩ | ⟨rec, pk, -, -, -, -, -, hpk, -, -, -, rfl⟩
  · exact Steady.refl _
  · exact ⟨rfl, rfl, rfl, rfl, rfl, fun hn => by simp [hpk] at hn⟩

theorem steady_claimBlock {name : String} {r : Request} {data : List UInt8} {ok : Bool}
    (h : d.claimBlock name r data = .ok (ok, d')) : Steady d d' := by
  rcases claimBlock_eq h with ⟨-, rfl⟩ | ⟨pk, -, -, -, hpk, -, ⟨-, rfl⟩ | ⟨-, rfl⟩⟩
  · exact Steady.refl _
  · exact ⟨rfl, rfl, rfl, rfl, rfl, id⟩
  · exact ⟨rfl, rfl, rfl, rfl, rfl, fun hn => by simp [hpk] at hn⟩

theorem steady_peerInterested {name : String} (h : d.peerInterested name = .ok d') :
    Steady d d' := by
  rcases peerInterested_eq h with rfl | ⟨-, -, rfl⟩
  · exact Steady.refl _
  · exact ⟨rfl, rfl, rfl, rfl, rfl, id⟩

theorem steady_peerUploaded (d : Download σ) (n : Int) : Steady d (d.peerUploaded n) :=
  ⟨rfl, rfl, rfl, rfl, rfl, id⟩

/-- Queueing addresses only changes the queue; dialing them only the queue and the addresses
dialed. -/
theorem addPeers_eq (d : Download σ) (addrs : List String) :
    ∃ q dl, d.addPeers addrs = { d with queue := q, dialed := dl } := by
  have hqueue : ∀ (l : List String) (d₀ : Download σ), ∃ q,
      l.foldl (fun d a => if d.queue.contains a then d else { d with queue := d.queue ++ [a] })
        d₀ = { d₀ with queue := q } := by
    intro l
    induction l with
    | nil => exact fun d₀ => ⟨d₀.queue, rfl⟩
    | cons a l ih =>
      intro d₀
      rw [List.foldl_cons]
      split
      · exact ih d₀
      · obtain ⟨q, hq⟩ := ih { d₀ with queue := d₀.queue ++ [a] }
        exact ⟨q, hq⟩
  obtain ⟨q, hq⟩ := hqueue addrs d
  obtain ⟨dl, q', hd⟩ := dialAddresses_eq { d with queue := q }
  refine ⟨q', dl, ?_⟩
  rw [addPeers, hq, hd]

theorem steady_addPeers (d : Download σ) (addrs : List String) : Steady d (d.addPeers addrs) := by
  obtain ⟨q, dl, h⟩ := addPeers_eq d addrs
  rw [h]
  exact ⟨rfl, rfl, rfl, rfl, rfl, id⟩

/-- Writing and reading the files change only the disk and the store. -/
theorem steady_disk (d : Download σ) (disk : Option Disk) (st : σ) :
    Steady d { d with disk := disk, store := st } :=
  ⟨rfl, rfl, rfl, rfl, rfl, id⟩

theorem steady_pieceFailed {index : UInt32} (h : d.pieceFailed index = .ok d') : Steady d d' := by
  obtain ⟨pk, -, -, -, hpk, -, rfl⟩ := pieceFailed_eq h
  exact ⟨rfl, rfl, rfl, rfl, rfl, fun hn => by simp [hpk] at hn⟩

theorem Steady.life (h : Steady d d') (hph : Phase d) : Phase d' ∧ Advance d d' :=
  ⟨h.phase hph, h.advance⟩

@[simp] theorem status_setCompleted (d : Download σ) : d.setCompleted.status = .seeding := rfl

@[simp] theorem completed_setCompleted (d : Download σ) : d.setCompleted.completed = true := rfl

@[simp] theorem closed_setCompleted (d : Download σ) : d.setCompleted.closed = d.closed := rfl

@[simp] theorem bitfield_setCompleted (d : Download σ) : d.setCompleted.bitfield = d.bitfield := rfl

@[simp] theorem lastErr_setCompleted (d : Download σ) : d.setCompleted.lastErr = d.lastErr := rfl

@[simp] theorem picker_setCompleted (d : Download σ) : d.setCompleted.picker = d.picker := rfl

/-! ## Stopping and failing -/

theorem writeResume_eq (d : Download σ) : ∃ r, d.writeResume = { d with resume := r } := by
  unfold writeResume
  split <;> exact ⟨_, rfl⟩

@[simp] theorem completed_writeResume (d : Download σ) : d.writeResume.completed = d.completed := by
  obtain ⟨r, h⟩ := writeResume_eq d
  rw [h]

@[simp] theorem closed_writeResume (d : Download σ) : d.writeResume.closed = d.closed := by
  obtain ⟨r, h⟩ := writeResume_eq d
  rw [h]

@[simp] theorem bitfield_writeResume (d : Download σ) : d.writeResume.bitfield = d.bitfield := by
  obtain ⟨r, h⟩ := writeResume_eq d
  rw [h]

@[simp] theorem status_stop (d : Download σ) : d.stop.status = .stopped := by
  unfold stop
  split
  · rename_i h
    simpa using h
  · rfl

@[simp] theorem completed_stop (d : Download σ) : d.stop.completed = d.completed := by
  unfold stop
  split <;> simp

@[simp] theorem closed_stop (d : Download σ) : d.stop.closed = d.closed := by
  unfold stop
  split <;> simp

@[simp] theorem bitfield_stop (d : Download σ) : d.stop.bitfield = d.bitfield := by
  unfold stop
  split <;> simp

theorem stop_of_stopped (h : d.status = .stopped) : d.stop = d := by
  unfold stop
  simp [h]

/-- Stopping a download whose bitfield's spare bits are clear, and that has no picker if it is
stopped already, leaves it in its phase. -/
theorem phase_stop (hsp : ∀ bf, d.bitfield = some bf → bf.SpareClear)
    (hp : d.status = .stopped → d.picker = none) : Phase d.stop := by
  have hpk : d.stop.picker = none := by
    by_cases hs : d.status = .stopped
    · rw [stop_of_stopped hs]
      exact hp hs
    · exact picker_stop hs
  refine ⟨.inl (status_stop d), fun h => ?_, fun h => ?_, fun _ => hpk, fun _ => status_stop d,
    fun _ => status_stop d, fun bf h => hsp bf (bitfield_stop d ▸ h)⟩
  · simp at h
  · simp at h

/-- A running or stopped download may stop. -/
theorem canMove_stopped {a : Status} (h : a = .stopped ∨ a = .downloading ∨ a = .seeding) :
    Status.canMove a .stopped = true := by
  rcases h with rfl | rfl | rfl <;> rfl

/-- A stopped download may start into any status seen between operations. -/
theorem canMove_of_stopped {b : Status} (h : b = .stopped ∨ b = .downloading ∨ b = .seeding) :
    Status.canMove .stopped b = true := by
  rcases h with rfl | rfl | rfl <;> rfl

/-- An operation that ends stopped, keeps `completed` and does not reopen the download
advances. -/
theorem advance_to_stopped
    (hset : d.status = .stopped ∨ d.status = .downloading ∨ d.status = .seeding)
    (hs : d'.status = .stopped) (hc : d'.completed = d.completed)
    (hcl : d.closed = true → d'.closed = true) : Advance d d' := by
  refine ⟨hs ▸ canMove_stopped hset, fun h => hc ▸ h, fun h h' => ?_, hcl⟩
  rw [hc, h] at h'
  cases h'

theorem Phase.stop (hph : Phase d) : Phase d.stop ∧ Advance d d.stop :=
  ⟨phase_stop hph.spare hph.stopped,
    advance_to_stopped hph.settled (status_stop d) (completed_stop d)
      fun h => (closed_stop d).symm ▸ h⟩

theorem Phase.close (hph : Phase d) : Phase d.close ∧ Advance d d.close :=
  ⟨phase_stop (d := { d with closed := true }) hph.spare hph.stopped,
    advance_to_stopped hph.settled (status_stop _) (completed_stop _) fun _ => by simp [Download.close]⟩

theorem fail_eq_stop (hnone : d.lastErr = none) (hs : d.status ≠ .stopped) (e : Disk.Failure) :
    d.fail e = ({ d with lastErr := some e } : Download σ).stop := by
  unfold fail
  simp [hnone, hs]

theorem Phase.fail (hph : Phase d) (e : Disk.Failure) :
    Phase (d.fail e) ∧ Advance d (d.fail e) := by
  by_cases hs : d.status = .stopped
  · rw [Download.fail, if_pos (by simp [hs])]
    exact ⟨hph, Advance.refl d⟩
  · have hnone : d.lastErr = none := by
      cases hl : d.lastErr with
      | none => rfl
      | some _ => exact absurd (hph.failed (by simp [hl])) hs
    rw [fail_eq_stop hnone hs]
    exact ⟨phase_stop hph.spare fun h => absurd h hs,
      advance_to_stopped hph.settled (status_stop _) (completed_stop _) fun h => by simpa using h⟩

/-- A steady change followed by a failure. -/
theorem Steady.fail (h : Steady d d₁) (hph : Phase d) (e : Disk.Failure) :
    Phase (d₁.fail e) ∧ Advance d (d₁.fail e) := by
  obtain ⟨hph', hadv⟩ := (h.phase hph).fail e
  exact ⟨hph', h.advance_trans hadv⟩

/-! ## Starting -/

/-- Verifying the files of a download being started either fails it, which stops it, or gives
it the scanned bitfield and a picker, seeding when the bitfield is full and downloading
otherwise. -/
theorem verify_eq {disk : Disk} (h : d.verify disk = .ok d') (hst : d.status ≠ .stopped)
    (hnone : d.lastErr = none) :
    (∃ c e, d' = ({ d with checked := c, lastErr := some (.disk e) } : Download σ).stop) ∨
      ∃ c bf disk' pk, (disk.scan d.fs d.store false).1 = .ok bf ∧
        d' = (if bf.all then
            ({ d with checked := c, disk := some disk', bitfield := some bf, picker := some pk,
                      slots := some {} } : Download σ).setCompleted
          else { d with checked := c, disk := some disk', bitfield := some bf,
                        picker := some pk, slots := some {}, status := .downloading }).dialAddresses := by
  unfold verify at h
  obtain ⟨⟨r, progress⟩, hs⟩ : ∃ x, disk.scan d.fs d.store false = x := ⟨_, rfl⟩
  have hscan : (∃ bf, (disk.scan d.fs d.store false).1 = .ok bf ∧
      bf.length = disk.pieces.size.toUInt32) ∨
      ∃ e, (disk.scan d.fs d.store false).1 = .error (.disk e) := Disk.scan_ok_or_disk
  rw [hs] at h hscan
  dsimp only at h hscan
  rcases hscan with ⟨bf, rfl, -⟩ | ⟨e, rfl⟩
  · dsimp only at h
    -- the blocks of the saved state are restored or not: either way a disk and a picker
    split at h
    all_goals
      rw [Except.bind_eq_ok] at h
      obtain ⟨⟨disk1, pk1⟩, -, h⟩ := h
      rw [Except.pure_eq_ok] at h
      exact .inr ⟨_, bf, disk1, pk1, by rw [hs], h.symm⟩
  · -- a failed scan fails the download, which stops it
    dsimp only at h
    rw [Except.pure_eq_ok,
      fail_eq_stop (d := { d with checked := progress.getLastD d.checked }) hnone hst] at h
    exact .inl ⟨_, e, h.symm⟩

theorem Phase.verify {disk : Disk} (h : d.verify disk = .ok d') (hst : d.status ≠ .stopped)
    (hnone : d.lastErr = none) (hclosed : d.closed = false)
    (hsp : ∀ bf, d.bitfield = some bf → bf.SpareClear) :
    Phase d' ∧ d'.closed = d.closed ∧ (d'.completed = d.completed ∨ d'.status = .seeding) := by
  rcases verify_eq h hst hnone with ⟨c, e, rfl⟩ | ⟨c, bf, disk', pk, hscan, rfl⟩
  · exact ⟨phase_stop hsp fun h => absurd h hst, closed_stop _, .inl (completed_stop _)⟩
  · have hsc : bf.SpareClear := Disk.spareClear_scan d.fs hscan
    have hspare : ∀ b, some bf = some b → b.SpareClear := fun b h => Option.some.inj h ▸ hsc
    split
    · rename_i hall
      refine ⟨⟨by simp, fun _ => ⟨by simp, bf, by simp, hall⟩, fun h => by simp at h,
        fun h => by simp at h, fun h => by simp [hnone] at h, fun h => by simp [hclosed] at h,
        by simpa using hspare⟩, by simp, .inr (by simp)⟩
    · rename_i hall
      refine ⟨⟨by simp, fun h => by simp at h, fun _ => ⟨bf, by simp, by simpa using hall⟩,
        fun h => by simp at h, fun h => by simp [hnone] at h, fun h => by simp [hclosed] at h,
        by simpa using hspare⟩, by simp, .inl (by simp)⟩

theorem start_of_closed (h : d.closed = true) : d.start = .ok (some .closed, d) := by
  unfold start
  rw [if_pos h]
  rfl

theorem Phase.start (hph : Phase d) {e : Option StartError} (h : d.start = .ok (e, d')) :
    Phase d' ∧ Advance d d' := by
  unfold Download.start at h
  split at h
  · rw [Except.pure_eq_ok, Prod.mk.injEq] at h
    rw [← h.2]
    exact ⟨hph, Advance.refl d⟩
  rename_i hclosed
  simp only [Bool.not_eq_true] at hclosed
  split at h
  · rw [Except.pure_eq_ok, Prod.mk.injEq] at h
    rw [← h.2]
    exact ⟨hph, Advance.refl d⟩
  rename_i hst
  simp only [bne_iff_ne, ne_eq, Decidable.not_not] at hst
  split at h
  · -- the files did not open: only the store changed
    rw [Except.pure_eq_ok, Prod.mk.injEq] at h
    rw [← h.2]
    exact Steady.life ⟨rfl, rfl, rfl, rfl, rfl, id⟩ hph
  dsimp only at h
  split at h
  · -- the port is out of range: the files are closed again
    rw [Except.pure_eq_ok, Prod.mk.injEq] at h
    rw [← h.2]
    exact Steady.life ⟨rfl, rfl, rfl, rfl, rfl, id⟩ hph
  rw [Except.bind_eq_ok] at h
  obtain ⟨d₂, hv, h⟩ := h
  rw [Except.pure_eq_ok, Prod.mk.injEq] at h
  rw [← h.2]
  obtain ⟨hph₂, hcl, hcomp⟩ := Phase.verify hv (by simp) rfl hclosed hph.spare
  refine ⟨hph₂, hst ▸ canMove_of_stopped hph₂.settled, fun hc => ?_, fun hc hc' => ?_,
    fun hc => ?_⟩
  · rcases hcomp with hcomp | hseed
    · exact hcomp ▸ hc
    · exact (hph₂.seeding hseed).1
  · rcases hcomp with hcomp | hseed
    · rw [hcomp] at hc'
      simp [hc] at hc'
    · exact hseed
  · rw [hclosed] at hc
    cases hc

/-! ## Verdicts -/

/-- A verified piece may complete a downloading download; a seeding one stays seeding, since
setting a bit of a full bitfield leaves it full. -/
theorem Phase.pieceVerified (hph : Phase d) {index : UInt32}
    (h : d.pieceVerified index = .ok d') : Phase d' ∧ Advance d d' := by
  obtain ⟨pk, -, pk', bf, bf', ps, hpk, -, hbf, hset, rfl⟩ := pieceVerified_eq h
  -- a download with a picker is running, so it has not failed and is not closed
  have hrun : d.status ≠ .stopped := fun hs => by simp [hph.stopped hs] at hpk
  have hnone : d.lastErr = none := by
    cases hl : d.lastErr with
    | none => rfl
    | some _ => exact absurd (hph.failed (by simp [hl])) hrun
  have hclosed : d.closed = false := by
    cases hc : d.closed with
    | false => rfl
    | true => exact absurd (hph.closed hc) hrun
  have hsc : bf'.SpareClear := (hph.spare bf hbf).set hset
  have hset' : d.status = .downloading ∨ d.status = .seeding := by
    rcases hph.settled with hs | hs | hs
    · exact absurd hs hrun
    · exact .inl hs
    · exact .inr hs
  split
  · rename_i hall
    refine ⟨⟨by simp [setCompleted], fun _ => ⟨rfl, bf', rfl, hall⟩,
      fun h => by simp [setCompleted] at h, fun h => by simp [setCompleted] at h,
      fun h => by simp [setCompleted, hnone] at h, fun h => by simp [setCompleted, hclosed] at h,
      fun b h => by simp only [setCompleted, Option.some.injEq] at h; exact h ▸ hsc⟩, ?_⟩
    refine ⟨?_, fun _ => rfl, fun _ _ => rfl, fun h => by simp [hclosed] at h⟩
    rcases hset' with hs | hs <;> simp [setCompleted, hs, Status.canMove]
  · rename_i hall
    -- the bitfield is not full, so the download was not seeding
    have hdl : d.status = .downloading := by
      rcases hset' with hs | hs
      · exact hs
      · obtain ⟨-, b, hb, hfull⟩ := hph.seeding hs
        rw [hbf, Option.some.injEq] at hb
        subst hb
        simp [Bitfield.all_set (hph.spare _ hbf) hfull hset] at hall
    refine ⟨⟨.inr (.inl hdl), fun h => by simp [hdl] at h, fun _ => ⟨bf', rfl, by simpa using hall⟩,
      fun h => by simp [hdl] at h, fun h => by simp [hnone] at h, fun h => by simp [hclosed] at h,
      fun b h => by simp only [Option.some.injEq] at h; exact h ▸ hsc⟩, ?_⟩
    exact ⟨by simp, id, fun h h' => by simp [h] at h', id⟩

/-- A download just created is stopped, has neither picker nor bitfield, and is not completed. -/
theorem create_fresh {info : Info} {config : Config} {fs : FileStore σ} {st : σ}
    {resume : Option (Resume.Resumer × Resume.Database)} {ranker : Ranker} {dest : List UInt8}
    (h : create info config fs st resume ranker dest = .ok d) :
    d.status = .stopped ∧ d.picker = none ∧ d.bitfield = none ∧ d.completed = false := by
  unfold create at h
  rw [Except.bind_eq_ok] at h
  obtain ⟨_, -, h⟩ := h
  dsimp only at h
  -- the new download, with a resume state or saved counters
  split at h
  · exact Except.pure_eq_ok.1 h ▸ ⟨rfl, rfl, rfl, rfl⟩
  · split at h
    · cases h
    · split at h
      · cases h
      · exact Except.pure_eq_ok.1 h ▸ ⟨rfl, rfl, rfl, rfl⟩
    · exact Except.pure_eq_ok.1 h ▸ ⟨rfl, rfl, rfl, rfl⟩

/-- A stopped download without picker or bitfield is in its phase. -/
theorem phase_of_fresh (hs : d.status = .stopped) (hp : d.picker = none) (hb : d.bitfield = none) :
    Phase d := by
  refine ⟨.inl hs, fun h => ?_, fun h => ?_, fun _ => hp, fun _ => hs, fun _ => hs, fun bf h => ?_⟩
  · rw [hs] at h
    cases h
  · rw [hs] at h
    cases h
  · rw [hb] at h
    cases h

end Download

namespace Pipeline

variable {σ : Type}

/-- One operation in the life of a download: a step of the sessions or of taking a block, or one
of the operations of the program that owns the download. Blocks being taken stay in flight over
stops and starts. -/
inductive Life : Pipeline σ → Pipeline σ → Prop
  | step {s s' : Pipeline σ} (hs : Step s s') : Life s s'
  | start {d d' : Download σ} {fl : List Submission} (e : Option StartError)
      (h : d.start = .ok (e, d')) : Life ⟨d, fl⟩ ⟨d', fl⟩
  | stop {d : Download σ} {fl : List Submission} : Life ⟨d, fl⟩ ⟨d.stop, fl⟩
  | close {d : Download σ} {fl : List Submission} : Life ⟨d, fl⟩ ⟨d.close, fl⟩
  | readBlock {d d' : Download σ} {fl : List Submission} (index : UInt32) (off : Int)
      (length : Nat) (r : Except Disk.Failure (List UInt8))
      (h : d.readBlock index off length = .ok (r, d')) : Life ⟨d, fl⟩ ⟨d', fl⟩
  | peerInterested {d d' : Download σ} {fl : List Submission} (name : String)
      (h : d.peerInterested name = .ok d') : Life ⟨d, fl⟩ ⟨d', fl⟩
  | peerUploaded {d : Download σ} {fl : List Submission} (n : Int) :
      Life ⟨d, fl⟩ ⟨d.peerUploaded n, fl⟩
  | addPeers {d : Download σ} {fl : List Submission} (addrs : List String) :
      Life ⟨d, fl⟩ ⟨d.addPeers addrs, fl⟩

variable {s s' : Pipeline σ}

open Download

/-- One step of the sessions or of taking a block keeps the phase and advances. -/
theorem Step.life (hs : Step s s') (hph : s.download.Phase) :
    s'.download.Phase ∧ Advance s.download s'.download := by
  cases hs with
  | requestWork _ _ _ h => exact (steady_requestWork h).life hph
  | cancelRequests _ _ h => exact (steady_cancelRequests h).life hph
  | reportHave _ _ _ h => exact (steady_reportHave h).life hph
  | reportBitfield _ _ _ h => exact (steady_reportBitfield h).life hph
  | peerConnected _ _ _ _ h => exact (steady_peerConnected h).life hph
  | peerDisconnected _ h => exact (steady_peerDisconnected h).life hph
  | claim _ _ _ _ h => exact (steady_claimBlock h).life hph
  | write _ _ _ _ h =>
    obtain ⟨disk, -, ⟨e, disk', st, -, rfl⟩ | ⟨disk', st, -, rfl⟩⟩ := writeClaimed_cases h
    · exact (steady_disk _ _ st).fail hph e
    · exact (steady_disk _ _ st).life hph
  | check _ _ _ _ h =>
    obtain ⟨disk, -, ⟨-, e, disk', rfl⟩ | ⟨good, disk', -, -, rfl⟩⟩ := checkPiece_cases h
    · exact (steady_disk _ (some disk') _).fail hph _
    · exact (steady_disk _ (some disk') _).life hph
  | finish _ _ _ _ h =>
    rcases finishPiece_cases h with ⟨-, rfl⟩ | ⟨-, hv⟩ | ⟨-, hf⟩
    · exact ⟨hph, Advance.refl _⟩
    · exact hph.pieceVerified hv
    · exact (steady_pieceFailed hf).life hph

/-- Every operation keeps the phase and advances. -/
theorem Life.life (hl : Life s s') (hph : s.download.Phase) :
    s'.download.Phase ∧ Advance s.download s'.download := by
  cases hl with
  | step hs => exact hs.life hph
  | start _ h => exact hph.start h
  | stop => exact hph.stop
  | close => exact hph.close
  | readBlock _ _ _ _ h =>
    obtain ⟨disk', rfl | ⟨e, rfl⟩⟩ := readBlock_eq h
    · exact (steady_disk _ (some disk') _).life hph
    · exact (steady_disk _ (some disk') _).fail hph _
  | peerInterested _ h => exact (steady_peerInterested h).life hph
  | peerUploaded n => exact (steady_peerUploaded _ n).life hph
  | addPeers addrs => exact (steady_addPeers _ addrs).life hph

/-- Along a run the phase holds, and a download that is completed went through seeding; one
that is completed and downloading went through seeding and then through a stop. -/
theorem history_of_run {d : Download σ} (hph : d.Phase) (hc : d.completed = false)
    (hrun : Relation.ReflTransGen Life ⟨d, []⟩ s) :
    s.download.Phase ∧
      (s.download.completed = true → ∃ s₁, Relation.ReflTransGen Life ⟨d, []⟩ s₁ ∧
        s₁.download.status = .seeding ∧ Relation.ReflTransGen Life s₁ s) ∧
      (s.download.status = .downloading → s.download.completed = true →
        ∃ s₁ s₂, Relation.ReflTransGen Life ⟨d, []⟩ s₁ ∧ s₁.download.status = .seeding ∧
          Relation.ReflTransGen Life s₁ s₂ ∧ s₂.download.status = .stopped ∧
          Relation.ReflTransGen Life s₂ s) := by
  induction hrun with
  | refl => exact ⟨hph, fun h => by simp [hc] at h, fun _ h => by simp [hc] at h⟩
  | @tail s s' hr hl ih =>
    obtain ⟨hph₁, hseeded, hrestarted⟩ := ih
    obtain ⟨hph', hadv⟩ := hl.life hph₁
    -- a step that leaves `completed` set found it set, unless it just seeded
    have hprev : s'.download.completed = true → s'.download.status ≠ .seeding →
        s.download.completed = true := by
      intro hc' hns
      cases hcs : s.download.completed with
      | false => exact absurd (hadv.completes hcs hc') hns
      | true => rfl
    have hseeded' : s'.download.completed = true → ∃ s₁, Relation.ReflTransGen Life ⟨d, []⟩ s₁ ∧
        s₁.download.status = .seeding ∧ Relation.ReflTransGen Life s₁ s' := by
      intro hc'
      by_cases hseed : s'.download.status = .seeding
      · exact ⟨s', hr.tail hl, hseed, .refl⟩
      · obtain ⟨s₁, h₁, hs₁, h₁s⟩ := hseeded (hprev hc' hseed)
        exact ⟨s₁, h₁, hs₁, h₁s.tail hl⟩
    refine ⟨hph', hseeded', fun hdl hc' => ?_⟩
    have hcs := hprev hc' (by simp [hdl])
    by_cases hsd : s.download.status = .downloading
    · obtain ⟨s₁, s₂, h₁, hs₁, h₁₂, hs₂, h₂s⟩ := hrestarted hsd hcs
      exact ⟨s₁, s₂, h₁, hs₁, h₁₂, hs₂, h₂s.tail hl⟩
    · -- only a stopped download starts downloading
      have hstop : s.download.status = .stopped := by
        have hm := hadv.moves
        rw [hdl] at hm
        revert hm hsd
        cases s.download.status <;> simp [Status.canMove]
      obtain ⟨s₁, h₁, hs₁, h₁s⟩ := hseeded hcs
      exact ⟨s₁, s, h₁, hs₁, h₁s, hstop, .single hl⟩

/-! ## Scripts of operations -/

/-- An operation the program issues on a download, as a script of them is written. -/
inductive Op where
  | start
  | stop
  | close
  | connect (name : String) (id : List UInt8)
  | bitfield (name : String) (bf : Bitfield)
  | work (name : String) (n : Int)
  | submit (name : String) (r : Request) (data : List UInt8)
  | disconnect (name : String)

/-- The download after one operation, or none when the operation faults. -/
def Op.apply : Op → Download σ → Option (Download σ)
  | .start, d => d.start.toOption.map Prod.snd
  | .stop, d => some d.stop
  | .close, d => some d.close
  | .connect name id, d => some (d.peerConnected name id true).2
  | .bitfield name bf, d => (d.reportBitfield name bf).toOption.map Prod.snd
  | .work name n, d => (d.requestWork name n).toOption.map Prod.snd
  | .submit name r data, d => (d.submitBlock name r data).toOption
  | .disconnect name, d => (d.peerDisconnected name).toOption

/-- The download after a script, or none when an operation of it faults. -/
def runScript : List Op → Download σ → Option (Download σ)
  | [], d => some d
  | op :: ops, d => (op.apply d).bind (runScript ops)

theorem eq_ok_of_toOption {ε α : Type} {x : Except ε α} {a : α} (h : x.toOption = some a) :
    x = .ok a := by
  cases x <;> simp_all [Except.toOption]

/-- An operation of a script is a run of the download's life. -/
theorem Op.apply_life {op : Op} {d d' : Download σ} (h : op.apply d = some d') :
    Relation.ReflTransGen Life ⟨d, []⟩ ⟨d', []⟩ := by
  cases op with
  | start =>
    obtain ⟨⟨e, d₁⟩, hs, rfl⟩ := Option.map_eq_some_iff.1 h
    exact .single (.start e (eq_ok_of_toOption hs))
  | stop =>
    cases h
    exact .single .stop
  | close =>
    cases h
    exact .single .close
  | connect name id =>
    cases h
    exact .single (.step (.peerConnected name id true _ rfl))
  | bitfield name bf =>
    obtain ⟨⟨b, d₁⟩, hs, rfl⟩ := Option.map_eq_some_iff.1 h
    exact .single (.step (.reportBitfield name bf b (eq_ok_of_toOption hs)))
  | work name n =>
    obtain ⟨⟨rs, d₁⟩, hs, rfl⟩ := Option.map_eq_some_iff.1 h
    exact .single (.step (.requestWork name n rs (eq_ok_of_toOption hs)))
  | submit name r data =>
    exact Relation.ReflTransGen.mono (fun _ _ => Life.step) _ _ (submitBlock_run (eq_ok_of_toOption h) [])
  | disconnect name =>
    exact .single (.step (.peerDisconnected name (eq_ok_of_toOption h)))

/-- A script is a run of the download's life. -/
theorem runScript_life {ops : List Op} {d d' : Download σ} (h : runScript ops d = some d') :
    Relation.ReflTransGen Life ⟨d, []⟩ ⟨d', []⟩ := by
  induction ops generalizing d with
  | nil =>
    cases h
    exact .refl
  | cons op ops ih =>
    obtain ⟨d₁, h₁, h⟩ := Option.bind_eq_some_iff.1 h
    exact (Op.apply_life h₁).trans (ih h)

/-! ## A download that completes twice -/

/-- A torrent of two one-byte pieces whose two files have the same path, so that the second
piece is written over the first. -/
def twinFiles : Info :=
  { pieceLength := 1, privacy := [], name := [116], length := 0,
    files := [⟨1, [[97]]⟩, ⟨1, [[97]]⟩], totalLength := 2, numPieces := 2, hash := [], bytes := [],
    -- the digests of the bytes 1 and 2
    pieces := [191, 139, 69, 48, 216, 210, 70, 221, 116, 172, 83, 161, 52, 113, 187, 161, 121, 65,
      223, 247, 196, 234, 33, 187, 54, 91, 190, 234, 245, 242, 198, 84, 136, 62, 86, 209, 30, 67,
      196, 78] }

/-- Peer `p` sends both pieces, which completes the download; it is stopped and started again,
and peer `q`, which has both pieces, connects. -/
def completeTwice : List Op :=
  [.start, .connect "p" [1], .bitfield "p" (Bitfield.full 2), .work "p" 2,
    .submit "p" ⟨0, 0, 1⟩ [1], .submit "p" ⟨1, 0, 1⟩ [2], .disconnect "p", .stop, .start,
    .connect "q" [2], .bitfield "q" (Bitfield.full 2)]

/-- The run of `completeTwice`: the second start rescans the first piece as lost, and the
download downloads with `completed` still set, so that `q` gets no work. -/
theorem completeTwice_run : ∃ d₀ d,
    create twinFiles {} MemStore.fileStore {} none .indexOrder [] = .ok d₀ ∧
      runScript completeTwice d₀ = some d ∧ d.status = .downloading ∧ d.completed = true ∧
      (∃ rec, d.record? "q" = some rec ∧ rec.holds.all = true) ∧
      ∃ d', d.requestWork "q" 1 = .ok ([], d') := by
  -- the script runs once, in the kernel, over both starts and four checks of a digest
  have hrun : ((create twinFiles {} MemStore.fileStore ({} : MemStore) none .indexOrder []).toOption.any
      fun d₀ => (runScript completeTwice d₀).any fun d =>
        d.status == .downloading && d.completed && (d.record? "q").any (·.holds.all) &&
          (d.requestWork "q" 1).toOption.any (·.1.isEmpty)) = true := by
    decide +kernel
  obtain ⟨d₀, hcreate, hrest⟩ := Except.toOption_any_eq_true.1 hrun
  obtain ⟨d, hscript, hd⟩ := (Option.any_eq_true _ _).1 hrest
  simp only [Bool.and_eq_true, beq_iff_eq] at hd
  obtain ⟨⟨⟨hdl, hc⟩, hq⟩, hw⟩ := hd
  obtain ⟨rec, hrec, hall⟩ := (Option.any_eq_true _ _).1 hq
  obtain ⟨⟨rs, d'⟩, hreq, hempty⟩ := Except.toOption_any_eq_true.1 hw
  have hrs : rs = [] := List.isEmpty_iff.1 hempty
  rw [hrs] at hreq
  exact ⟨d₀, d, hcreate, hscript, hdl, hc, ⟨rec, hrec, hall⟩, d', hreq⟩

end Pipeline

end Torrent

end BitTorrent
