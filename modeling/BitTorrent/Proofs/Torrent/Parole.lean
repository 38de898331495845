import BitTorrent.Proofs.Torrent.Availability
import BitTorrent.Proofs.Picker.Senders

/-!
# Parole

A peer is put on parole when a piece that it sent a block of fails its hash check, and it leaves
parole when a piece that it sent all of is verified. This module proves that the parole flags of
the peer records follow that rule over every run.

A run is recorded as a log of marks (`Mark`): a session connecting under a name, and a piece
failing or passing its check, as the piece stood when the verdict was applied. Whether the log
puts a peer on parole is said on the log alone (`OnParole`): since the peer's session connected,
a piece that it sent a received block of failed, and since the last such failure no piece that it
sent all of passed. `Pipeline.Logged` is a step of a run with the marks it leaves.

Main statement: `Pipeline.parole_follows_log`. Along any run of a started download, a connected
peer is on parole exactly when its log says so; and the picker's answers that the flags are set
from are what they claim to be: resetting a piece answers the distinct senders of its received
blocks, and verifying it answers the peer that sent every block.
-/

namespace BitTorrent.Torrent

/-- What a run records about parole: a session connected under a name, or a piece failed or
passed its check, as it stood when the verdict was applied. -/
inductive Mark where
  | connected (name : String)
  | failed (pp : PartialPiece String)
  | passed (pp : PartialPiece String)

/-- The marks `log` put the peer `name` on parole: a piece that it sent a received block of
failed, and since then no piece that it sent all of passed. -/
def Paroled (name : String) (log : List Mark) : Prop :=
  ∃ a pp b, log = a ++ .failed pp :: b ∧ pp.SentBlock name ∧
    ∀ q, .passed q ∈ b → ¬ q.SentAll name

/-- The log of a run puts the peer `name` on parole: the marks since its session connected do. -/
def OnParole (name : String) (log : List Mark) : Prop :=
  ∃ pre post, log = pre ++ .connected name :: post ∧ .connected name ∉ post ∧ Paroled name post

/-! ## Extending a log by one mark -/

/-- Splitting a log that ends in `m` at some mark `x`: either `x` is that last mark, or the split
is in the log before it. -/
theorem append_singleton_eq {log a b : List Mark} {m x : Mark} (h : log ++ [m] = a ++ x :: b) :
    (b = [] ∧ log = a ∧ m = x) ∨ ∃ b', b = b' ++ [m] ∧ log = a ++ x :: b' := by
  rcases List.eq_nil_or_concat b with rfl | ⟨b', y, rfl⟩
  · obtain ⟨hlog, hm⟩ := List.append_inj' h rfl
    exact .inl ⟨rfl, hlog, List.singleton_inj.1 hm⟩
  · have h' : log ++ [m] = (a ++ x :: b') ++ [y] := by simpa using h
    obtain ⟨hlog, hm⟩ := List.append_inj' h' rfl
    exact .inr ⟨b', by simp [List.singleton_inj.1 hm], hlog⟩

/-- A session that connected has a last connection in the log. -/
theorem exists_last_connected {name : String} {log : List Mark} (h : .connected name ∈ log) :
    ∃ pre post, log = pre ++ .connected name :: post ∧ .connected name ∉ post := by
  induction log with
  | nil => cases h
  | cons x log ih =>
    by_cases hin : .connected name ∈ log
    · obtain ⟨pre, post, rfl, hnot⟩ := ih hin
      exact ⟨x :: pre, post, rfl, hnot⟩
    · have hx : Mark.connected name = x := by simpa [hin] using h
      exact ⟨[], log, by simp [hx], hin⟩

theorem not_paroled_nil (name : String) : ¬ Paroled name [] := by
  rintro ⟨a, pp, b, h, -⟩
  simp at h

/-- One more mark puts a peer on parole when it is a failure of a piece that the peer sent a
block of, and ends its parole when it is a pass of a piece that the peer sent all of. -/
theorem paroled_append {name : String} {log : List Mark} {m : Mark} :
    Paroled name (log ++ [m]) ↔
      (Paroled name log ∧ ∀ q, m = .passed q → ¬ q.SentAll name) ∨
        ∃ pp, m = .failed pp ∧ pp.SentBlock name := by
  constructor
  · rintro ⟨a, pp, b, h, hsent, hpass⟩
    rcases append_singleton_eq h with ⟨rfl, rfl, rfl⟩ | ⟨b', rfl, rfl⟩
    · exact .inr ⟨pp, rfl, hsent⟩
    · refine .inl ⟨⟨a, pp, b', rfl, hsent, fun q hq => hpass q (by simp [hq])⟩, ?_⟩
      rintro q rfl
      exact hpass q (by simp)
  · rintro (⟨⟨a, pp, b, rfl, hsent, hpass⟩, hm⟩ | ⟨pp, rfl, hsent⟩)
    · refine ⟨a, pp, b ++ [m], by simp, hsent, fun q hq => ?_⟩
      rcases List.mem_append.1 hq with hq | hq
      · exact hpass q hq
      · exact hm q (List.mem_singleton.1 hq).symm
    · exact ⟨log, pp, [], rfl, hsent, by simp⟩

/-- A mark other than its own connection counts for a peer after the connection it follows. -/
theorem onParole_append {name : String} {log : List Mark} {m : Mark}
    (hm : m ≠ .connected name) :
    OnParole name (log ++ [m]) ↔ ∃ pre post, log = pre ++ .connected name :: post ∧
      .connected name ∉ post ∧ Paroled name (post ++ [m]) := by
  constructor
  · rintro ⟨pre, post, h, hnot, hpar⟩
    rcases append_singleton_eq h with ⟨rfl, -, rfl⟩ | ⟨post', rfl, rfl⟩
    · exact absurd rfl hm
    · exact ⟨pre, post', rfl, fun h => hnot (by simp [h]), hpar⟩
  · rintro ⟨pre, post, rfl, hnot, hpar⟩
    refine ⟨pre, post ++ [m], by simp, ?_, hpar⟩
    simp only [List.mem_append, List.mem_singleton, not_or]
    exact ⟨hnot, fun h => hm h.symm⟩

/-- A session that has just connected is not on parole. -/
theorem not_onParole_connected (name : String) (log : List Mark) :
    ¬ OnParole name (log ++ [.connected name]) := by
  rintro ⟨pre, post, h, hnot, hpar⟩
  rcases append_singleton_eq h with ⟨rfl, -, -⟩ | ⟨post', rfl, -⟩
  · exact not_paroled_nil name hpar
  · exact hnot (by simp)

theorem onParole_append_connected {name n : String} (hne : n ≠ name) {log : List Mark} :
    OnParole name (log ++ [.connected n]) ↔ OnParole name log := by
  rw [onParole_append (by simpa using hne)]
  simp only [paroled_append, reduceCtorEq, false_and, exists_false, or_false, IsEmpty.forall_iff,
    implies_true, and_true]
  rfl

/-- A failure puts on parole every connected peer that sent a block of the piece. -/
theorem onParole_append_failed {name : String} {log : List Mark} (hconn : .connected name ∈ log)
    (pp : PartialPiece String) :
    OnParole name (log ++ [.failed pp]) ↔ OnParole name log ∨ pp.SentBlock name := by
  rw [onParole_append (by simp)]
  simp only [paroled_append, reduceCtorEq, IsEmpty.forall_iff, implies_true, and_true,
    Mark.failed.injEq, exists_eq_left']
  constructor
  · rintro ⟨pre, post, rfl, hnot, hpar | hsent⟩
    · exact .inl ⟨pre, post, rfl, hnot, hpar⟩
    · exact .inr hsent
  · rintro (⟨pre, post, rfl, hnot, hpar⟩ | hsent)
    · exact ⟨pre, post, rfl, hnot, .inl hpar⟩
    · -- the failure counts after the peer's last connection
      obtain ⟨pre, post, rfl, hnot⟩ := exists_last_connected hconn
      exact ⟨pre, post, rfl, hnot, .inr hsent⟩

/-- A pass ends the parole of the peer that sent all of the piece. -/
theorem onParole_append_passed {name : String} {log : List Mark} (pp : PartialPiece String) :
    OnParole name (log ++ [.passed pp]) ↔ OnParole name log ∧ ¬ pp.SentAll name := by
  rw [onParole_append (by simp)]
  simp only [paroled_append, Mark.passed.injEq, forall_eq', reduceCtorEq, false_and,
    exists_false, or_false]
  constructor
  · rintro ⟨pre, post, rfl, hnot, hpar, hall⟩
    exact ⟨⟨pre, post, rfl, hnot, hpar⟩, hall⟩
  · rintro ⟨⟨pre, post, rfl, hnot, hpar⟩, hall⟩
    exact ⟨pre, post, rfl, hnot, hpar, hall⟩

namespace Download

variable {σ : Type} {d d' : Download σ}

/-! ## The parole flags of the records -/

/-- Each connected peer's name with whether it is on parole, in connection order. -/
def paroles (d : Download σ) : List (String × Bool) :=
  d.peers.map fun r => (r.name, r.parole)

theorem map_fst_paroles (d : Download σ) : d.paroles.map Prod.fst = d.peers.map (·.name) := by
  simp [paroles]

/-- Replacing a record by name rewrites the entries with that name. -/
theorem paroles_setRecord (d : Download σ) (r : PeerRecord) :
    (d.setRecord r).paroles =
      d.paroles.map fun x => if x.1 = r.name then (x.1, r.parole) else x := by
  simp only [paroles, setRecord, List.map_map]
  refine List.map_congr_left fun q _ => ?_
  by_cases hq : q.name = r.name <;> simp [hq]

/-- With the names distinct, a record replaced by one with its name and flag leaves the
entries as they were. -/
theorem paroles_setRecord_same (hnd : (d.peers.map (·.name)).Nodup) {rec r : PeerRecord}
    (hrec : rec ∈ d.peers) (hname : r.name = rec.name) (hpar : r.parole = rec.parole) :
    (d.setRecord r).paroles = d.paroles := by
  rw [paroles_setRecord]
  refine (List.map_congr_left fun x hx => ?_).trans (List.map_id _)
  obtain ⟨q, hq, rfl⟩ := List.mem_map.1 hx
  by_cases hn : q.name = r.name
  · -- the only record with that name is `rec` itself
    have hqr : q = rec := List.inj_on_of_nodup_map hnd hq hrec (hn.trans hname)
    simp [hqr, hpar]
  · simp [hn]

theorem name_ne_of_record?_eq_none {name : String} (h : d.record? name = none) :
    ∀ x ∈ d.paroles, x.1 ≠ name := by
  intro x hx hxn
  obtain ⟨q, hq, rfl⟩ := List.mem_map.1 hx
  have hne := List.find?_eq_none.1 h q hq
  simp_all

/-- Putting peers on parole one after another sets the flags of the named records. -/
theorem paroles_foldl_put {f : Download σ → String → Download σ}
    (hf : ∀ d s, (f d s).paroles = d.paroles.map (fun x => (x.1, x.2 || decide (x.1 = s))) ∧
      (f d s).picker = d.picker) (cs : List String) (d : Download σ) :
    (cs.foldl f d).paroles = d.paroles.map (fun x => (x.1, x.2 || decide (x.1 ∈ cs))) ∧
      (cs.foldl f d).picker = d.picker := by
  induction cs generalizing d with
  | nil => simp
  | cons s cs ih =>
    obtain ⟨hp, hpk⟩ := hf d s
    obtain ⟨hp', hpk'⟩ := ih (f d s)
    rw [List.foldl_cons, hp', hp, hpk', hpk, List.map_map]
    refine ⟨List.map_congr_left fun x _ => ?_, rfl⟩
    simp [Bool.or_assoc]

@[simp] theorem paroles_setCompleted (d : Download σ) : d.setCompleted.paroles = d.paroles :=
  rfl

/-! ## What each operation does to the records and the picker -/

/-- The picker of a download, when it has one, keeps the picker's invariant. -/
def PickerInv (d : Download σ) : Prop :=
  ∀ pk, d.picker = some pk → pk.Inv

/-- A change that keeps the parole entries, and gives a picker only when the download had one,
from which it keeps the invariant. -/
structure Quiet (d d' : Download σ) : Prop where
  paroles : d'.paroles = d.paroles
  picker : ∀ pk', d'.picker = some pk' → ∃ pk, d.picker = some pk ∧ (pk.Inv → pk'.Inv)

theorem Quiet.refl (d : Download σ) : Quiet d d :=
  ⟨rfl, fun pk' h => ⟨pk', h, id⟩⟩

theorem Quiet.trans {d₁ d₂ d₃ : Download σ} (h₁ : Quiet d₁ d₂) (h₂ : Quiet d₂ d₃) :
    Quiet d₁ d₃ := by
  refine ⟨h₂.paroles.trans h₁.paroles, fun pk₃ hpk₃ => ?_⟩
  obtain ⟨pk₂, hpk₂, hinv₂⟩ := h₂.picker pk₃ hpk₃
  obtain ⟨pk₁, hpk₁, hinv₁⟩ := h₁.picker pk₂ hpk₂
  exact ⟨pk₁, hpk₁, hinv₂ ∘ hinv₁⟩

theorem Quiet.pickerInv (hq : Quiet d d') (h : d.PickerInv) : d'.PickerInv := by
  intro pk' hpk'
  obtain ⟨pk, hpk, hinv⟩ := hq.picker pk' hpk'
  exact hinv (h pk hpk)

/-- A change of neither the records nor the picker is quiet. -/
theorem Quiet.of_eq (hp : d'.peers = d.peers) (hpk : d'.picker = d.picker) : Quiet d d' := by
  refine ⟨?_, fun pk' h => ⟨pk', hpk ▸ h, id⟩⟩
  unfold Download.paroles
  rw [hp]

/-- A new picker derived from the old one, keeping the invariant, is quiet. -/
theorem Quiet.setPicker {pk pk' : Picker String} (hpk : d.picker = some pk)
    (hinv : pk.Inv → pk'.Inv) (hp : d'.peers = d.peers) (hpk' : d'.picker = some pk') :
    Quiet d d' := by
  refine ⟨?_, fun q hq => ?_⟩
  · unfold Download.paroles
    rw [hp]
  rw [hpk'] at hq
  cases hq
  exact ⟨pk, hpk, hinv⟩

@[simp] theorem peers_fail (d : Download σ) (e : Disk.Failure) : (d.fail e).peers = d.peers := by
  unfold fail
  split <;> simp

/-- Failing drops the picker or leaves the download as it is. -/
theorem quiet_fail (d : Download σ) (e : Disk.Failure) : Quiet d (d.fail e) := by
  unfold fail
  split
  · exact Quiet.refl d
  · rename_i hcond
    have hst : d.status ≠ .stopped := by simp_all
    refine ⟨by simp [paroles], fun pk' h => ?_⟩
    rw [picker_stop (by simpa using hst)] at h
    cases h

theorem quiet_requestWork {name : String} {n : Int} {rs : List Request}
    (h : d.requestWork name n = .ok (rs, d')) : Quiet d d' := by
  rcases requestWork_eq h with ⟨-, rfl⟩ | ⟨rec, pk, pk', -, -, -, hpk, hsel, rfl⟩
  · exact Quiet.refl _
  · exact Quiet.setPicker hpk (fun hinv => (hinv.select hsel).1) rfl rfl

theorem quiet_cancelRequests {name : String} {rs : List Request}
    (h : d.cancelRequests name rs = .ok d') : Quiet d d' := by
  rcases cancelRequests_eq h with rfl | ⟨pk, pk', hpk, hfold, rfl⟩
  · exact Quiet.refl _
  · exact Quiet.setPicker hpk (fun hinv => (Picker.keeps_foldCancel hinv hfold).1) rfl rfl

/-- A peer's new bitfield replaces its record by one with the same name and flag. -/
theorem quiet_setHolds (hnd : (d.peers.map (·.name)).Nodup) {name : String} {rec : PeerRecord}
    (hrec : d.record? name = some rec) (holds : Bitfield) {pk pk' : Picker String}
    (hpk : d.picker = some pk) (hinv : pk.Inv → pk'.Inv) :
    Quiet d { d.setRecord { rec with holds } with picker := some pk' } := by
  refine ⟨?_, fun q hq => ?_⟩
  · exact paroles_setRecord_same hnd (record?_eq_some hrec).1 rfl rfl
  · simp only [Option.some.injEq] at hq
    subst hq
    exact ⟨pk, hpk, hinv⟩

theorem quiet_reportHave (hnd : (d.peers.map (·.name)).Nodup) {name : String} {i : UInt32}
    {b : Bool} (h : d.reportHave name i = .ok (b, d')) : Quiet d d' := by
  rcases reportHave_eq h with rfl | ⟨rec, holds, pk, pk', hrec, -, hpk, hhave, rfl⟩
  · exact Quiet.refl _
  · exact quiet_setHolds hnd hrec holds hpk fun hinv => hinv.handleHave hhave

theorem quiet_reportBitfield (hnd : (d.peers.map (·.name)).Nodup) {name : String}
    {bf : Bitfield} {b : Bool} (h : d.reportBitfield name bf = .ok (b, d')) : Quiet d d' := by
  rcases reportBitfield_eq h with rfl | ⟨rec, pk, pk₁, pk₂, hrec, hpk, hdis, hbf, rfl⟩
  · exact Quiet.refl _
  · exact quiet_setHolds hnd hrec bf hpk fun hinv =>
      (hinv.handleDisconnect hdis).handleBitfield hbf

theorem quiet_claimBlock {name : String} {r : Request} {data : List UInt8} {ok : Bool}
    (h : d.claimBlock name r data = .ok (ok, d')) : Quiet d d' := by
  rcases claimBlock_eq h with ⟨-, rfl⟩ | ⟨pk, others, pk', -, hpk, hmr, ⟨-, rfl⟩ | ⟨rfl, rfl⟩⟩
  · exact Quiet.refl _
  · exact Quiet.of_eq rfl rfl
  · exact Quiet.setPicker hpk (fun hinv => hinv.markReceived hmr) rfl rfl

theorem quiet_writeClaimed {r : Request} {data : List UInt8} {complete : Bool}
    (h : d.writeClaimed r data = .ok (complete, d')) : Quiet d d' := by
  obtain ⟨disk, -, ⟨e, disk', st, -, rfl⟩ | ⟨disk', st, -, rfl⟩⟩ := writeClaimed_cases h
  · have hq : Quiet d ({ d with disk := some disk', store := st } : Download σ) :=
      Quiet.of_eq rfl rfl
    exact hq.trans (quiet_fail _ e)
  · exact Quiet.of_eq rfl rfl

theorem quiet_checkPiece {index : UInt32} {v : Option Bool}
    (h : d.checkPiece index = .ok (v, d')) : Quiet d d' := by
  obtain ⟨disk, -, ⟨-, e, disk', rfl⟩ | ⟨good, disk', -, -, rfl⟩⟩ := checkPiece_cases h
  · have hq : Quiet d ({ d with disk := some disk' } : Download σ) := Quiet.of_eq rfl rfl
    exact hq.trans (quiet_fail _ (.disk e))
  · exact Quiet.of_eq rfl rfl

/-- A session that connects gets a record that is not on parole. -/
theorem paroles_peerConnected {name : String} {id : List UInt8} {outgoing : Bool}
    {ours : Option Bitfield} (h : d.peerConnected name id outgoing = (ours, d')) :
    d'.paroles = d.paroles ++ ours.toList.map (fun _ => (name, false)) ∧
      d'.picker = d.picker := by
  rcases peerConnected_eq h with ⟨rfl, rfl⟩ | ⟨bf, -, rfl, rfl⟩
  · simp
  · simp [paroles]

/-- A session that ends takes its record away. -/
theorem paroles_peerDisconnected {name : String} (h : d.peerDisconnected name = .ok d') :
    d'.paroles = d.paroles.filter (·.1 != name) ∧
      ∀ pk', d'.picker = some pk' → ∃ pk, d.picker = some pk ∧ (pk.Inv → pk'.Inv) := by
  rcases peerDisconnected_eq h with ⟨hrec, rfl⟩ | ⟨rec, pk, n, pk₁, pk₂, -, -, hpk, hrel, hdis, -, rfl⟩
  · refine ⟨(List.filter_eq_self.2 fun x hx => ?_).symm, fun pk' hpk' => ⟨pk', hpk', id⟩⟩
    simpa using name_ne_of_record?_eq_none hrec x hx
  · refine ⟨by simp [paroles, List.filter_map, Function.comp_def], fun q hq => ?_⟩
    simp only [Option.some.injEq] at hq
    subst hq
    exact ⟨pk, hpk, fun hinv => (hinv.releasePeer hrel).handleDisconnect hdis⟩

/-- A verified piece ends the parole of the peer that sent all of it. -/
theorem paroles_pieceVerified (hnd : (d.peers.map (·.name)).Nodup) {index : UInt32}
    (h : d.pieceVerified index = .ok d') :
    ∃ pk sender pk', d.picker = some pk ∧ pk.markVerified index = .ok (sender, pk') ∧
      d'.picker = some pk' ∧
      d'.paroles = d.paroles.map fun x => (x.1, x.2 && !decide (sender = some x.1)) := by
  unfold pieceVerified at h
  rw [Except.bind_eq_ok] at h
  obtain ⟨pk, hpk, h⟩ := h
  rw [Except.bind_eq_ok] at h
  obtain ⟨⟨sender, pk'⟩, hmv, h⟩ := h
  refine ⟨pk, sender, pk', picker!_eq_ok hpk, hmv, ?_⟩
  split at h
  rename_i heq
  simp only [Prod.mk.injEq] at heq
  obtain ⟨rfl, rfl⟩ := heq
  dsimp only at h
  -- the entries after releasing the sender, whatever its record says
  have hnone : sender.bind d.record? = none →
      d.paroles = d.paroles.map fun x => (x.1, x.2 && !decide (sender = some x.1)) := by
    intro hs
    refine ((List.map_congr_left fun x hx => ?_).trans (List.map_id _)).symm
    cases sender with
    | none => simp
    | some s => simp [Ne.symm (name_ne_of_record?_eq_none hs x hx)]
  have hsome : ∀ rec, sender.bind d.record? = some rec →
      (d.setRecord { rec with parole := false }).paroles =
        d.paroles.map fun x => (x.1, x.2 && !decide (sender = some x.1)) := by
    intro rec hs
    obtain ⟨s, rfl, hrec⟩ := Option.bind_eq_some_iff.1 hs
    obtain ⟨-, hname⟩ := record?_eq_some hrec
    rw [paroles_setRecord]
    refine List.map_congr_left fun x _ => ?_
    by_cases hx : x.1 = s
    · simp [hx, hname]
    · simp [hx, hname, Ne.symm hx]
  cases hs : sender.bind ({ d with picker := some pk' } : Download σ).record? <;>
    simp only [hs] at h
  on_goal 2 =>
    rename_i rec
    by_cases hp : rec.parole = true <;> simp only [hp, ↓reduceIte, Bool.false_eq_true] at h
  all_goals
    split at h
    on_goal 2 => cases h
    rw [Except.bind_eq_ok] at h
    obtain ⟨bf', -, h⟩ := h
    rw [Except.pure_eq_ok] at h
    subst h
    refine ⟨by split <;> rfl, ?_⟩
    -- setting the bit and completing leave the records alone
    rw [apply_ite paroles, paroles_setCompleted, ite_self]
  · exact hnone hs
  · exact hsome rec hs
  · -- the record was not on parole: releasing it changes nothing
    obtain ⟨s, rfl, hrec⟩ := Option.bind_eq_some_iff.1 hs
    have hfalse : rec.parole = false := by simpa using hp
    have hsame : (d.setRecord { rec with parole := false }).paroles = d.paroles :=
      paroles_setRecord_same hnd (record?_eq_some hrec).1 rfl hfalse.symm
    exact hsame.symm.trans (hsome rec hs)

/-- A piece that failed puts on parole the peers that the picker names for it. -/
theorem paroles_pieceFailed {index : UInt32} (h : d.pieceFailed index = .ok d') :
    ∃ pk cs pk', d.picker = some pk ∧ pk.resetPiece index = .ok (cs, pk') ∧
      d'.picker = some pk' ∧
      d'.paroles = d.paroles.map fun x => (x.1, x.2 || decide (x.1 ∈ cs)) := by
  unfold pieceFailed at h
  rw [Except.bind_eq_ok] at h
  obtain ⟨pk, hpk, h⟩ := h
  rw [Except.bind_eq_ok] at h
  obtain ⟨⟨cs, pk'⟩, hreset, h⟩ := h
  rw [Except.pure_eq_ok] at h
  subst h
  refine ⟨pk, cs, pk', picker!_eq_ok hpk, hreset, ?_⟩
  refine (paroles_foldl_put (fun d₁ s => ?_) cs _).symm
  -- one peer put on parole
  split
  · rename_i rec hrec
    obtain ⟨-, hname⟩ := record?_eq_some hrec
    refine ⟨?_, rfl⟩
    rw [paroles_setRecord]
    refine List.map_congr_left fun x _ => ?_
    by_cases hx : x.1 = s <;> simp [hx, hname]
  · rename_i hrec
    refine ⟨((List.map_congr_left fun x hx => ?_).trans (List.map_id _)).symm, rfl⟩
    simp [name_ne_of_record?_eq_none hrec x hx]

/-! ## Starting -/

/-- Verifying the files either leaves the download without error or fails it, dropping the
picker. -/
theorem verify_picker {disk : Disk} (h : d.verify disk = .ok d') (hst : d.status ≠ .stopped)
    (hnone : d.lastErr = none) : d'.lastErr = none ∨ d'.picker = none := by
  unfold verify at h
  obtain ⟨⟨r, progress⟩, hs⟩ : ∃ x, disk.scan d.fs d.store false = x := ⟨_, rfl⟩
  have hscan : (∃ bf, (disk.scan d.fs d.store false).1 = .ok bf ∧
      bf.length = disk.pieces.size.toUInt32) ∨
      ∃ e, (disk.scan d.fs d.store false).1 = .error (.disk e) := Disk.scan_ok_or_disk
  rw [hs] at h hscan
  dsimp only at h hscan
  rcases hscan with ⟨bf, rfl, -⟩ | ⟨e, rfl⟩
  · left
    dsimp only at h
    split at h
    all_goals
      rw [Except.bind_eq_ok] at h
      obtain ⟨⟨disk1, pk1⟩, -, h⟩ := h
      rw [Except.pure_eq_ok] at h
      subst h
      rw [lastErr_dialAddresses]
      split <;> exact hnone
  · -- a failed scan fails the download, which stops it
    right
    dsimp only at h
    rw [Except.pure_eq_ok] at h
    subst h
    have hst' : ({ d with checked := progress.getLastD d.checked } : Download σ).status ≠
        .stopped := hst
    simp only [fail, hnone, Option.isSome_none, Bool.false_or, beq_iff_eq, hst', ↓reduceIte]
    exact picker_stop (by simpa using hst)

/-- A stopped download that starts keeps its records, and has no picker or one that keeps the
invariant. -/
theorem start_fresh (hstop : d.status = .stopped)
    (hpos : ∀ i, i < d.info.numPieces → 0 < d.info.pieceLen i) (h : d.start = .ok (none, d')) :
    d'.peers = d.peers ∧ d'.PickerInv := by
  -- the records, and the failure that drops the picker, come from the verification
  have hverify : d'.peers = d.peers ∧ (d'.lastErr = none ∨ d'.picker = none) := by
    unfold start at h
    split at h
    · simp only [Except.pure_eq_ok, Prod.mk.injEq, reduceCtorEq, false_and] at h
    split at h
    · rename_i hst
      simp [hstop] at hst
    split at h
    · simp only [Except.pure_eq_ok, Prod.mk.injEq, reduceCtorEq, false_and] at h
    dsimp only at h
    split at h
    · simp only [Except.pure_eq_ok, Prod.mk.injEq, reduceCtorEq, false_and] at h
    rw [Except.bind_eq_ok] at h
    obtain ⟨d2, hv, h⟩ := h
    simp only [Except.pure_eq_ok, Prod.mk.injEq, true_and] at h
    subst h
    exact ⟨(verify_fresh hv (by simp) rfl).1, verify_picker hv (by simp) rfl⟩
  refine ⟨hverify.1, fun pk hpk => ?_⟩
  rcases hverify.2 with hnone | hnopk
  · obtain ⟨pk', disk, bf, hpk', -, -, -, -, -, hR⟩ := start_restored hstop h hnone hpos
    rw [hpk'] at hpk
    cases hpk
    exact hR.inv
  · rw [hnopk] at hpk
    cases hpk

/-! ## The log invariant -/

/-- What a run keeps of the parole flags: the connected peers have distinct names, each has
connected in the log and is on parole exactly when the log says so, and the picker keeps its
invariant. -/
structure ParoleLog (d : Download σ) (log : List Mark) : Prop where
  names : (d.paroles.map Prod.fst).Nodup
  picker : d.PickerInv
  connected : ∀ x ∈ d.paroles, .connected x.1 ∈ log
  parole : ∀ x ∈ d.paroles, x.2 = true ↔ OnParole x.1 log

variable {log : List Mark}

theorem ParoleLog.names_peers (h : d.ParoleLog log) : (d.peers.map (·.name)).Nodup := by
  rw [← map_fst_paroles]
  exact h.names

theorem ParoleLog.quiet (h : d.ParoleLog log) (hq : Quiet d d') : d'.ParoleLog log := by
  refine ⟨hq.paroles ▸ h.names, hq.pickerInv h.picker, ?_, ?_⟩
  · rw [hq.paroles]
    exact h.connected
  · rw [hq.paroles]
    exact h.parole

/-- Flags rewritten in place, under the same names: the invariant holds of the longer log when
each new flag is what that log says. -/
theorem ParoleLog.update (h : d.ParoleLog log) {f : String × Bool → Bool} (m : List Mark)
    (hp : d'.paroles = d.paroles.map fun x => (x.1, f x)) (hpick : d'.PickerInv)
    (hf : ∀ x ∈ d.paroles, f x = true ↔ OnParole x.1 (log ++ m)) : d'.ParoleLog (log ++ m) := by
  have hmem : ∀ y ∈ d'.paroles, ∃ x ∈ d.paroles, y = (x.1, f x) := by
    intro y hy
    rw [hp] at hy
    obtain ⟨x, hx, rfl⟩ := List.mem_map.1 hy
    exact ⟨x, hx, rfl⟩
  refine ⟨?_, hpick, fun y hy => ?_, fun y hy => ?_⟩
  · rw [hp, List.map_map]
    exact h.names
  · obtain ⟨x, hx, rfl⟩ := hmem y hy
    exact List.mem_append_left m (h.connected x hx)
  · obtain ⟨x, hx, rfl⟩ := hmem y hy
    exact hf x hx

theorem ParoleLog.peerConnected (h : d.ParoleLog log) {name : String} {id : List UInt8}
    {outgoing : Bool} {ours : Option Bitfield} (hnew : name ∉ d.peers.map (·.name))
    (hc : d.peerConnected name id outgoing = (ours, d')) :
    d'.ParoleLog (log ++ ours.toList.map fun _ => .connected name) := by
  obtain ⟨hp, hpk⟩ := paroles_peerConnected hc
  cases ours with
  | none =>
    simp only [Option.toList_none, List.map_nil, List.append_nil] at hp ⊢
    exact h.quiet ⟨hp, fun pk' h' => ⟨pk', hpk ▸ h', fun hinv => hinv⟩⟩
  | some bf =>
    simp only [Option.toList_some, List.map_cons, List.map_nil] at hp ⊢
    have hfresh : ∀ x ∈ d.paroles, x.1 ≠ name := fun x hx hx1 =>
      hnew (by rw [← map_fst_paroles, ← hx1]; exact List.mem_map_of_mem hx)
    refine ⟨?_, fun pk' h' => h.picker pk' (hpk ▸ h'), fun x hx => ?_, fun x hx => ?_⟩
    · rw [hp, List.map_append, List.nodup_append]
      refine ⟨h.names, List.nodup_singleton _, fun a ha b hb hab => ?_⟩
      obtain ⟨x, hx, rfl⟩ := List.mem_map.1 ha
      rw [List.map_cons, List.map_nil, List.mem_singleton] at hb
      exact hfresh x hx (hab.trans hb)
    · rw [hp] at hx
      rcases List.mem_append.1 hx with hx | hx
      · exact List.mem_append_left _ (h.connected x hx)
      · rw [List.mem_singleton.1 hx]
        simp
    · rw [hp] at hx
      rcases List.mem_append.1 hx with hx | hx
      · rw [onParole_append_connected (Ne.symm (hfresh x hx))]
        exact h.parole x hx
      · -- the new record is not on parole, and neither is a session that just connected
        rw [List.mem_singleton.1 hx]
        simpa using not_onParole_connected name log

theorem ParoleLog.peerDisconnected (h : d.ParoleLog log) {name : String}
    (hd : d.peerDisconnected name = .ok d') : d'.ParoleLog log := by
  obtain ⟨hp, hpk⟩ := paroles_peerDisconnected hd
  have hsub : ∀ x ∈ d'.paroles, x ∈ d.paroles := fun x hx => (List.mem_filter.1 (hp ▸ hx)).1
  refine ⟨?_, fun pk' h' => ?_, fun x hx => h.connected x (hsub x hx),
    fun x hx => h.parole x (hsub x hx)⟩
  · rw [hp]
    exact h.names.sublist (List.filter_sublist.map _)
  · obtain ⟨pk, hpk0, hinv⟩ := hpk pk' h'
    exact hinv (h.picker pk hpk0)

/-- A verdict applied to a piece changes the flags as the mark of the piece says. -/
theorem ParoleLog.finishPiece (h : d.ParoleLog log) {index : UInt32} {good : Bool}
    (hf : d.finishPiece index good = .ok d') :
    d'.ParoleLog (log ++ (d.picker.bind (·.partial? index)).toList.map fun pp =>
      if good then .passed pp else .failed pp) := by
  rcases finishPiece_cases hf with ⟨hnone, rfl⟩ | ⟨rfl, hv⟩ | ⟨rfl, hfail⟩
  · simpa [hnone] using h
  · obtain ⟨pk, sender, pk', hpk, hmv, hpk', hp⟩ := paroles_pieceVerified h.names_peers hv
    have hinv := h.picker pk hpk
    have hpick : d'.PickerInv := fun q hq => by
      rw [hpk'] at hq
      cases hq
      exact hinv.markVerified hmv
    rw [hpk, Option.bind_some]
    refine h.update _ hp hpick fun x hx => ?_
    rw [Picker.markVerified_sender hinv hmv]
    cases pk.partial? index with
    | none => simpa using h.parole x hx
    | some pp =>
      simp only [Option.bind_some, Option.toList_some, List.map_cons, ↓reduceIte, List.map_nil,
        onParole_append_passed, ← h.parole x hx, PartialPiece.soleSender_eq_some,
        Bool.and_eq_true, Bool.not_eq_eq_eq_not, Bool.not_true, decide_eq_false_iff_not]
  · obtain ⟨pk, cs, pk', hpk, hreset, hpk', hp⟩ := paroles_pieceFailed hfail
    have hinv := h.picker pk hpk
    have hpick : d'.PickerInv := fun q hq => by
      rw [hpk'] at hq
      cases hq
      exact hinv.resetPiece hreset
    rw [hpk, Option.bind_some]
    refine h.update _ hp hpick fun x hx => ?_
    rw [Picker.resetPiece_senders hreset]
    cases hpp : pk.partial? index with
    | none => simpa using h.parole x hx
    | some pp =>
      -- the peers named are the senders of the piece's received blocks
      have hsound := (hinv.tracks pp (Picker.mem_of_partial? hpp).1).sound
      simp only [Option.map_some, Option.getD_some, Option.toList_some, List.map_cons,
        Bool.false_eq_true, ↓reduceIte, List.map_nil, onParole_append_failed (h.connected x hx),
        ← h.parole x hx, Bool.or_eq_true, decide_eq_true_eq, (pp.contributors_spec).2,
        hsound.sentBlock_iff]

end Download

namespace Pipeline

variable {σ : Type}

/-- One step of a run with the marks it leaves. A session connects under a name that no
connected peer has, and is marked when it gets a record; a verdict applied to a piece is marked
with the piece as it stood, when it was partial; the other steps leave no mark. -/
inductive Logged : Pipeline σ → List Mark → Pipeline σ → Prop
  | requestWork {d d' : Download σ} {fl : List Submission} (name : String) (n : Int)
      (rs : List Request) (h : d.requestWork name n = .ok (rs, d')) : Logged ⟨d, fl⟩ [] ⟨d', fl⟩
  | cancelRequests {d d' : Download σ} {fl : List Submission} (name : String)
      (rs : List Request) (h : d.cancelRequests name rs = .ok d') : Logged ⟨d, fl⟩ [] ⟨d', fl⟩
  | reportHave {d d' : Download σ} {fl : List Submission} (name : String) (i : UInt32)
      (b : Bool) (h : d.reportHave name i = .ok (b, d')) : Logged ⟨d, fl⟩ [] ⟨d', fl⟩
  | reportBitfield {d d' : Download σ} {fl : List Submission} (name : String) (bf : Bitfield)
      (b : Bool) (h : d.reportBitfield name bf = .ok (b, d')) : Logged ⟨d, fl⟩ [] ⟨d', fl⟩
  | peerConnected {d d' : Download σ} {fl : List Submission} (name : String) (id : List UInt8)
      (outgoing : Bool) (ours : Option Bitfield) (hnew : name ∉ d.peers.map (·.name))
      (h : d.peerConnected name id outgoing = (ours, d')) :
      Logged ⟨d, fl⟩ (ours.toList.map fun _ => .connected name) ⟨d', fl⟩
  | peerDisconnected {d d' : Download σ} {fl : List Submission} (name : String)
      (h : d.peerDisconnected name = .ok d') : Logged ⟨d, fl⟩ [] ⟨d', fl⟩
  | claim {d d' : Download σ} {fl : List Submission} (name : String) (r : Request)
      (data : List UInt8) (ok : Bool) (h : d.claimBlock name r data = .ok (ok, d')) :
      Logged ⟨d, fl⟩ [] ⟨d', if ok then ⟨r, data, .claimed⟩ :: fl else fl⟩
  | write {d d' : Download σ} {fl : List Submission} (r : Request) (data : List UInt8)
      (hin : ⟨r, data, .claimed⟩ ∈ fl) (complete : Bool)
      (h : d.writeClaimed r data = .ok (complete, d')) :
      Logged ⟨d, fl⟩ [] ⟨d', if complete then ⟨r, data, .written⟩ :: fl.erase ⟨r, data, .claimed⟩
        else fl.erase ⟨r, data, .claimed⟩⟩
  | check {d d' : Download σ} {fl : List Submission} (r : Request) (data : List UInt8)
      (hin : ⟨r, data, .written⟩ ∈ fl) (v : Option Bool)
      (h : d.checkPiece r.index = .ok (v, d')) :
      Logged ⟨d, fl⟩ [] ⟨d', (v.toList.map fun good => ⟨r, data, .checked good⟩) ++
        fl.erase ⟨r, data, .written⟩⟩
  | finish {d d' : Download σ} {fl : List Submission} (r : Request) (data : List UInt8)
      (good : Bool) (hin : ⟨r, data, .checked good⟩ ∈ fl)
      (h : d.finishPiece r.index good = .ok d') :
      Logged ⟨d, fl⟩ ((d.picker.bind (·.partial? r.index)).toList.map fun pp =>
        if good then .passed pp else .failed pp) ⟨d', fl.erase ⟨r, data, .checked good⟩⟩

/-- A run with the marks of its steps, in order. -/
inductive Run : Pipeline σ → List Mark → Pipeline σ → Prop
  | refl (s : Pipeline σ) : Run s [] s
  | tail {s s₁ s₂ : Pipeline σ} {log m : List Mark} (hr : Run s log s₁) (hs : Logged s₁ m s₂) :
      Run s (log ++ m) s₂

variable {s s' : Pipeline σ} {log m : List Mark}

theorem Logged.paroleLog (hs : Logged s m s') (h : s.download.ParoleLog log) :
    s'.download.ParoleLog (log ++ m) := by
  cases hs with
  | requestWork _ _ _ hr =>
    rw [List.append_nil]
    exact h.quiet (Download.quiet_requestWork hr)
  | cancelRequests _ _ hr =>
    rw [List.append_nil]
    exact h.quiet (Download.quiet_cancelRequests hr)
  | reportHave _ _ _ hr =>
    rw [List.append_nil]
    exact h.quiet (Download.quiet_reportHave h.names_peers hr)
  | reportBitfield _ _ _ hr =>
    rw [List.append_nil]
    exact h.quiet (Download.quiet_reportBitfield h.names_peers hr)
  | peerConnected _ _ _ _ hnew hr => exact h.peerConnected hnew hr
  | peerDisconnected _ hr =>
    rw [List.append_nil]
    exact h.peerDisconnected hr
  | claim _ _ _ _ hr =>
    rw [List.append_nil]
    exact h.quiet (Download.quiet_claimBlock hr)
  | write _ _ _ _ hr =>
    rw [List.append_nil]
    exact h.quiet (Download.quiet_writeClaimed hr)
  | check _ _ _ _ hr =>
    rw [List.append_nil]
    exact h.quiet (Download.quiet_checkPiece hr)
  | finish _ _ _ _ hr => exact h.finishPiece hr

theorem Run.paroleLog (hr : Run s log s') (h : s.download.ParoleLog []) :
    s'.download.ParoleLog log := by
  induction hr with
  | refl => exact h
  | tail _ hs ih => exact hs.paroleLog ih

/-- **Parole follows the log.** Start a stopped download with no peer records, of a torrent whose
pieces have positive lengths, and run any interleaving of the sessions' operations and the steps
of taking blocks, each session connecting under a name that no connected peer has. Then at every
state of the run:

* a connected peer is on parole exactly when, since its session connected, a piece that it sent
  a received block of failed its check, and since the last such failure no piece that it sent
  all of passed;
* resetting a piece never faults, and answers each peer that sent a received block of it, once;
* verifying a piece answers a peer exactly when that peer sent every block of it. -/
theorem parole_follows_log {d d₀ : Download σ}
    (hpos : ∀ i, i < d.info.numPieces → 0 < d.info.pieceLen i) (hstop : d.status = .stopped)
    (hpeers : d.peers = []) (hstart : d.start = .ok (none, d₀)) (hrun : Run ⟨d₀, []⟩ log s) :
    (∀ rec ∈ s.download.peers, rec.parole = true ↔ OnParole rec.name log) ∧
      ∀ pk, s.download.picker = some pk →
        (∀ index, ∃ cs pk', pk.resetPiece index = .ok (cs, pk') ∧ cs.Nodup ∧
          ∀ pe, pe ∈ cs ↔ ∃ pp, pk.partial? index = some pp ∧ pp.SentBlock pe) ∧
        (∀ index sender pk', pk.markVerified index = .ok (sender, pk') →
          ∀ pe, sender = some pe ↔ ∃ pp, pk.partial? index = some pp ∧ pp.SentAll pe) := by
  obtain ⟨hp, hinv⟩ := Download.start_fresh hstop hpos hstart
  have hnil : d₀.paroles = [] := by simp [Download.paroles, hp, hpeers]
  have h₀ : d₀.ParoleLog [] :=
    ⟨by simp [hnil], hinv, by simp [hnil], by simp [hnil]⟩
  have h := hrun.paroleLog h₀
  refine ⟨fun rec hrec => h.parole _ (List.mem_map_of_mem hrec), fun pk hpk => ?_⟩
  have hpinv := h.picker pk hpk
  exact ⟨fun index => Picker.resetPiece_answers hpinv index,
    fun index sender pk' hmv => Picker.markVerified_answers hpinv hmv⟩

/-- A peer that sends the one piece of a torrent with data that fails its check is put on
parole, and the log of the run says so. -/
theorem corrupt_piece_paroles : ∃ (d₀ : Download MemStore) (s : Pipeline MemStore)
    (log : List Mark), Download.shortFile.start = .ok (none, d₀) ∧ Run ⟨d₀, []⟩ log s ∧
      ∃ rec ∈ s.download.peers, rec.name = "a" ∧ rec.parole = true ∧ OnParole "a" log := by
  let req : Request := ⟨0, 0, 4⟩
  let data : List UInt8 := [0, 0, 0, 0]
  -- The run is evaluated once, by the kernel; taking it apart then names its states.
  have hrun : (Download.shortFile.start.toOption.any fun r₀ =>
      r₀.1.isNone && !(r₀.2.peers.map (·.name)).contains "a" &&
        (r₀.2.peerConnected "a" [1] true).1.isSome &&
        (((r₀.2.peerConnected "a" [1] true).2.reportHave "a" 0).toOption.any fun r₂ =>
          (r₂.2.requestWork "a" 1).toOption.any fun r₃ =>
            (r₃.2.claimBlock "a" req data).toOption.any fun r₄ => r₄.1 &&
              (r₄.2.writeClaimed req data).toOption.any fun r₅ => r₅.1 &&
                (r₅.2.checkPiece 0).toOption.any fun r₆ => r₆.1 == some false &&
                  (r₆.2.finishPiece 0 false).toOption.any fun d₇ =>
                    d₇.peers.any fun rec => rec.name == "a" && rec.parole)) = true := by
    decide +kernel
  obtain ⟨⟨o, d₀⟩, hstart, hrun⟩ := Except.toOption_any_eq_true.1 hrun
  simp only [Bool.and_eq_true, Option.isNone_iff_eq_none, Bool.not_eq_true',
    Option.isSome_iff_exists] at hrun
  obtain ⟨⟨⟨rfl, hfresh⟩, ours, hours⟩, hrun⟩ := hrun
  obtain ⟨r₂, h₂, hrun⟩ := Except.toOption_any_eq_true.1 hrun
  obtain ⟨r₃, h₃, hrun⟩ := Except.toOption_any_eq_true.1 hrun
  obtain ⟨r₄, h₄, hrun⟩ := Except.toOption_any_eq_true.1 hrun
  simp only [Bool.and_eq_true] at hrun
  obtain ⟨hclaimed, hrun⟩ := hrun
  obtain ⟨r₅, h₅, hrun⟩ := Except.toOption_any_eq_true.1 hrun
  simp only [Bool.and_eq_true] at hrun
  obtain ⟨hcomplete, hrun⟩ := hrun
  obtain ⟨r₆, h₆, hrun⟩ := Except.toOption_any_eq_true.1 hrun
  simp only [Bool.and_eq_true, beq_iff_eq] at hrun
  obtain ⟨hbad, hrun⟩ := hrun
  obtain ⟨d₇, h₇, hrun⟩ := Except.toOption_any_eq_true.1 hrun
  obtain ⟨rec, hrec, hname⟩ := List.any_eq_true.1 hrun
  simp only [Bool.and_eq_true, beq_iff_eq] at hname
  have hnew : "a" ∉ d₀.peers.map (·.name) := by simpa using hfresh
  -- the run, step by step
  have hr : Run ⟨d₀, []⟩ _ ⟨d₇, _⟩ :=
    (((((((Run.refl _).tail (.peerConnected "a" [1] true _ hnew rfl)).tail
      (.reportHave "a" 0 r₂.1 h₂)).tail (.requestWork "a" 1 r₃.1 h₃)).tail
      (.claim "a" req data r₄.1 h₄)).tail
      (.write req data (by simp [hclaimed]) r₅.1 h₅)).tail
      (.check req data (by simp [hclaimed, hcomplete]) r₆.1 h₆)).tail
      (.finish req data false (by simp [hclaimed, hcomplete, hbad]) h₇)
  have hpos : ∀ i, i < Download.shortFile.info.numPieces →
      0 < Download.shortFile.info.pieceLen i := by
    intro i hi
    have hi0 : i = 0 := by
      rw [UInt32.lt_iff_toNat_lt] at hi
      exact UInt32.toNat_inj.1 (by simp [Download.shortFile, onePiece] at hi ⊢; omega)
    subst hi0
    decide
  have hpar := (parole_follows_log hpos rfl rfl hstart hr).1 rec hrec
  exact ⟨d₀, _, _, hstart, hr, rec, hrec, hname.1, hname.2, hname.1 ▸ hpar.1 hname.2⟩

end Pipeline

end BitTorrent.Torrent
