import BitTorrent.Proofs.Torrent.Start

/-!
# The picker and the disk agree

While a download runs, its blocks are taken outside its lock (`Pipeline`): a block is claimed in
the picker before it is written, so between the two the picker has a block received that the
disk has not yet recorded; a piece whose check passed has its blocks forgotten by the disk before
the picker verifies it. `Pipeline.Agree` says that these windows are the only disagreement:

* the download's bitfield is the picker's verified pieces;
* every block the disk records as written is received in the picker;
* every block received in the picker is written, claimed by a submission in flight, or of a piece
  that passed its check and waits to be verified;
* a claimed block is received and not written, and no block is claimed twice;
* a piece being checked or verified has no other submission in flight and every block received;
* the disk has forgotten a piece that passed its check.

`Agree` holds of a download that has just started (`agree_start`) and every step keeps it while
the download has not failed (`Agree.step`). So it holds along every run (`agree_of_run`), and the
steps of a submission in flight never fault (`Agree.check_ok`, `Agree.finish_ok`).
-/

namespace BitTorrent.Torrent

/-! ## Keys of a list -/

/-- An entry taken out of a list differs, in a key that is distinct among the entries a filter
keeps, from every entry the filter keeps in what is left. -/
theorem List.key_ne_of_nodup {α β : Type} [DecidableEq α] {p : α → Bool} {f : α → β}
    {l : List α} (hnd : ((l.filter p).map f).Nodup) {a b : α} (ha : a ∈ l) (hpa : p a = true)
    (hb : b ∈ l.erase a) (hpb : p b = true) : f b ≠ f a := by
  obtain ⟨l₁, l₂, -, rfl, herase⟩ := List.exists_erase_eq ha
  rw [herase] at hb
  rw [List.filter_append, List.filter_cons, if_pos hpa, List.map_append, List.map_cons,
    List.nodup_middle, List.nodup_cons, ← List.map_append, ← List.filter_append] at hnd
  intro hab
  exact hnd.1 (hab ▸ List.mem_map_of_mem (List.mem_filter.2 ⟨hb, hpb⟩))

theorem List.nodup_map_filter_erase {α β : Type} [DecidableEq α] {p : α → Bool} {f : α → β}
    {l : List α} (hnd : ((l.filter p).map f).Nodup) (a : α) :
    (((l.erase a).filter p).map f).Nodup :=
  hnd.sublist ((List.erase_sublist.filter p).map f)

/-- A filter that keeps one entry keeps it after another is taken out. -/
theorem List.filter_erase_eq_singleton {α : Type} [DecidableEq α] {p : α → Bool} {l : List α}
    {a b : α} (h : l.filter p = [b]) (hne : a ≠ b) : (l.erase a).filter p = [b] := by
  rw [← List.erase_filter, h, List.erase_of_not_mem (by simpa using hne)]

namespace Pipeline

variable {σ : Type}

/-! ## The invariant -/

/-- Block `k` of piece `i` is claimed by a submission in flight and not yet written. -/
def Claimed (fl : List Submission) (i : UInt32) (k : Nat) : Prop :=
  ∃ sub ∈ fl, sub.stage = .claimed ∧ sub.piece = i ∧ sub.block = k

/-- Piece `i` passed its check and waits to be verified in the picker. -/
def CheckedGood (fl : List Submission) (i : UInt32) : Prop :=
  ∃ sub ∈ fl, sub.stage = .checked true ∧ sub.piece = i

/-- The picker `pk` and the disk `disk` of a download taking the submissions `fl` agree, up to
the submissions in flight. -/
structure Agree (d : Download σ) (fl : List Submission) (pk : Picker String) (disk : Disk) :
    Prop where
  picker_eq : d.picker = some pk
  disk_eq : d.disk = some disk
  bitfield_eq : d.bitfield = some pk.verified
  running : d.status = .downloading ∨ d.status = .seeding
  inv : pk.Inv
  numPieces : pk.numPieces = d.info.numPieces
  pieceLength : pk.pieceLength = d.info.pieceLen
  length : pk.verified.length = pk.numPieces
  small : pk.numPieces.toNat + 7 < 2 ^ 32
  pieces : disk.pieces = (d.info.layout d.info.numPieces.toNat).toArray
  wf : disk.WrittenWF
  written_received : ∀ i k, disk.Written i k → pk.Received i k
  received_written : ∀ i k, pk.Received i k →
    disk.Written i k ∨ Claimed fl i k ∨ CheckedGood fl i
  claimed : ∀ sub ∈ fl, sub.stage = .claimed →
    pk.Received sub.piece sub.block ∧ ¬ disk.Written sub.piece sub.block
  claimed_nodup : ((fl.filter (·.stage = .claimed)).map fun sub => (sub.piece, sub.block)).Nodup
  alone : ∀ sub ∈ fl, sub.stage ≠ .claimed → fl.filter (·.piece = sub.piece) = [sub]
  complete : ∀ sub ∈ fl, sub.stage ≠ .claimed →
    sub.piece < pk.numPieces ∧ pk.AllReceived sub.piece
  forgotten : ∀ sub ∈ fl, sub.stage = .checked true → ∀ k, ¬ disk.Written sub.piece k

theorem Claimed.cons {fl : List Submission} {i : UInt32} {k : Nat} (h : Claimed fl i k)
    (x : Submission) : Claimed (x :: fl) i k := by
  obtain ⟨sub, hsub, hst⟩ := h
  exact ⟨sub, List.mem_cons_of_mem x hsub, hst⟩

theorem CheckedGood.cons {fl : List Submission} {i : UInt32} (h : CheckedGood fl i)
    (x : Submission) : CheckedGood (x :: fl) i := by
  obtain ⟨sub, hsub, hst⟩ := h
  exact ⟨sub, List.mem_cons_of_mem x hsub, hst⟩

/-- A claim survives taking out a submission, unless it is that submission's. -/
theorem Claimed.erase {fl : List Submission} {i : UInt32} {k : Nat} (h : Claimed fl i k)
    (a : Submission) :
    Claimed (fl.erase a) i k ∨ (a.stage = .claimed ∧ a.piece = i ∧ a.block = k) := by
  obtain ⟨sub, hsub, hst⟩ := h
  by_cases hne : sub = a
  · exact .inr (hne ▸ hst)
  · exact .inl ⟨sub, (List.mem_erase_of_ne hne).2 hsub, hst⟩

/-- A passed check survives taking out a submission, unless it is that submission's. -/
theorem CheckedGood.erase {fl : List Submission} {i : UInt32} (h : CheckedGood fl i)
    (a : Submission) :
    CheckedGood (fl.erase a) i ∨ (a.stage = .checked true ∧ a.piece = i) := by
  obtain ⟨sub, hsub, hst⟩ := h
  by_cases hne : sub = a
  · exact .inr (hne ▸ hst)
  · exact .inl ⟨sub, (List.mem_erase_of_ne hne).2 hsub, hst⟩

section

variable {d : Download σ} {fl : List Submission} {pk : Picker String} {disk : Disk}

/-- A submission past its claim is the only one of its piece in flight. -/
theorem Agree.piece_ne (h : Agree d fl pk disk) {a b : Submission} (ha : a ∈ fl)
    (hst : a.stage ≠ .claimed) (hb : b ∈ fl.erase a) : b.piece ≠ a.piece := by
  intro hpiece
  have hmem : b ∈ (fl.erase a).filter (·.piece = a.piece) := List.mem_filter.2 ⟨hb, by simpa⟩
  rw [← List.erase_filter, h.alone a ha hst] at hmem
  simp at hmem

/-- Two submissions in flight, one past its claim, of different stages are of different
pieces. -/
theorem Agree.piece_ne_of_stage (h : Agree d fl pk disk) {a b : Submission} (ha : a ∈ fl)
    (hst : a.stage ≠ .claimed) (hb : b ∈ fl) (hne : b.stage ≠ a.stage) : b.piece ≠ a.piece :=
  h.piece_ne ha hst ((List.mem_erase_of_ne fun hab => hne (congrArg Submission.stage hab)).2 hb)

/-! ## The sessions' operations -/

/-- The sessions' operations keep the agreement: they change the picker only as the operations
off the answers do, and nothing else that the agreement reads. -/
theorem Agree.tame (h : Agree d fl pk disk) {d' : Download σ} (ht : Download.Tame d d') :
    ∃ pk', Agree d' fl pk' disk := by
  obtain ⟨pk', hpk', hinv, hk⟩ := ht.picker pk h.picker_eq h.inv
  exact ⟨pk', {
    picker_eq := hpk'
    disk_eq := ht.disk.trans h.disk_eq
    bitfield_eq := by rw [ht.bitfield, hk.verified]; exact h.bitfield_eq
    running := ht.status ▸ h.running
    inv := hinv
    numPieces := by rw [hk.numPieces, ht.info]; exact h.numPieces
    pieceLength := by rw [hk.pieceLength, ht.info]; exact h.pieceLength
    length := by rw [hk.verified, hk.numPieces]; exact h.length
    small := by rw [hk.numPieces]; exact h.small
    pieces := by rw [ht.info]; exact h.pieces
    wf := h.wf
    written_received := fun i k hw => (hk.received i k).2 (h.written_received i k hw)
    received_written := fun i k hr => h.received_written i k ((hk.received i k).1 hr)
    claimed := fun sub hsub hst =>
      ⟨(hk.received _ _).2 (h.claimed sub hsub hst).1, (h.claimed sub hsub hst).2⟩
    claimed_nodup := h.claimed_nodup
    alone := h.alone
    complete := fun sub hsub hst => by
      rw [hk.numPieces, hk.allReceived]
      exact h.complete sub hsub hst
    forgotten := h.forgotten }⟩

/-! ## Claiming a block -/

/-- A claim that takes the block leaves it received in the picker and not yet written, claimed
by the new submission. -/
theorem Agree.claim (h : Agree d fl pk disk) {name : String} {r : Request} {data : List UInt8}
    {ok : Bool} {d' : Download σ} (hc : d.claimBlock name r data = .ok (ok, d')) :
    ∃ pk', Agree d' (if ok then ⟨r, data, .claimed⟩ :: fl else fl) pk' disk := by
  rcases Download.claimBlock_cases hc with ⟨rfl, ht⟩ | ⟨rfl, -, pk₀, pk', others, hpk, hmr, rfl⟩
  · exact h.tame ht
  rw [h.picker_eq, Option.some.injEq] at hpk
  subst hpk
  obtain ⟨-, hnot, hrec, hn, hl, hv⟩ := Picker.received_markReceived hmr
  have hinv := h.inv.markReceived hmr
  -- the claimed block is a block of its piece
  have hK : (r.begin / blockSize).toNat < (Block.count (pk.pieceLength r.index)).toNat := by
    rw [← hl]
    exact hinv.lt_of_received ((hrec _ _).2 (.inr ⟨rfl, rfl⟩))
  -- a piece past its claims has every block received, so it is not the claimed one's
  have hother : ∀ sub ∈ fl, sub.stage ≠ .claimed → sub.piece ≠ r.index := by
    intro sub hsub hst hpiece
    rw [← hpiece] at hnot hK
    exact hnot ((h.complete sub hsub hst).2 _ hK)
  rw [if_pos rfl]
  exact ⟨pk', {
    picker_eq := rfl
    disk_eq := h.disk_eq
    bitfield_eq := by rw [hv]; exact h.bitfield_eq
    running := h.running
    inv := hinv
    numPieces := hn.trans h.numPieces
    pieceLength := hl.trans h.pieceLength
    length := by rw [hv, hn]; exact h.length
    small := by rw [hn]; exact h.small
    pieces := h.pieces
    wf := h.wf
    written_received := fun i k hw => (hrec i k).2 (.inl (h.written_received i k hw))
    received_written := by
      intro i k hr
      rcases (hrec i k).1 hr with hr | ⟨rfl, rfl⟩
      · exact (h.received_written i k hr).imp_right (Or.imp (·.cons _) (·.cons _))
      · exact .inr (.inl ⟨_, List.mem_cons_self, rfl, rfl, rfl⟩)
    claimed := by
      intro sub hsub hst
      rcases List.mem_cons.1 hsub with rfl | hsub
      · exact ⟨(hrec _ _).2 (.inr ⟨rfl, rfl⟩), fun hw => hnot (h.written_received _ _ hw)⟩
      · exact ⟨(hrec _ _).2 (.inl (h.claimed sub hsub hst).1), (h.claimed sub hsub hst).2⟩
    claimed_nodup := by
      rw [List.filter_cons_of_pos (by simp), List.map_cons, List.nodup_cons]
      refine ⟨fun hm => ?_, h.claimed_nodup⟩
      -- a block claimed before is received, the new one was not
      obtain ⟨sub, hsub, hkey⟩ := List.mem_map.1 hm
      obtain ⟨hsub, hst⟩ := List.mem_filter.1 hsub
      obtain ⟨hpiece, hblock⟩ := Prod.mk.inj hkey
      have hsr := (h.claimed sub hsub (by simpa using hst)).1
      rw [hpiece, hblock] at hsr
      exact hnot hsr
    alone := by
      intro sub hsub hst
      rcases List.mem_cons.1 hsub with rfl | hsub
      · exact absurd rfl hst
      · rw [List.filter_cons_of_neg fun hd => hother sub hsub hst (of_decide_eq_true hd).symm]
        exact h.alone sub hsub hst
    complete := by
      intro sub hsub hst
      rcases List.mem_cons.1 hsub with rfl | hsub
      · exact absurd rfl hst
      · obtain ⟨hlt, hall⟩ := h.complete sub hsub hst
        exact ⟨hn ▸ hlt, fun k hk => (hrec _ _).2 (.inl (hall k (hl ▸ hk)))⟩
    forgotten := by
      intro sub hsub hst
      rcases List.mem_cons.1 hsub with rfl | hsub
      · cases hst
      · exact h.forgotten sub hsub hst }⟩

/-- Taking out a submission other than one past its claim leaves that one alone in its piece. -/
theorem Agree.alone_erase (h : Agree d fl pk disk) {a sub : Submission} (hsub : sub ∈ fl.erase a)
    (hst : sub.stage ≠ .claimed) (hne : a ≠ sub) : (fl.erase a).filter (·.piece = sub.piece) = [sub] :=
  List.filter_erase_eq_singleton (h.alone sub (List.mem_of_mem_erase hsub) hst) hne

/-- A submission past its claim, alone in its piece and with the piece's blocks all received, can
be added to the submissions in flight. -/
theorem Agree.cons (h : Agree d fl pk disk) {sub : Submission} (hst : sub.stage ≠ .claimed)
    (hnone : ∀ x ∈ fl, x.piece ≠ sub.piece) (hlt : sub.piece < pk.numPieces)
    (hall : pk.AllReceived sub.piece)
    (hforget : sub.stage = .checked true → ∀ k, ¬ disk.Written sub.piece k) :
    Agree d (sub :: fl) pk disk :=
  { h with
    received_written := fun i k hr =>
      (h.received_written i k hr).imp_right (Or.imp (·.cons _) (·.cons _))
    claimed := by
      intro x hx hxst
      rcases List.mem_cons.1 hx with rfl | hx
      · exact absurd hxst hst
      · exact h.claimed x hx hxst
    claimed_nodup := by
      rw [List.filter_cons_of_neg (p := fun x : Submission => decide (x.stage = .claimed))
        fun hd => hst (of_decide_eq_true hd)]
      exact h.claimed_nodup
    alone := by
      intro x hx hxst
      rcases List.mem_cons.1 hx with rfl | hx
      · rw [List.filter_cons_of_pos (by simp), List.filter_eq_nil_iff.2 fun y hy hd =>
          hnone y hy (of_decide_eq_true hd)]
      · rw [List.filter_cons_of_neg fun hd => hnone x hx (of_decide_eq_true hd).symm]
        exact h.alone x hx hxst
    complete := by
      intro x hx hxst
      rcases List.mem_cons.1 hx with rfl | hx
      · exact ⟨hlt, hall⟩
      · exact h.complete x hx hxst
    forgotten := by
      intro x hx hxst
      rcases List.mem_cons.1 hx with rfl | hx
      · exact hforget hxst
      · exact h.forgotten x hx hxst }

/-! ## Writing a claimed block -/

/-- A write that does not fail the download records the claimed block, which is no longer
claimed; a write that completes the piece leaves the piece's submission alone in its piece, with
every block of the piece received, to be checked. -/
theorem Agree.write (h : Agree d fl pk disk) {r : Request} {data : List UInt8}
    (hin : ⟨r, data, .claimed⟩ ∈ fl) {c : Bool} {d' : Download σ}
    (hw : d.writeClaimed r data = .ok (c, d')) (hok : d'.lastErr = none) :
    ∃ disk', Agree d' (if c then ⟨r, data, .written⟩ :: fl.erase ⟨r, data, .claimed⟩
      else fl.erase ⟨r, data, .claimed⟩) pk disk' := by
  obtain ⟨disk₀, hdisk, ⟨e, disk', st, -, rfl⟩ | ⟨disk', st, hwb, rfl⟩⟩ :=
    Download.writeClaimed_cases hw
  · refine absurd hok (Download.lastErr_fail_ne_none ?_ e)
    exact h.running
  rw [h.disk_eq, Option.some.injEq] at hdisk
  subst hdisk
  obtain ⟨p, hp, -, hpieces, hwf, hwr, hcomplete⟩ :=
    Disk.written_writeBlock h.wf (Disk.indexed_of_layout h.pieces) hwb
  obtain ⟨hrec, hnw⟩ := h.claimed _ hin rfl
  -- another claim is of another block
  have hkey : ∀ sub ∈ fl.erase ⟨r, data, .claimed⟩, sub.stage = .claimed →
      (sub.piece, sub.block) ≠ (r.index, (r.begin / blockSize).toNat) := fun sub hsub hst =>
    List.key_ne_of_nodup h.claimed_nodup hin (by simp) hsub (by simpa using hst)
  have hE : Agree { d with disk := some disk', store := st } (fl.erase ⟨r, data, .claimed⟩) pk
      disk' := {
    picker_eq := h.picker_eq
    disk_eq := rfl
    bitfield_eq := h.bitfield_eq
    running := h.running
    inv := h.inv
    numPieces := h.numPieces
    pieceLength := h.pieceLength
    length := h.length
    small := h.small
    pieces := hpieces.trans h.pieces
    wf := hwf
    written_received := by
      intro i k hw
      rcases (hwr i k).1 hw with hw | ⟨rfl, rfl⟩
      · exact h.written_received i k hw
      · exact hrec
    received_written := by
      intro i k hr
      rcases h.received_written i k hr with hw | hc | hg
      · exact .inl ((hwr i k).2 (.inl hw))
      · rcases hc.erase ⟨r, data, .claimed⟩ with hc | ⟨-, rfl, rfl⟩
        · exact .inr (.inl hc)
        · exact .inl ((hwr _ _).2 (.inr ⟨rfl, rfl⟩))
      · rcases hg.erase ⟨r, data, .claimed⟩ with hg | ⟨hg, -⟩
        · exact .inr (.inr hg)
        · cases hg
    claimed := by
      intro sub hsub hst
      obtain ⟨hsr, hsw⟩ := h.claimed sub (List.mem_of_mem_erase hsub) hst
      refine ⟨hsr, fun hw => ?_⟩
      rcases (hwr _ _).1 hw with hw | ⟨hpiece, hblock⟩
      · exact hsw hw
      · exact hkey sub hsub hst (Prod.ext hpiece hblock)
    claimed_nodup := List.nodup_map_filter_erase h.claimed_nodup _
    alone := fun sub hsub hst =>
      h.alone_erase hsub hst fun heq => hst (heq ▸ rfl)
    complete := fun sub hsub hst => h.complete sub (List.mem_of_mem_erase hsub) hst
    forgotten := by
      intro sub hsub hst k hw
      have hsub' := List.mem_of_mem_erase hsub
      rcases (hwr _ _).1 hw with hw | ⟨hpiece, -⟩
      · exact h.forgotten sub hsub' hst k hw
      · -- the piece of a checked submission has no claim in flight
        exact h.piece_ne_of_stage hsub' (by simp [hst]) hin (by simp [hst]) hpiece.symm }
  cases c with
  | false => exact ⟨disk', hE⟩
  | true =>
    obtain ⟨hpi, hnb⟩ := Disk.numBlocks_of_layout h.pieces hp
    -- the piece's blocks are all written, so none of them is claimed any more
    have hall : ∀ m < (Block.count (pk.pieceLength r.index)).toNat, disk'.Written r.index m := by
      intro m hm
      rw [h.pieceLength, ← hnb] at hm
      exact hcomplete rfl m hm
    have hnone : ∀ x ∈ fl.erase ⟨r, data, .claimed⟩, x.piece ≠ r.index := by
      intro x hx hpiece
      by_cases hxst : x.stage = .claimed
      · have hlt := h.inv.lt_of_received (h.claimed x (List.mem_of_mem_erase hx) hxst).1
        rw [hpiece] at hlt
        have hxw := hall _ hlt
        rw [← hpiece] at hxw
        exact (hE.claimed x hx hxst).2 hxw
      · exact h.piece_ne_of_stage (List.mem_of_mem_erase hx) hxst hin (Ne.symm hxst) hpiece.symm
    have hlt : r.index < pk.numPieces := by
      have := (Array.getElem?_eq_some_iff.1 hp).1
      rw [h.pieces, List.size_toArray, Info.length_layout] at this
      rw [h.numPieces, UInt32.lt_iff_toNat_lt]
      exact this
    exact ⟨disk', hE.cons (by simp) hnone hlt
      (fun m hm => hE.written_received _ _ (hall m hm)) (by simp)⟩

/-! ## Checking a complete piece -/

/-- A check that does not fail the download gives the piece's verdict: the submission waits to
apply it, alone in its piece, and the disk forgets a piece that passed. -/
theorem Agree.check (h : Agree d fl pk disk) {r : Request} {data : List UInt8}
    (hin : ⟨r, data, .written⟩ ∈ fl) {v : Option Bool} {d' : Download σ}
    (hk : d.checkPiece r.index = .ok (v, d')) (hok : d'.lastErr = none) :
    ∃ disk', Agree d' ((v.toList.map fun good => ⟨r, data, .checked good⟩) ++
      fl.erase ⟨r, data, .written⟩) pk disk' := by
  obtain ⟨disk₀, hdisk, ⟨-, e, disk', rfl⟩ | ⟨good, disk', rfl, hv, rfl⟩⟩ :=
    Download.checkPiece_cases hk
  · refine absurd hok (Download.lastErr_fail_ne_none ?_ _)
    exact h.running
  rw [h.disk_eq, Option.some.injEq] at hdisk
  subst hdisk
  -- the disk keeps its record, but for the piece when it passed
  obtain ⟨hpieces, hwf, hwr⟩ : disk'.pieces = disk.pieces ∧ disk'.WrittenWF ∧
      ∀ i k, disk'.Written i k ↔ disk.Written i k ∧ (good = true → i ≠ r.index) := by
    rcases Disk.verifyPiece_cases hv with ⟨hgood, rfl⟩ | ⟨hbad | ⟨_, hbad⟩, rfl⟩
    · cases hgood
      refine ⟨Disk.pieces_resetPiece _ _, h.wf.resetPiece _, fun i k => ?_⟩
      simp [Disk.written_resetPiece]
    · cases hbad
      exact ⟨rfl, h.wf, fun i k => by simp⟩
    · cases hbad
  have hnone : ∀ x ∈ fl.erase ⟨r, data, .written⟩, x.piece ≠ r.index :=
    fun x hx => h.piece_ne hin (by simp) hx
  simp only [Option.toList_some, List.map_cons, List.map_nil, List.cons_append, List.nil_append]
  exact ⟨disk', {
    picker_eq := h.picker_eq
    disk_eq := rfl
    bitfield_eq := h.bitfield_eq
    running := h.running
    inv := h.inv
    numPieces := h.numPieces
    pieceLength := h.pieceLength
    length := h.length
    small := h.small
    pieces := hpieces.trans h.pieces
    wf := hwf
    written_received := fun i k hw => h.written_received i k ((hwr i k).1 hw).1
    received_written := by
      intro i k hr
      rcases h.received_written i k hr with hw | hc | hg
      · by_cases hgi : good = true ∧ i = r.index
        · exact .inr (.inr ⟨_, List.mem_cons_self, hgi.1 ▸ rfl, hgi.2.symm⟩)
        · exact .inl ((hwr i k).2 ⟨hw, fun hg hi => hgi ⟨hg, hi⟩⟩)
      · rcases hc.erase ⟨r, data, .written⟩ with hc | ⟨hc, -⟩
        · exact .inr (.inl (hc.cons _))
        · cases hc
      · rcases hg.erase ⟨r, data, .written⟩ with hg | ⟨hg, -⟩
        · exact .inr (.inr (hg.cons _))
        · cases hg
    claimed := by
      intro sub hsub hst
      rcases List.mem_cons.1 hsub with rfl | hsub
      · cases hst
      · obtain ⟨hsr, hsw⟩ := h.claimed sub (List.mem_of_mem_erase hsub) hst
        exact ⟨hsr, fun hw => hsw ((hwr _ _).1 hw).1⟩
    claimed_nodup := by
      rw [List.filter_cons_of_neg (p := fun x : Submission => decide (x.stage = .claimed))
        (by simp)]
      exact List.nodup_map_filter_erase h.claimed_nodup _
    alone := by
      intro sub hsub hst
      rcases List.mem_cons.1 hsub with rfl | hsub
      · rw [List.filter_cons_of_pos (by simp), List.cons.injEq]
        exact ⟨rfl, List.filter_eq_nil_iff.2 fun y hy hd => hnone y hy (of_decide_eq_true hd)⟩
      · have hne := hnone sub hsub
        rw [List.filter_cons_of_neg fun hd => hne (of_decide_eq_true hd).symm]
        exact h.alone_erase hsub hst fun heq => hne (heq ▸ rfl)
    complete := by
      intro sub hsub hst
      rcases List.mem_cons.1 hsub with rfl | hsub
      · exact h.complete ⟨r, data, .written⟩ hin (by simp)
      · exact h.complete sub (List.mem_of_mem_erase hsub) hst
    forgotten := by
      intro sub hsub hst k hw
      rcases List.mem_cons.1 hsub with rfl | hsub
      · exact ((hwr _ _).1 hw).2 (Stage.checked.inj hst) rfl
      · exact h.forgotten sub (List.mem_of_mem_erase hsub) hst k ((hwr _ _).1 hw).1 }⟩

/-! ## Applying the verdict -/

/-- Dropping a piece past its claims from the picker and from the disk's record together, with
its submission, keeps the agreement. -/
theorem Agree.drop (h : Agree d fl pk disk) {chk : Submission} (hin : chk ∈ fl)
    (hst : chk.stage ≠ .claimed) {d' : Download σ} {pk' : Picker String} {disk' : Disk}
    (hpk : d'.picker = some pk') (hdisk : d'.disk = some disk')
    (hbf : d'.bitfield = some pk'.verified)
    (hrun : d'.status = .downloading ∨ d'.status = .seeding) (hinv : pk'.Inv)
    (hn : pk'.numPieces = pk.numPieces) (hl : pk'.pieceLength = pk.pieceLength)
    (hlen : pk'.verified.length = pk.verified.length) (hinfo : d'.info = d.info)
    (hpieces : disk'.pieces = disk.pieces) (hwf : disk'.WrittenWF)
    (hrec : ∀ i k, pk'.Received i k ↔ pk.Received i k ∧ i ≠ chk.piece)
    (hwr : ∀ i k, disk'.Written i k ↔ disk.Written i k ∧ i ≠ chk.piece) :
    Agree d' (fl.erase chk) pk' disk' := by
  have hother : ∀ x ∈ fl.erase chk, x.piece ≠ chk.piece := fun x hx => h.piece_ne hin hst hx
  exact {
    picker_eq := hpk
    disk_eq := hdisk
    bitfield_eq := hbf
    running := hrun
    inv := hinv
    numPieces := by rw [hn, hinfo]; exact h.numPieces
    pieceLength := by rw [hl, hinfo]; exact h.pieceLength
    length := by rw [hlen, hn]; exact h.length
    small := by rw [hn]; exact h.small
    pieces := by rw [hpieces, hinfo]; exact h.pieces
    wf := hwf
    written_received := by
      intro i k hw
      obtain ⟨hw, hne⟩ := (hwr i k).1 hw
      exact (hrec i k).2 ⟨h.written_received i k hw, hne⟩
    received_written := by
      intro i k hr
      obtain ⟨hr, hne⟩ := (hrec i k).1 hr
      rcases h.received_written i k hr with hw | hc | hg
      · exact .inl ((hwr i k).2 ⟨hw, hne⟩)
      · rcases hc.erase chk with hc | ⟨-, hpiece, -⟩
        · exact .inr (.inl hc)
        · exact absurd hpiece.symm hne
      · rcases hg.erase chk with hg | ⟨-, hpiece⟩
        · exact .inr (.inr hg)
        · exact absurd hpiece.symm hne
    claimed := by
      intro sub hsub hsst
      obtain ⟨hsr, hsw⟩ := h.claimed sub (List.mem_of_mem_erase hsub) hsst
      exact ⟨(hrec _ _).2 ⟨hsr, hother sub hsub⟩, fun hw => hsw ((hwr _ _).1 hw).1⟩
    claimed_nodup := List.nodup_map_filter_erase h.claimed_nodup _
    alone := fun sub hsub hsst =>
      h.alone_erase hsub hsst fun heq => hother sub hsub (heq ▸ rfl)
    complete := by
      intro sub hsub hsst
      obtain ⟨hlt, hall⟩ := h.complete sub (List.mem_of_mem_erase hsub) hsst
      exact ⟨hn ▸ hlt, fun k hk => (hrec _ _).2 ⟨hall k (hl ▸ hk), hother sub hsub⟩⟩
    forgotten := fun sub hsub hsst k hw =>
      h.forgotten sub (List.mem_of_mem_erase hsub) hsst k ((hwr _ _).1 hw).1 }

/-- Applying a verdict keeps the agreement: a piece that passed leaves the picker verified, its
bit set in the bitfield by the same operation, and the disk forgot it already; a piece that failed
is reset in the picker and on the disk together. -/
theorem Agree.finish (h : Agree d fl pk disk) {r : Request} {data : List UInt8} {good : Bool}
    (hin : ⟨r, data, .checked good⟩ ∈ fl) {d' : Download σ}
    (hf : d.finishPiece r.index good = .ok d') :
    ∃ pk' disk', Agree d' (fl.erase ⟨r, data, .checked good⟩) pk' disk' := by
  have hcomplete : r.index < pk.numPieces ∧ pk.AllReceived r.index := h.complete _ hin (by simp)
  rcases Download.finishPiece_cases hf with ⟨hnone, -⟩ | ⟨rfl, hv⟩ | ⟨rfl, hfail⟩
  · rw [h.picker_eq] at hnone
    cases hnone
  · obtain ⟨sender, bf, hset, hmv⟩ :=
      Picker.markVerified_ok h.inv hcomplete.1 hcomplete.2 h.length h.small
    obtain ⟨pk₀, sender', pk', bf₀, bf', hpk, hmv', hbf, hset', hpk', hbf', hdisk, hinfo, -, hst⟩ :=
      Download.pieceVerified_spec hv
    rw [h.picker_eq, Option.some.injEq] at hpk
    subst hpk
    rw [hmv, Except.ok.injEq, Prod.mk.injEq] at hmv'
    obtain ⟨-, rfl⟩ := hmv'
    rw [h.bitfield_eq, Option.some.injEq] at hbf
    subst hbf
    rw [hset, Except.ok.injEq] at hset'
    subst hset'
    refine ⟨_, disk, h.drop hin (by simp) hpk' (hdisk.trans h.disk_eq) hbf' ?_
      (h.inv.markVerified hmv) rfl rfl (Bitfield.length_set hset) hinfo rfl h.wf ?_ ?_⟩
    · rcases hst with hst | hst
      · exact hst ▸ h.running
      · exact .inr hst
    · have hp : ({ pk.removePartial r.index with verified := bf } : Picker String).partials =
          (pk.removePartial r.index).partials := rfl
      exact fun i k =>
        (Picker.received_of_partials hp i k).trans (Picker.received_removePartial pk r.index i k)
    · -- the disk forgot the piece when it passed its check
      intro i k
      refine ⟨fun hw => ⟨hw, ?_⟩, fun hw => hw.1⟩
      rintro rfl
      exact h.forgotten _ hin rfl k hw
  · obtain ⟨pk₀, cs, pk', hpk, hreset, hpk', hdisk, hbf, hinfo, hst, -⟩ :=
      Download.pieceFailed_spec hfail
    rw [h.picker_eq, Option.some.injEq] at hpk
    subst hpk
    have hpkr := Picker.resetPiece_eq hreset
    refine ⟨pk', disk.resetPiece r.index, h.drop hin (by simp) hpk'
      (by rw [hdisk, h.disk_eq]; rfl) (by rw [hbf, h.bitfield_eq, hpkr]; rfl) (hst ▸ h.running)
      (h.inv.resetPiece hreset) (by rw [hpkr]; rfl) (by rw [hpkr]; rfl) (by rw [hpkr]; rfl)
      hinfo (Disk.pieces_resetPiece _ _) (h.wf.resetPiece _) (Picker.received_resetPiece hreset)
      fun i k => Disk.written_resetPiece _ i k⟩

/-! ## Progress -/

/-- Checking a piece waiting for its check never faults. -/
theorem Agree.check_ok (h : Agree d fl pk disk) {sub : Submission} (hsub : sub ∈ fl)
    (hst : sub.stage = .written) : ∃ v d', d.checkPiece sub.piece = .ok (v, d') := by
  have hlt := (h.complete sub hsub (by simp [hst])).1
  refine Download.checkPiece_ok h.disk_eq ?_
  rw [Disk.size_of_layout h.pieces, ← h.numPieces]
  exact UInt32.lt_iff_toNat_lt.1 hlt

/-- Verifying a piece that passed its check never faults: the picker verifies it, with every
block received. -/
theorem Agree.verify_ok (h : Agree d fl pk disk) {sub : Submission} (hsub : sub ∈ fl)
    (hst : sub.stage = .checked true) : ∃ d', d.finishPiece sub.piece true = .ok d' := by
  obtain ⟨hlt, hall⟩ := h.complete sub hsub (by simp [hst])
  obtain ⟨sender, bf, hset, hmv⟩ := Picker.markVerified_ok h.inv hlt hall h.length h.small
  simp only [Download.finishPiece, h.picker_eq, Option.isNone_some, Bool.false_eq_true,
    ↓reduceIte]
  exact Download.pieceVerified_ok h.picker_eq hmv h.bitfield_eq hset

/-- A piece that failed its check is reset in the picker and on the disk together. -/
theorem Agree.reset_ok (h : Agree d fl pk disk) (i : UInt32) :
    ∃ d' pk' disk', d.finishPiece i false = .ok d' ∧ d'.picker = some pk' ∧
      d'.disk = some disk' ∧ ∀ k, ¬ pk'.Received i k ∧ ¬ disk'.Written i k := by
  obtain ⟨d', hf⟩ := Download.pieceFailed_ok h.picker_eq i
  obtain ⟨pk₀, cs, pk', hpk, hreset, hpk', hdisk, -⟩ := Download.pieceFailed_spec hf
  rw [h.picker_eq, Option.some.injEq] at hpk
  subst hpk
  refine ⟨d', pk', disk.resetPiece i, ?_, hpk', by rw [hdisk, h.disk_eq]; rfl, fun k => ?_⟩
  · simpa [Download.finishPiece, h.picker_eq] using hf
  · rw [Picker.received_resetPiece hreset, Disk.written_resetPiece]
    simp

end

/-! ## Runs -/

variable {s s' : Pipeline σ}

/-- Every step keeps the agreement while the download has not failed. -/
theorem Agree.step {pk : Picker String} {disk : Disk}
    (h : Agree s.download s.inFlight pk disk) (hs : Step s s') (hok : s'.download.lastErr = none) :
    ∃ pk' disk', Agree s'.download s'.inFlight pk' disk' := by
  have tame : ∀ {d' : Download σ}, Download.Tame s.download d' →
      ∃ pk' disk', Agree d' s.inFlight pk' disk' := fun ht =>
    (h.tame ht).imp fun pk' h' => ⟨disk, h'⟩
  cases hs with
  | requestWork _ _ _ hr => exact tame (Download.tame_requestWork hr)
  | cancelRequests _ _ hr => exact tame (Download.tame_cancelRequests hr)
  | reportHave _ _ _ hr => exact tame (Download.tame_reportHave hr)
  | reportBitfield _ _ _ hr => exact tame (Download.tame_reportBitfield hr)
  | peerConnected _ _ _ _ hr => exact tame (Download.tame_peerConnected hr)
  | peerDisconnected _ hr => exact tame (Download.tame_peerDisconnected hr)
  | claim _ _ _ _ hc => exact (h.claim hc).imp fun pk' h' => ⟨disk, h'⟩
  | write _ _ hin _ hw => exact ⟨pk, h.write hin hw hok⟩
  | check _ _ hin _ hk => exact ⟨pk, h.check hin hk hok⟩
  | finish _ _ _ hin hf => exact h.finish hin hf

/-- Along a run, the agreement holds at every state where the download has not failed. -/
theorem agree_of_run (hr : Relation.ReflTransGen Step s s')
    (h : ∃ pk disk, Agree s.download s.inFlight pk disk) (hok : s'.download.lastErr = none) :
    ∃ pk disk, Agree s'.download s'.inFlight pk disk := by
  induction hr with
  | refl => exact h
  | @tail b c _ hs ih =>
    -- the download had not failed before the last step either
    have hb : b.download.lastErr = none := by
      cases hb : b.download.lastErr with
      | none => rfl
      | some e =>
        have hc := hs.lastErr_isSome (by simp [hb])
        simp [hok] at hc
    obtain ⟨pk, disk, h'⟩ := ih hb
    exact h'.step hs hok

/-- A stopped download that starts without failing has a picker and a disk that agree, with
nothing in flight. -/
theorem agree_start {d d₀ : Download σ} (hstop : d.status = .stopped)
    (hstart : d.start = .ok (none, d₀)) (hnone : d₀.lastErr = none)
    (hpos : ∀ i, i < d.info.numPieces → 0 < d.info.pieceLen i)
    (hsmall : d.info.numPieces.toNat + 7 < 2 ^ 32) : ∃ pk disk, Agree d₀ [] pk disk := by
  obtain ⟨pk, disk, bf, hpk, hdisk, hbf, hrun, hinfo, hlen, hR⟩ :=
    Download.start_restored hstop hstart hnone hpos
  exact ⟨pk, disk, {
    picker_eq := hpk
    disk_eq := hdisk
    bitfield_eq := by rw [hbf, hR.verified]
    running := hrun
    inv := hR.inv
    numPieces := by rw [hinfo]; exact hR.numPieces
    pieceLength := by rw [hinfo]; exact hR.pieceLength
    length := by rw [hR.verified, hlen, hR.numPieces]
    small := by rw [hR.numPieces]; exact hsmall
    pieces := by rw [hinfo]; exact hR.pieces
    wf := hR.wf
    written_received := fun i k hw => (hR.agree i k).1 hw
    received_written := fun i k hr => .inl ((hR.agree i k).2 hr)
    claimed := fun _ hsub => absurd hsub List.not_mem_nil
    claimed_nodup := List.nodup_nil
    alone := fun _ hsub => absurd hsub List.not_mem_nil
    complete := fun _ hsub => absurd hsub List.not_mem_nil
    forgotten := fun _ hsub => absurd hsub List.not_mem_nil }⟩

/-! ## The picker and the disk through taking blocks -/

/-- A stopped download of a one-piece torrent of four bytes, over an empty store. -/
def onePiece : Download MemStore :=
  { info := { pieceLength := 4, pieces := List.replicate 20 0, privacy := [], name := [97],
              length := 4, files := [], totalLength := 4, numPieces := 1, hash := [],
              bytes := [] }
    config := {}, fs := MemStore.fileStore, store := {}, port := 6881 }

end Pipeline

end BitTorrent.Torrent
