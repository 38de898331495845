import BitTorrent.Torrent.Download
import BitTorrent.Proofs.Picker.Invariant

/-!
# What each operation of a download changes

One lemma per operation of `Download` that a peer session or the program calls, saying exactly
which download it answers: the download unchanged, or the download with the listed fields
replaced, together with the picker operations that produced the new picker. Proofs about runs
reach the operations through these lemmas and never unfold them.

The operations that only read the download (an unknown peer, a peer that had the piece already, a
failed download asked for work) answer it unchanged, which is the first case of each lemma.
-/

namespace BitTorrent.Torrent

namespace Download

variable {σ : Type} {d d' : Download σ}

theorem picker!_eq_ok {pk : Picker String} (h : d.picker! = .ok pk) : d.picker = some pk := by
  unfold picker! at h
  cases hp : d.picker with
  | none => simp [hp, Option.elim] at h
  | some q => simp only [hp, Option.elim, Except.ok.injEq] at h; rw [h]

/-- Work is handed out only to a known peer of a download that is neither complete nor failed,
and only the picker changes. -/
theorem requestWork_eq {name : String} {n : Int} {rs : List Request}
    (h : d.requestWork name n = .ok (rs, d')) :
    (rs = [] ∧ d' = d) ∨
      ∃ rec pk pk', d.record? name = some rec ∧ d.completed = false ∧ d.lastErr = none ∧
        d.picker = some pk ∧ pk.select name rec.holds n rec.parole = .ok (rs, pk') ∧
        d' = { d with picker := some pk' } := by
  unfold requestWork at h
  cases hrec : d.record? name with
  | none =>
    simp only [hrec, Except.pure_eq_ok, Prod.mk.injEq] at h
    exact .inl ⟨h.1.symm, h.2.symm⟩
  | some rec =>
    simp only [hrec] at h
    split at h
    · simp only [Except.pure_eq_ok, Prod.mk.injEq] at h
      exact .inl ⟨h.1.symm, h.2.symm⟩
    · rename_i hguard
      simp only [Bool.or_eq_true, Option.isSome_iff_ne_none, ne_eq, not_or,
        Bool.not_eq_true, Decidable.not_not] at hguard
      rw [Except.bind_eq_ok] at h
      obtain ⟨pk, hpk, h⟩ := h
      rw [Except.bind_eq_ok] at h
      obtain ⟨⟨rs', pk'⟩, hsel, h⟩ := h
      simp only [Except.pure_eq_ok, Prod.mk.injEq] at h
      obtain ⟨rfl, rfl⟩ := h
      exact .inr ⟨rec, pk, pk', rfl, hguard.1, hguard.2, picker!_eq_ok hpk, hsel, rfl⟩

/-- Withdrawing requests of a known peer cancels them in the picker, one after another. -/
theorem cancelRequests_eq {name : String} {rs : List Request}
    (h : d.cancelRequests name rs = .ok d') :
    d' = d ∨ ∃ pk pk', d.picker = some pk ∧
      rs.foldlM (fun pk r => do return (← pk.cancelRequest name r).2) pk = .ok pk' ∧
      d' = { d with picker := some pk' } := by
  unfold cancelRequests at h
  split at h
  · exact .inl (Except.pure_eq_ok.1 h).symm
  · rw [Except.bind_eq_ok] at h
    obtain ⟨pk, hpk, h⟩ := h
    rw [Except.bind_eq_ok] at h
    obtain ⟨pk', hfold, h⟩ := h
    exact .inr ⟨pk, pk', picker!_eq_ok hpk, hfold, (Except.pure_eq_ok.1 h).symm⟩

/-- An answer read off a download leaves it as it was. -/
theorem eq_of_read {α : Type} {x : Except Fault α} {f : α → Bool} {d₀ : Download σ} {b : Bool}
    (h : (x >>= fun v => pure (f v, d₀)) = (.ok (b, d') : Except Fault (Bool × Download σ))) :
    d' = d₀ := by
  rw [Except.bind_eq_ok] at h
  obtain ⟨_, -, h⟩ := h
  simp only [Except.pure_eq_ok, Prod.mk.injEq] at h
  exact h.2.symm

/-- A known peer announcing a piece it did not have gets the piece in its record, and the
picker counts one more holder of it. -/
theorem reportHave_eq {name : String} {i : UInt32} {b : Bool}
    (h : d.reportHave name i = .ok (b, d')) :
    d' = d ∨ ∃ rec holds pk pk', d.record? name = some rec ∧ rec.holds.set i = .ok holds ∧
      d.picker = some pk ∧ pk.handleHave i = .ok pk' ∧
      d' = { d.setRecord { rec with holds } with picker := some pk' } := by
  unfold reportHave at h
  cases hrec : d.record? name with
  | none =>
    simp only [hrec, Except.pure_eq_ok, Prod.mk.injEq] at h
    exact .inl h.2.symm
  | some rec =>
    simp only [hrec] at h
    rw [Except.bind_eq_ok] at h
    obtain ⟨has, -, h⟩ := h
    split at h
    · -- the peer had the piece already
      simp only [pure_bind] at h
      split at h
      · exact .inl (eq_of_read h)
      · cases h
    · rw [Except.bind_eq_ok] at h
      obtain ⟨holds, hset, h⟩ := h
      rw [Except.bind_eq_ok] at h
      obtain ⟨pk, hpk, h⟩ := h
      rw [Except.bind_eq_ok] at h
      obtain ⟨pk', hhave, h⟩ := h
      simp only [pure_bind] at h
      split at h
      · exact .inr ⟨rec, holds, pk, pk', rfl, hset, picker!_eq_ok hpk, hhave, eq_of_read h⟩
      · cases h

/-- A known peer's bitfield replaces its record's pieces, and the picker trades the old pieces'
holders for the new ones. -/
theorem reportBitfield_eq {name : String} {bf : Bitfield} {b : Bool}
    (h : d.reportBitfield name bf = .ok (b, d')) :
    d' = d ∨ ∃ rec pk pk₁ pk₂, d.record? name = some rec ∧ d.picker = some pk ∧
      pk.handleDisconnect rec.holds = .ok pk₁ ∧ pk₁.handleBitfield bf = .ok pk₂ ∧
      d' = { d.setRecord { rec with holds := bf } with picker := some pk₂ } := by
  unfold reportBitfield at h
  cases hrec : d.record? name with
  | none =>
    simp only [hrec, Except.pure_eq_ok, Prod.mk.injEq] at h
    exact .inl h.2.symm
  | some rec =>
    simp only [hrec] at h
    rw [Except.bind_eq_ok] at h
    obtain ⟨pk, hpk, h⟩ := h
    rw [Except.bind_eq_ok] at h
    obtain ⟨pk₁, hdis, h⟩ := h
    rw [Except.bind_eq_ok] at h
    obtain ⟨pk₂, hbf, h⟩ := h
    split at h
    · exact .inr ⟨rec, pk, pk₁, pk₂, rfl, picker!_eq_ok hpk, hdis, hbf, eq_of_read h⟩
    · cases h

/-- A handshaked peer is added, holding nothing, and is answered our bitfield; or the download
is left as it was and answers nothing. -/
theorem peerConnected_eq {name : String} {id : List UInt8} {outgoing : Bool}
    {ours : Option Bitfield} (h : d.peerConnected name id outgoing = (ours, d')) :
    (ours = none ∧ d' = d) ∨ ∃ bf, d.bitfield = some bf ∧ ours = some bf ∧
      d' = { d with peers := d.peers ++
        [{ name, id, outgoing, holds := Bitfield.new d.info.numPieces }] } := by
  unfold peerConnected at h
  split at h
  · obtain ⟨rfl, rfl⟩ := Prod.mk.inj h
    exact .inl ⟨rfl, rfl⟩
  · split at h
    · obtain ⟨rfl, rfl⟩ := Prod.mk.inj h
      exact .inl ⟨rfl, rfl⟩
    · split at h
      · obtain ⟨rfl, rfl⟩ := Prod.mk.inj h
        exact .inl ⟨rfl, rfl⟩
      · rename_i bf hbf
        obtain ⟨rfl, rfl⟩ := Prod.mk.inj h
        exact .inr ⟨bf, hbf, rfl, rfl⟩

/-- A known peer that leaves loses its record and its upload slot, and the picker gives back
its requests and forgets its pieces. -/
theorem peerDisconnected_eq {name : String} (h : d.peerDisconnected name = .ok d') :
    (d.record? name = none ∧ d' = d) ∨ ∃ rec pk n pk₁ pk₂ s, d.record? name = some rec ∧ d.picker = some pk ∧
      pk.releasePeer name = .ok (n, pk₁) ∧ pk₁.handleDisconnect rec.holds = .ok pk₂ ∧
      d.slots = some s ∧
      d' = { d with peers := d.peers.filter (·.name != name), picker := some pk₂,
                    slots := some { regular := s.regular.erase name,
                                    optimistic := s.optimistic.erase name } } := by
  unfold peerDisconnected at h
  cases hrec : d.record? name with
  | none =>
    simp only [hrec, Except.pure_eq_ok] at h
    exact .inl ⟨rfl, h.symm⟩
  | some rec =>
    simp only [hrec] at h
    rw [Except.bind_eq_ok] at h
    obtain ⟨pk, hpk, h⟩ := h
    rw [Except.bind_eq_ok] at h
    obtain ⟨⟨n, pk₁⟩, hrel, h⟩ := h
    rw [Except.bind_eq_ok] at h
    obtain ⟨pk₂, hdis, h⟩ := h
    split at h
    · rename_i s hs
      exact .inr ⟨rec, pk, n, pk₁, pk₂, s, rfl, picker!_eq_ok hpk, hrel, hdis, hs,
        (Except.pure_eq_ok.1 h).symm⟩
    · cases h

/-- A claim of a known peer's block by a download that has not failed counts the block as
downloaded; the picker then takes it, or it is counted as wasted. -/
theorem claimBlock_eq {name : String} {r : Request} {data : List UInt8} {ok : Bool}
    (h : d.claimBlock name r data = .ok (ok, d')) :
    (ok = false ∧ d' = d) ∨
      ∃ pk others pk', d.lastErr = none ∧ d.picker = some pk ∧
        pk.markReceived name r = .ok (ok, others, pk') ∧
        ((ok = false ∧ d' = { d with downloaded := d.downloaded + data.length,
                                     wasted := d.wasted + data.length }) ∨
          (ok = true ∧ d' = { d with downloaded := d.downloaded + data.length,
                                     picker := some pk' })) := by
  unfold claimBlock at h
  split at h
  · simp only [Except.pure_eq_ok, Prod.mk.injEq] at h
    exact .inl ⟨h.1.symm, h.2.symm⟩
  · rename_i hguard
    simp only [Bool.or_eq_true, Option.isNone_iff_eq_none, Option.isSome_iff_ne_none, ne_eq,
      not_or, Decidable.not_not] at hguard
    rw [Except.bind_eq_ok] at h
    obtain ⟨pk, hpk, h⟩ := h
    rw [Except.bind_eq_ok] at h
    obtain ⟨⟨b, others, pk'⟩, hmr, h⟩ := h
    dsimp only at h
    refine .inr ⟨pk, others, pk', hguard.2, picker!_eq_ok hpk, ?_⟩
    split at h
    · rename_i hb
      simp only [Bool.not_eq_true'] at hb
      simp only [Except.pure_eq_ok, Prod.mk.injEq] at h
      obtain ⟨rfl, rfl⟩ := h
      exact ⟨hb ▸ hmr, .inl ⟨rfl, rfl⟩⟩
    · rename_i hb
      simp only [Bool.not_eq_true', Bool.not_eq_false] at hb
      simp only [Except.pure_eq_ok, Prod.mk.injEq] at h
      obtain ⟨rfl, rfl⟩ := h
      exact ⟨hb ▸ hmr, .inr ⟨rfl, rfl⟩⟩

/-- An interested peer is unchoked or not; only its record and the upload slots change. -/
theorem peerInterested_eq {name : String} (h : d.peerInterested name = .ok d') :
    d' = d ∨ ∃ rec sl, d' = { d.setRecord rec with slots := sl } := by
  unfold peerInterested at h
  cases hrec : d.record? name with
  | none =>
    simp only [hrec, Except.pure_eq_ok] at h
    exact .inl h.symm
  | some rec =>
    simp only [hrec] at h
    split at h
    · exact .inl (Except.pure_eq_ok.1 h).symm
    · split at h
      · split at h
        · exact .inr ⟨_, _, (Except.pure_eq_ok.1 h).symm⟩
        · split at h
          · exact .inr ⟨_, _, (Except.pure_eq_ok.1 h).symm⟩
          · exact .inl (Except.pure_eq_ok.1 h).symm
      · cases h

/-- Reading a block for an upload keeps the disk's new cache, and a failure of the files fails
the download. -/
theorem readBlock_eq {index : UInt32} {off : Int} {length : Nat}
    {r : Except Disk.Failure (List UInt8)} (h : d.readBlock index off length = .ok (r, d')) :
    ∃ disk', d' = { d with disk := some disk' } ∨
      ∃ e, d' = ({ d with disk := some disk' } : Download σ).fail (.disk e) := by
  unfold readBlock at h
  split at h
  · rename_i disk hdisk
    dsimp only at h
    split at h
    · simp only [Except.pure_eq_ok, Prod.mk.injEq] at h
      exact ⟨_, .inr ⟨_, h.2.symm⟩⟩
    · simp only [Except.pure_eq_ok, Prod.mk.injEq] at h
      exact ⟨_, .inl h.2.symm⟩
  · cases h

/-- Updating peer records one after another changes nothing but the peer records. -/
theorem foldl_records {α : Type} {f : Download σ → α → Download σ}
    (hf : ∀ d a, ∃ ps, f d a = { d with peers := ps }) (l : List α) (d : Download σ)
    (P : Download σ → Prop) (hP : ∀ ps, P { d with peers := ps }) : P (l.foldl f d) := by
  induction l generalizing d with
  | nil => exact hP d.peers
  | cons a l ih =>
    obtain ⟨ps, hps⟩ := hf d a
    rw [List.foldl_cons, hps]
    exact ih _ fun qs => hP qs

/-- A good piece is verified in the picker and set in the bitfield; the sender's record may
leave parole, and the download seeds when the bitfield became full. -/
theorem pieceVerified_eq {index : UInt32} (h : d.pieceVerified index = .ok d') :
    ∃ pk sender pk' bf bf' ps, d.picker = some pk ∧ pk.markVerified index = .ok (sender, pk') ∧
      d.bitfield = some bf ∧ bf.set index = .ok bf' ∧
      d' = if bf'.all then
          ({ d with picker := some pk', peers := ps, bitfield := some bf' } : Download σ).setCompleted
        else { d with picker := some pk', peers := ps, bitfield := some bf' } := by
  unfold pieceVerified at h
  rw [Except.bind_eq_ok] at h
  obtain ⟨pk, hpk, h⟩ := h
  rw [Except.bind_eq_ok] at h
  obtain ⟨⟨sender, pk'⟩, hmv, h⟩ := h
  refine ⟨pk, sender, pk', ?_⟩
  split at h
  rename_i heq
  simp only [Prod.mk.injEq] at heq
  obtain ⟨rfl, rfl⟩ := heq
  dsimp only at h
  -- releasing the sender's parole touches its record only: three states, one tail
  cases hs : sender.bind ({ d with picker := some pk' } : Download σ).record? <;>
    simp only [hs] at h
  on_goal 2 =>
    rename_i rec
    by_cases hp : rec.parole = true <;> simp only [hp, ↓reduceIte, Bool.false_eq_true] at h
  all_goals
    split at h
    · rename_i bf hbf
      rw [Except.bind_eq_ok] at h
      obtain ⟨bf', hset, h⟩ := h
      rw [Except.pure_eq_ok] at h
      subst h
      exact ⟨bf, bf', _, picker!_eq_ok hpk, hmv, hbf, hset, rfl⟩
    · cases h

/-- A bad piece is reset in the picker and on the disk, its length is wasted, and only the
peer records change besides. -/
theorem pieceFailed_eq {index : UInt32} (h : d.pieceFailed index = .ok d') :
    ∃ pk cs pk' ps, d.picker = some pk ∧ pk.resetPiece index = .ok (cs, pk') ∧
      d' = { d with picker := some pk', disk := d.disk.map (·.resetPiece index),
                    wasted := d.wasted + (d.info.pieceLen index).toNat, peers := ps } := by
  unfold pieceFailed at h
  rw [Except.bind_eq_ok] at h
  obtain ⟨pk, hpk, h⟩ := h
  rw [Except.bind_eq_ok] at h
  obtain ⟨⟨cs, pk'⟩, hreset, h⟩ := h
  rw [Except.pure_eq_ok] at h
  subst h
  refine ⟨pk, cs, pk', ?_⟩
  -- putting the senders on parole touches their records only
  refine foldl_records (fun d₀ s => ?_) cs _ (fun X => ∃ ps, d.picker = some pk ∧
    pk.resetPiece index = .ok (cs, pk') ∧
    X = { d with picker := some pk', disk := d.disk.map (·.resetPiece index),
                 wasted := d.wasted + (d.info.pieceLen index).toNat, peers := ps })
    fun ps => ⟨ps, picker!_eq_ok hpk, hreset, rfl⟩
  split
  · exact ⟨_, rfl⟩
  · exact ⟨d₀.peers, rfl⟩

end Download

end BitTorrent.Torrent
