import BitTorrent.Proofs.Torrent.Availability
import BitTorrent.Proofs.Picker.Bytes

/-!
# Every downloaded byte is accounted for

A download counts every byte of a block that a connected peer delivers as downloaded, and counts
it as wasted when the picker did not wait for that block from that peer; a piece that fails its
check is wasted whole. This module proves that the two counters account for every byte: what was
downloaded and not wasted sits in the pieces verified since the start or in the blocks the picker
holds received.

A run is recorded with receipts (`Receipt`): a block that a connected peer delivered to a download
that has not failed, with whether the picker waited for it from that peer, and a verdict applied
to a piece. `Pipeline.Tallied` is a step of a run with its receipts, `Pipeline.Tally` a run.

* The picker takes a block exactly when it waits for it from its sender
  (`Picker.markReceived_true_iff`), and a write that succeeds took the length of the block at its
  offset (`Disk.length_of_writeBlock`).
* `Pipeline.Books` holds along every run that does not fail (`Books.step`, `Books.run`): besides
  the agreement of the picker and the disk (`Pipeline.Agree`), the counters are the sums of the
  receipts, the pieces set in the bitfield since the start are the pieces that passed, and the
  bytes delivered, with the received blocks the start restored, are the bytes wasted, passed and
  received, up to what the claimed blocks in flight were counted with beyond the lengths of their
  requests (`Pipeline.excess`).

Main statement: `Pipeline.downloaded_bytes_balance`.
-/

namespace BitTorrent

namespace Block

/-- The block found at an offset is the block of the layout there, with the length asked for. -/
theorem find?_eq_nth {len begin length : UInt32} {b : Block} (h : find? len begin length = some b) :
    b = nth len (begin / blockSize) ∧ b.length = length := by
  unfold find? at h
  split at h
  · cases h
  · cases hg : get? len (begin / blockSize) with
    | none => simp [hg] at h
    | some b' =>
      simp only [hg] at h
      split at h
      · rename_i hlen
        cases h
        unfold get? at hg
        split at hg
        · cases hg
          exact ⟨rfl, beq_iff_eq.1 hlen⟩
        · cases hg
      · cases h

end Block

namespace Disk

/-- A write that succeeds took data of the length of the block at its offset, when that length
fits a word. -/
theorem length_of_writeBlock {σ : Type} {fs : FileStore σ} {st st' : σ} {d d' : Disk}
    {info : Info} {index begin : UInt32} {data : List UInt8} {c : Bool}
    (hpieces : d.pieces = (info.layout info.numPieces.toNat).toArray)
    (h : d.writeBlock fs st index begin data = (.ok c, d', st')) (hwire : data.length < 2 ^ 32) :
    data.length = (Block.nth (info.pieceLen index) (begin / blockSize)).length.toNat := by
  obtain ⟨p, blk, hp, hfind, -⟩ := writeBlock_eq_ok h
  obtain ⟨hidx, -⟩ := numBlocks_of_layout hpieces hp
  have hlay : (info.layout info.numPieces.toNat)[index.toNat]? = some p := by
    rw [hpieces, List.getElem?_toArray] at hp
    exact hp
  have hlen : p.length = info.pieceLen index := by
    rw [(info.getElem?_layout hlay).2.1, hidx]
  obtain ⟨rfl, hbl⟩ := Block.find?_eq_nth hfind
  rw [← hlen, hbl, Nat.toUInt32_eq, UInt32.toNat_ofNat_of_lt' hwire]

end Disk

namespace Picker

variable {P : Type}

/-- A piece with every block received is partial, so it is not verified. -/
theorem Inv.unverified_of_allReceived {pk : Picker P} (h : pk.Inv) {i : UInt32}
    (hlt : i < pk.numPieces) (hall : pk.AllReceived i) : pk.verified.getD i = false := by
  obtain ⟨pp, hp, -⟩ := hall 0 (Block.count_pos (h.length_pos i hlt))
  exact (mem_of_partial? hp).2 ▸ (h.tracks pp (mem_of_partial? hp).1).unverified

variable [DecidableEq P]

/-- A block requested from a peer is taken from that peer. -/
theorem markReceived_of_requested {pk : Picker P} {pe : P} {r : Request} {pp : PartialPiece P}
    {i : ℕ} {s : Slot P} (hp : pk.partial? r.index = some pp)
    (hi : pp.slotAt? r.begin r.length = some i) (hs : pp.slots[i]? = some s)
    (hst : s.state = .requested) (hpe : pe ∈ s.requested) :
    ∃ others pk', pk.markReceived pe r = .ok (true, others, pk') := by
  simp [markReceived, hp, hi, hs, hst, hpe, Slot.moveTo, BlockState.Legal, bind, Except.bind,
    pure, Except.pure]

/-- **The picker takes a block exactly when it waits for it from its sender.** -/
theorem markReceived_true_iff {pk pk' : Picker P} (h : pk.Inv) {pe : P} {r : Request} {ok : Bool}
    {others : List P} (hr : pk.markReceived pe r = .ok (ok, others, pk')) :
    ok = true ↔ r ∈ pk.requestsOf pe := by
  rw [h.mem_requestsOf_iff]
  constructor
  · intro hok
    rcases markReceived_cases hr with ⟨rfl, -⟩ | ⟨pp, i, s, hp, hi, hs, hst, hpe, -⟩
    · cases hok
    · exact ⟨pp, i, s, hp, hi, hs, hst, hpe⟩
  · rintro ⟨pp, i, s, hp, hi, hs, hst, hpe⟩
    obtain ⟨others', pk'', hr'⟩ := markReceived_of_requested hp hi hs hst hpe
    rw [hr] at hr'
    exact (Prod.mk.inj (Except.ok.inj hr')).1

end Picker

namespace Info

/-- The length of piece `i` when it is set in `bf` and not in `bf₀`. -/
def pieceGain (info : Info) (bf₀ bf : Bitfield) (i : UInt32) : ℕ :=
  if bf.getD i && !bf₀.getD i then (info.pieceLen i).toNat else 0

/-- The bytes of the pieces of the torrent set in `bf` and not in `bf₀`. -/
def gainedBytes (info : Info) (bf₀ bf : Bitfield) : ℕ :=
  ∑ i ∈ Finset.range info.numPieces.toNat, info.pieceGain bf₀ bf i.toUInt32

theorem gainedBytes_self (info : Info) (bf : Bitfield) : info.gainedBytes bf bf = 0 :=
  Finset.sum_eq_zero fun i _ => by simp [pieceGain]

/-- Setting the bit of a piece of the torrent that neither bitfield has adds its length. -/
theorem gainedBytes_set (info : Info) {bf₀ bf bf' : Bitfield} {i : UInt32}
    (hi : i < info.numPieces) (hset : bf.set i = .ok bf') (hbf : bf.getD i = false)
    (hbf₀ : bf₀.getD i = false) :
    info.gainedBytes bf₀ bf' = info.gainedBytes bf₀ bf + (info.pieceLen i).toNat := by
  have hj : i.toNat ∈ Finset.range info.numPieces.toNat :=
    Finset.mem_range.2 (UInt32.lt_iff_toNat_lt.1 hi)
  -- the other pieces keep their bits
  have hsum := Finset.sum_add_of_agree_off hj (f := fun k => info.pieceGain bf₀ bf' k.toUInt32)
    (g := fun k => info.pieceGain bf₀ bf k.toUInt32) fun k hk hne => by
      have hlt : k < 2 ^ 32 := lt_trans (Finset.mem_range.1 hk) info.numPieces.toNat_lt
      simp only [pieceGain, Bitfield.getD_set_of_ne hset (Nat.toUInt32_ne_of_ne hlt hne)]
  have hii : i.toNat.toUInt32 = i := UInt32.ofNat_toNat
  have hf : info.pieceGain bf₀ bf' i = (info.pieceLen i).toNat := by
    simp [pieceGain, Bitfield.getD_set_self hset, hbf₀]
  have hg : info.pieceGain bf₀ bf i = 0 := by
    simp [pieceGain, hbf]
  simp only [hii, hf, hg] at hsum
  unfold gainedBytes
  omega

end Info

namespace Torrent

/-- What a step of a run tells about bytes. -/
inductive Receipt where
  /-- A block of `bytes` bytes that a connected peer delivered to a download that had not
  failed, and whether the picker waited for it from that peer. -/
  | block (bytes : ℕ) (requested : Bool)
  /-- The verdict applied to piece `index`. -/
  | verdict (index : UInt32) (good : Bool)
  deriving DecidableEq, Repr

namespace Receipt

/-- The bytes counted as downloaded. -/
def downloaded : Receipt → ℕ
  | block bytes _ => bytes
  | verdict _ _ => 0

/-- The bytes counted as wasted: a block the picker did not wait for, and the whole of a piece
that failed its check. -/
def wasted (pieceLen : UInt32 → UInt32) : Receipt → ℕ
  | block bytes requested => if requested then 0 else bytes
  | verdict index good => if good then 0 else (pieceLen index).toNat

/-- The bytes of a piece that passed its check. -/
def passed (pieceLen : UInt32 → UInt32) : Receipt → ℕ
  | block _ _ => 0
  | verdict index good => if good then (pieceLen index).toNat else 0

theorem sum_map_append_singleton (f : Receipt → ℕ) (log : List Receipt) (x : Receipt) :
    ((log ++ [x]).map f).sum = (log.map f).sum + f x := by
  simp

end Receipt

namespace Download

variable {σ : Type} {d d' : Download σ}

/-- The receipt of a claim: a block of a connected peer, delivered to a download that has not
failed, and whether the picker waits for it from that peer. -/
def claimReceipt (d : Download σ) (name : String) (r : Request) (data : List UInt8) :
    List Receipt :=
  if (d.record? name).isNone || d.lastErr.isSome then []
  else [.block data.length (d.picker.any fun pk => decide (r ∈ pk.requestsOf name))]

/-- A change that moves neither byte counter. -/
structure Uncounted (d d' : Download σ) : Prop where
  downloaded : d'.downloaded = d.downloaded
  wasted : d'.wasted = d.wasted

theorem uncounted_requestWork {name : String} {n : Int} {rs : List Request}
    (h : d.requestWork name n = .ok (rs, d')) : Uncounted d d' := by
  rcases requestWork_eq h with ⟨-, rfl⟩ | ⟨_, _, _, -, -, -, -, -, rfl⟩ <;> exact ⟨rfl, rfl⟩

theorem uncounted_cancelRequests {name : String} {rs : List Request}
    (h : d.cancelRequests name rs = .ok d') : Uncounted d d' := by
  rcases cancelRequests_eq h with rfl | ⟨_, _, -, -, rfl⟩ <;> exact ⟨rfl, rfl⟩

theorem uncounted_reportHave {name : String} {i : UInt32} {b : Bool}
    (h : d.reportHave name i = .ok (b, d')) : Uncounted d d' := by
  rcases reportHave_eq h with rfl | ⟨-, -, _, _, -, -, -, -, rfl⟩ <;> exact ⟨rfl, rfl⟩

theorem uncounted_reportBitfield {name : String} {bf : Bitfield} {b : Bool}
    (h : d.reportBitfield name bf = .ok (b, d')) : Uncounted d d' := by
  rcases reportBitfield_eq h with rfl | ⟨_, _, _, _, -, -, -, -, rfl⟩ <;> exact ⟨rfl, rfl⟩

theorem uncounted_peerConnected {name : String} {id : List UInt8} {outgoing : Bool}
    {ours : Option Bitfield} (h : d.peerConnected name id outgoing = (ours, d')) :
    Uncounted d d' := by
  rcases peerConnected_eq h with ⟨-, rfl⟩ | ⟨-, -, -, rfl⟩ <;> exact ⟨rfl, rfl⟩

theorem uncounted_peerDisconnected {name : String} (h : d.peerDisconnected name = .ok d') :
    Uncounted d d' := by
  rcases peerDisconnected_eq h with ⟨-, rfl⟩ | ⟨_, _, _, _, _, -, -, -, -, -, -, rfl⟩ <;>
    exact ⟨rfl, rfl⟩

theorem uncounted_pieceVerified {index : UInt32} (h : d.pieceVerified index = .ok d') :
    Uncounted d d' := by
  obtain ⟨_, _, _, _, _, _, -, -, -, -, rfl⟩ := pieceVerified_eq h
  split <;> exact ⟨rfl, rfl⟩

/-- A claim by a connected peer of a download that has not failed counts the block as
downloaded, and as wasted unless the picker takes it; any other claim changes nothing. -/
theorem claimBlock_counted {name : String} {r : Request} {data : List UInt8} {ok : Bool}
    (h : d.claimBlock name r data = .ok (ok, d')) :
    (((d.record? name).isNone || d.lastErr.isSome) = true ∧ ok = false ∧ d' = d) ∨
      (((d.record? name).isNone || d.lastErr.isSome) = false ∧ ∃ pk others pk',
        d.picker = some pk ∧ pk.markReceived name r = .ok (ok, others, pk') ∧
        d' = if ok then { d with downloaded := d.downloaded + data.length, picker := some pk' }
          else { d with downloaded := d.downloaded + data.length,
                        wasted := d.wasted + data.length }) := by
  unfold claimBlock at h
  split at h
  · rename_i hguard
    simp only [Except.pure_eq_ok, Prod.mk.injEq] at h
    exact .inl ⟨hguard, h.1.symm, h.2.symm⟩
  · rename_i hguard
    rw [Except.bind_eq_ok] at h
    obtain ⟨pk, hpk, h⟩ := h
    rw [Except.bind_eq_ok] at h
    obtain ⟨⟨b, others, pk'⟩, hmr, h⟩ := h
    refine .inr ⟨Bool.eq_false_iff.2 hguard, pk, others, pk', picker!_eq_ok hpk, ?_⟩
    cases b <;> simp only [Bool.not_false, Bool.not_true, Bool.false_eq_true, ↓reduceIte,
      Except.pure_eq_ok, Prod.mk.injEq] at h <;> obtain ⟨rfl, rfl⟩ := h <;> exact ⟨hmr, rfl⟩

/-- The receipt of a counted claim says whether the picker took the block. -/
theorem claimReceipt_of_counted {pk pk' : Picker String} {name : String} {r : Request}
    {data : List UInt8} {ok : Bool} {others : List String} (hinv : pk.Inv)
    (hpk : d.picker = some pk) (hg : ((d.record? name).isNone || d.lastErr.isSome) = false)
    (hmr : pk.markReceived name r = .ok (ok, others, pk')) :
    d.claimReceipt name r data = [.block data.length ok] := by
  have hans : decide (r ∈ pk.requestsOf name) = ok := by
    rw [Bool.eq_iff_iff, decide_eq_true_iff]
    exact (Picker.markReceived_true_iff hinv hmr).symm
  rw [claimReceipt, hg, hpk, Option.any_some, hans]
  rfl

end Download

namespace Submission

/-- The bytes a claimed block was counted with beyond the length its request names. -/
def excess (sub : Submission) : ℤ :=
  if sub.stage = .claimed then (sub.data.length : ℤ) - sub.request.length.toNat else 0

end Submission

namespace Pipeline

variable {σ : Type}

/-- The bytes the claimed blocks in flight were counted with beyond the lengths of their
requests. -/
def excess (fl : List Submission) : ℤ :=
  (fl.map Submission.excess).sum

@[simp] theorem excess_nil : excess [] = 0 := rfl

@[simp] theorem excess_cons (sub : Submission) (fl : List Submission) :
    excess (sub :: fl) = sub.excess + excess fl := by
  simp [excess]

@[simp] theorem excess_append (fl fl' : List Submission) :
    excess (fl ++ fl') = excess fl + excess fl' := by
  simp [excess]

theorem excess_erase {fl : List Submission} {sub : Submission} (h : sub ∈ fl)
    (h0 : sub.excess = 0) : excess (fl.erase sub) = excess fl := by
  unfold excess
  rw [← List.sum_map_erase _ h, h0, zero_add]

/-- Nothing claimed, nothing in excess. -/
theorem excess_of_unclaimed {fl : List Submission} (h : ∀ sub ∈ fl, sub.stage ≠ .claimed) :
    excess fl = 0 := by
  unfold excess
  refine List.sum_eq_zero fun x hx => ?_
  obtain ⟨sub, hsub, rfl⟩ := List.mem_map.1 hx
  simp [Submission.excess, h sub hsub]

/-- A step of a run with its receipts: a claim by a connected peer of a download that has not
failed leaves the receipt of its block, a verdict applied while the download has a picker leaves
the receipt of its piece, and the other steps leave none. A block arrives in a piece message,
whose length is a word. -/
inductive Tallied : Pipeline σ → List Receipt → Pipeline σ → Prop
  | requestWork {d d' : Download σ} {fl : List Submission} (name : String) (n : Int)
      (rs : List Request) (h : d.requestWork name n = .ok (rs, d')) : Tallied ⟨d, fl⟩ [] ⟨d', fl⟩
  | cancelRequests {d d' : Download σ} {fl : List Submission} (name : String)
      (rs : List Request) (h : d.cancelRequests name rs = .ok d') : Tallied ⟨d, fl⟩ [] ⟨d', fl⟩
  | reportHave {d d' : Download σ} {fl : List Submission} (name : String) (i : UInt32)
      (b : Bool) (h : d.reportHave name i = .ok (b, d')) : Tallied ⟨d, fl⟩ [] ⟨d', fl⟩
  | reportBitfield {d d' : Download σ} {fl : List Submission} (name : String) (bf : Bitfield)
      (b : Bool) (h : d.reportBitfield name bf = .ok (b, d')) : Tallied ⟨d, fl⟩ [] ⟨d', fl⟩
  | peerConnected {d d' : Download σ} {fl : List Submission} (name : String) (id : List UInt8)
      (outgoing : Bool) (ours : Option Bitfield)
      (h : d.peerConnected name id outgoing = (ours, d')) : Tallied ⟨d, fl⟩ [] ⟨d', fl⟩
  | peerDisconnected {d d' : Download σ} {fl : List Submission} (name : String)
      (h : d.peerDisconnected name = .ok d') : Tallied ⟨d, fl⟩ [] ⟨d', fl⟩
  | claim {d d' : Download σ} {fl : List Submission} (name : String) (r : Request)
      (data : List UInt8) (hwire : data.length < 2 ^ 32) (ok : Bool)
      (h : d.claimBlock name r data = .ok (ok, d')) :
      Tallied ⟨d, fl⟩ (d.claimReceipt name r data)
        ⟨d', if ok then ⟨r, data, .claimed⟩ :: fl else fl⟩
  | write {d d' : Download σ} {fl : List Submission} (r : Request) (data : List UInt8)
      (hin : ⟨r, data, .claimed⟩ ∈ fl) (complete : Bool)
      (h : d.writeClaimed r data = .ok (complete, d')) :
      Tallied ⟨d, fl⟩ [] ⟨d', if complete then ⟨r, data, .written⟩ :: fl.erase ⟨r, data, .claimed⟩
        else fl.erase ⟨r, data, .claimed⟩⟩
  | check {d d' : Download σ} {fl : List Submission} (r : Request) (data : List UInt8)
      (hin : ⟨r, data, .written⟩ ∈ fl) (v : Option Bool)
      (h : d.checkPiece r.index = .ok (v, d')) :
      Tallied ⟨d, fl⟩ [] ⟨d', (v.toList.map fun good => ⟨r, data, .checked good⟩) ++
        fl.erase ⟨r, data, .written⟩⟩
  | finish {d d' : Download σ} {fl : List Submission} (r : Request) (data : List UInt8)
      (good : Bool) (hin : ⟨r, data, .checked good⟩ ∈ fl)
      (h : d.finishPiece r.index good = .ok d') :
      Tallied ⟨d, fl⟩ (d.picker.toList.map fun _ => .verdict r.index good)
        ⟨d', fl.erase ⟨r, data, .checked good⟩⟩

/-- A run with the receipts of its steps, in order. -/
inductive Tally : Pipeline σ → List Receipt → Pipeline σ → Prop
  | refl (s : Pipeline σ) : Tally s [] s
  | tail {s s₁ s₂ : Pipeline σ} {log m : List Receipt} (hr : Tally s log s₁)
      (hs : Tallied s₁ m s₂) : Tally s (log ++ m) s₂

variable {s s' : Pipeline σ} {log m : List Receipt}

theorem Tallied.step (hs : Tallied s m s') : Step s s' := by
  cases hs with
  | requestWork name n rs h => exact .requestWork name n rs h
  | cancelRequests name rs h => exact .cancelRequests name rs h
  | reportHave name i b h => exact .reportHave name i b h
  | reportBitfield name bf b h => exact .reportBitfield name bf b h
  | peerConnected name id outgoing ours h => exact .peerConnected name id outgoing ours h
  | peerDisconnected name h => exact .peerDisconnected name h
  | claim name r data _ ok h => exact .claim name r data ok h
  | write r data hin complete h => exact .write r data hin complete h
  | check r data hin v h => exact .check r data hin v h
  | finish r data good hin h => exact .finish r data good hin h

/-- The books of a run that started from `d₀`, whose bitfield was `bf₀` and whose picker held
`restored` bytes of received blocks, with the receipts `log`, at the state `s` whose picker is
`pk` and whose disk is `disk`. -/
structure Books (d₀ : Download σ) (bf₀ : Bitfield) (restored : ℕ) (log : List Receipt)
    (s : Pipeline σ) (pk : Picker String) (disk : Disk) : Prop where
  agree : Agree s.download s.inFlight pk disk
  info : s.download.info = d₀.info
  kept : ∀ i, bf₀.getD i = true → pk.verified.getD i = true
  downloaded : s.download.downloaded = d₀.downloaded + (log.map Receipt.downloaded).sum
  wasted : s.download.wasted = d₀.wasted + (log.map (Receipt.wasted d₀.info.pieceLen)).sum
  gained : d₀.info.gainedBytes bf₀ pk.verified = (log.map (Receipt.passed d₀.info.pieceLen)).sum
  balance : ((log.map Receipt.downloaded).sum + restored : ℤ) =
    (log.map (Receipt.wasted d₀.info.pieceLen)).sum +
      (log.map (Receipt.passed d₀.info.pieceLen)).sum + pk.receivedBytes + excess s.inFlight
  /-- A claimed block came in a piece message, for a request of a block of its piece. -/
  wire : ∀ sub ∈ s.inFlight, sub.stage = .claimed → sub.data.length < 2 ^ 32 ∧
    sub.request.length =
      (Block.nth (d₀.info.pieceLen sub.request.index) (sub.request.begin / blockSize)).length

section

variable {d₀ d d' : Download σ} {bf₀ : Bitfield} {restored : ℕ} {fl : List Submission}
  {pk : Picker String} {disk : Disk}

/-- A step that moves neither counter, the blocks in flight, the files nor the bitfield, and
keeps the received blocks, keeps the books. -/
theorem Books.tame (h : Books d₀ bf₀ restored log ⟨d, fl⟩ pk disk) (ht : Download.Tame d d')
    (hc : Download.Uncounted d d') : ∃ pk', Books d₀ bf₀ restored log ⟨d', fl⟩ pk' disk := by
  obtain ⟨pk', hpk', -, hk⟩ := ht.picker pk h.agree.picker_eq h.agree.inv
  obtain ⟨pk'', ha⟩ := h.agree.tame ht
  obtain rfl : pk'' = pk' := Option.some.inj (ha.picker_eq.symm.trans hpk')
  refine ⟨pk'', ha, ht.info.trans h.info, ?_, hc.downloaded.trans h.downloaded,
    hc.wasted.trans h.wasted, ?_, ?_, h.wire⟩
  · rw [hk.verified]
    exact h.kept
  · rw [hk.verified]
    exact h.gained
  · rw [Picker.receivedBytes_of_keeps hk]
    exact h.balance

/-- A claim keeps the books: a block the picker takes moves its length into the received blocks,
beyond which it is in excess until written, and any other counted block is wasted. -/
theorem Books.claim (h : Books d₀ bf₀ restored log ⟨d, fl⟩ pk disk) {name : String} {r : Request}
    {data : List UInt8} (hwire : data.length < 2 ^ 32) {ok : Bool}
    (hc : d.claimBlock name r data = .ok (ok, d')) :
    ∃ pk', Books d₀ bf₀ restored (log ++ d.claimReceipt name r data)
      ⟨d', if ok then ⟨r, data, .claimed⟩ :: fl else fl⟩ pk' disk := by
  obtain ⟨pk', ha⟩ := h.agree.claim hc
  have hinfo : d.info = d₀.info := h.info
  rcases Download.claimBlock_counted hc with ⟨hg, rfl, rfl⟩ | ⟨hg, pk₀, others, pk₁, hpk, hmr, rfl⟩
  · simp only [Download.claimReceipt, hg, ↓reduceIte, List.append_nil, Bool.false_eq_true]
    exact ⟨pk, h⟩
  rw [h.agree.picker_eq, Option.some.injEq] at hpk
  subst hpk
  rw [Download.claimReceipt_of_counted h.agree.inv h.agree.picker_eq hg hmr]
  cases ok with
  | false =>
    -- the picker did not wait for the block: it is wasted
    simp only [Bool.false_eq_true, ↓reduceIte] at ha ⊢
    obtain rfl : pk' = pk := Option.some.inj (ha.picker_eq.symm.trans h.agree.picker_eq)
    have hb := h.balance
    dsimp only at hb
    refine ⟨pk', ha, hinfo, h.kept, ?_, ?_, ?_, ?_, h.wire⟩ <;>
      simp only [Receipt.sum_map_append_singleton, Receipt.downloaded, Receipt.wasted,
        Receipt.passed, Bool.false_eq_true, ↓reduceIte, add_zero]
    · rw [h.downloaded]
      push_cast
      ring
    · rw [h.wasted]
      push_cast
      ring
    · exact h.gained
    · omega
  | true =>
    -- the picker took the block: its request's length moves into the received blocks
    simp only [↓reduceIte] at ha ⊢
    have hp : some pk₁ = some pk' := ha.picker_eq
    obtain rfl := Option.some.inj hp
    obtain ⟨-, -, -, -, -, hv⟩ := Picker.received_markReceived hmr
    obtain ⟨-, hlen⟩ := Picker.length_of_markReceived h.agree.inv hmr
    have hblock : (r.begin / blockSize).toNat.toUInt32 = r.begin / blockSize := UInt32.ofNat_toNat
    have hb := h.balance
    dsimp only at hb
    refine ⟨pk₁, ha, hinfo, hv ▸ h.kept, ?_, ?_, ?_, ?_, fun sub hsub hst => ?_⟩
    · simp only [Receipt.sum_map_append_singleton, Receipt.downloaded]
      rw [h.downloaded]
      push_cast
      ring
    · simpa [Receipt.sum_map_append_singleton, Receipt.wasted] using h.wasted
    · simpa [Receipt.sum_map_append_singleton, Receipt.passed, hv] using h.gained
    · simp only [Receipt.sum_map_append_singleton, Receipt.downloaded, Receipt.wasted,
        Receipt.passed, ↓reduceIte, add_zero, excess_cons, Submission.excess,
        Picker.receivedBytes_markReceived h.agree.inv hmr]
      omega
    · rcases List.mem_cons.1 hsub with rfl | hsub
      · refine ⟨hwire, ?_⟩
        rw [hlen, h.agree.pieceLength, hinfo, hblock]
      · exact h.wire sub hsub hst


/-- A write keeps the books: the block it writes was counted with the length of its request. -/
theorem Books.write (h : Books d₀ bf₀ restored log ⟨d, fl⟩ pk disk) {r : Request}
    {data : List UInt8} (hin : ⟨r, data, .claimed⟩ ∈ fl) {c : Bool}
    (hw : d.writeClaimed r data = .ok (c, d')) (hok : d'.lastErr = none) :
    ∃ disk', Books d₀ bf₀ restored log ⟨d', if c then ⟨r, data, .written⟩ ::
      fl.erase ⟨r, data, .claimed⟩ else fl.erase ⟨r, data, .claimed⟩⟩ pk disk' := by
  obtain ⟨disk', ha⟩ := h.agree.write hin hw hok
  obtain ⟨disk₀, hdisk, ⟨e, disk₁, st, -, rfl⟩ | ⟨disk₁, st, hwb, rfl⟩⟩ :=
    Download.writeClaimed_cases hw
  · refine absurd hok (Download.lastErr_fail_ne_none ?_ e)
    exact h.agree.running
  rw [h.agree.disk_eq, Option.some.injEq] at hdisk
  subst hdisk
  have hinfo : d.info = d₀.info := h.info
  obtain ⟨hsmall, hlen⟩ := h.wire _ hin rfl
  -- the write took the block's length, which is the length of its request
  have hdata : data.length = r.length.toNat := by
    rw [Disk.length_of_writeBlock h.agree.pieces hwb hsmall, hlen, hinfo]
  have hex : excess (fl.erase ⟨r, data, .claimed⟩) = excess fl :=
    excess_erase hin (by simp [Submission.excess, hdata])
  have hb := h.balance
  dsimp only at hb
  refine ⟨disk', ha, hinfo, h.kept, h.downloaded, h.wasted, h.gained, ?_, fun sub hsub hst => ?_⟩
  · cases c <;> simpa [hex, Submission.excess] using hb
  · -- the blocks still claimed were claimed before
    have hsub' : sub ∈ fl.erase ⟨r, data, .claimed⟩ := by
      cases c
      · exact hsub
      · rcases List.mem_cons.1 hsub with rfl | hsub
        · cases hst
        · exact hsub
    exact h.wire sub (List.mem_of_mem_erase hsub') hst

/-- A check keeps the books: a piece past its claims counts no excess. -/
theorem Books.check (h : Books d₀ bf₀ restored log ⟨d, fl⟩ pk disk) {r : Request}
    {data : List UInt8} (hin : ⟨r, data, .written⟩ ∈ fl) {v : Option Bool}
    (hk : d.checkPiece r.index = .ok (v, d')) (hok : d'.lastErr = none) :
    ∃ disk', Books d₀ bf₀ restored log ⟨d', (v.toList.map fun good => ⟨r, data, .checked good⟩) ++
      fl.erase ⟨r, data, .written⟩⟩ pk disk' := by
  obtain ⟨disk', ha⟩ := h.agree.check hin hk hok
  obtain ⟨disk₀, -, ⟨-, e, disk₁, rfl⟩ | ⟨good, disk₁, rfl, -, rfl⟩⟩ :=
    Download.checkPiece_cases hk
  · refine absurd hok (Download.lastErr_fail_ne_none ?_ (.disk e))
    exact h.agree.running
  have hex : excess (fl.erase ⟨r, data, .written⟩) = excess fl :=
    excess_erase hin (by simp [Submission.excess])
  have hb := h.balance
  dsimp only at hb
  refine ⟨disk', ha, h.info, h.kept, h.downloaded, h.wasted, h.gained, ?_, fun sub hsub hst => ?_⟩
  · simpa [hex, Submission.excess] using hb
  · simp only [Option.toList_some, List.map_cons, List.map_nil, List.singleton_append,
      List.mem_cons] at hsub
    rcases hsub with rfl | hsub
    · cases hst
    · exact h.wire sub (List.mem_of_mem_erase hsub) hst

/-- A verdict keeps the books: a piece that passes moves its length from the received blocks to
the pieces gained, and a piece that fails moves it to the wasted bytes. -/
theorem Books.finish (h : Books d₀ bf₀ restored log ⟨d, fl⟩ pk disk) {r : Request}
    {data : List UInt8} {good : Bool} (hin : ⟨r, data, .checked good⟩ ∈ fl)
    (hf : d.finishPiece r.index good = .ok d') :
    ∃ pk' disk', Books d₀ bf₀ restored (log ++ d.picker.toList.map fun _ => .verdict r.index good)
      ⟨d', fl.erase ⟨r, data, .checked good⟩⟩ pk' disk' := by
  obtain ⟨pk', disk', ha⟩ := h.agree.finish hin hf
  obtain ⟨hlt, hall⟩ : r.index < pk.numPieces ∧ pk.AllReceived r.index :=
    h.agree.complete _ hin (by simp)
  have hinfo : d.info = d₀.info := h.info
  have hex : excess (fl.erase ⟨r, data, .checked good⟩) = excess fl :=
    excess_erase hin (by simp [Submission.excess])
  -- the piece holds its whole length in received blocks
  have hbytes : pk.pieceBytes r.index = (d₀.info.pieceLen r.index).toNat := by
    rw [Picker.pieceBytes_of_allReceived hall, h.agree.pieceLength, hinfo]
  have hb := h.balance
  dsimp only at hb
  have hwire : ∀ sub ∈ fl.erase ⟨r, data, .checked good⟩, sub.stage = .claimed →
      sub.data.length < 2 ^ 32 ∧ sub.request.length =
        (Block.nth (d₀.info.pieceLen sub.request.index) (sub.request.begin / blockSize)).length :=
    fun sub hsub hst => h.wire sub (List.mem_of_mem_erase hsub) hst
  rw [h.agree.picker_eq, Option.toList_some, List.map_cons, List.map_nil]
  rcases Download.finishPiece_cases hf with ⟨hnone, -⟩ | ⟨rfl, hv⟩ | ⟨rfl, hfail⟩
  · rw [h.agree.picker_eq] at hnone
    cases hnone
  · -- the piece passed: it is verified in the picker and set in the bitfield
    obtain ⟨sender, bf, hset, hmv⟩ :=
      Picker.markVerified_ok h.agree.inv hlt hall h.agree.length h.agree.small
    obtain ⟨pk₀, _, pk₁, _, _, hpk, hmv', -, -, hpk₁, -, -, hinfo', -, -⟩ :=
      Download.pieceVerified_spec hv
    rw [h.agree.picker_eq, Option.some.injEq] at hpk
    subst hpk
    rw [hmv, Except.ok.injEq, Prod.mk.injEq] at hmv'
    obtain ⟨-, rfl⟩ := hmv'
    have hpk' : pk' = _ := Option.some.inj (ha.picker_eq.symm.trans hpk₁)
    have hver : pk'.verified = bf := by rw [hpk']
    have hc := Download.uncounted_pieceVerified hv
    have hunv := h.agree.inv.unverified_of_allReceived hlt hall
    have hunv₀ : bf₀.getD r.index = false := by
      cases hb₀ : bf₀.getD r.index
      · rfl
      · simpa [hunv] using h.kept _ hb₀
    have hlt' : r.index < d₀.info.numPieces := by
      rw [← hinfo, ← h.agree.numPieces]
      exact hlt
    -- the piece's received blocks are dropped with it
    have hrm : pk'.receivedBytes + pk.pieceBytes r.index = pk.receivedBytes := by
      refine Picker.receivedBytes_forget hlt (by rw [hpk']; rfl) (by rw [hpk']; rfl) fun i k => ?_
      rw [Picker.received_of_partials (by rw [hpk']) i k]
      exact Picker.received_removePartial pk r.index i k
    refine ⟨pk', disk', ha, hinfo'.trans hinfo, fun i hi => ?_, ?_, ?_, ?_, ?_, hwire⟩
    · rw [hver]
      by_cases hne : i = r.index
      · rw [hne]
        exact Bitfield.getD_set_self hset
      · rw [Bitfield.getD_set_of_ne hset hne]
        exact h.kept i hi
    · rw [hc.downloaded, Receipt.sum_map_append_singleton, h.downloaded]
      simp [Receipt.downloaded]
    · rw [hc.wasted, Receipt.sum_map_append_singleton, h.wasted]
      simp [Receipt.wasted]
    · rw [Receipt.sum_map_append_singleton, ← h.gained, hver]
      exact d₀.info.gainedBytes_set hlt' hset hunv hunv₀
    · simp only [Receipt.sum_map_append_singleton, Receipt.downloaded, Receipt.wasted,
        Receipt.passed, ↓reduceIte, add_zero]
      omega
  · -- the piece failed: it is reset, and its length is wasted
    obtain ⟨pk₀, cs, pk₁, ps, hpk, hreset, rfl⟩ := Download.pieceFailed_eq hfail
    rw [h.agree.picker_eq, Option.some.injEq] at hpk
    subst hpk
    obtain rfl := Picker.resetPiece_eq hreset
    have hp : some (pk.removePartial r.index) = some pk' := ha.picker_eq
    obtain rfl := Option.some.inj hp
    have hrm := Picker.receivedBytes_removePartial pk hlt
    refine ⟨_, disk', ha, hinfo, h.kept, ?_, ?_, ?_, ?_, hwire⟩
    · simpa [Receipt.sum_map_append_singleton, Receipt.downloaded] using h.downloaded
    · have hw := h.wasted
      dsimp only at hw ⊢
      simp only [Receipt.sum_map_append_singleton, Receipt.wasted, Bool.false_eq_true,
        ↓reduceIte, hinfo]
      omega
    · simpa [Receipt.sum_map_append_singleton, Receipt.passed] using h.gained
    · simp only [Receipt.sum_map_append_singleton, Receipt.downloaded, Receipt.wasted,
        Receipt.passed, Bool.false_eq_true, ↓reduceIte, add_zero]
      omega

end

theorem Tally.run (hr : Tally s log s') : Relation.ReflTransGen Step s s' := by
  induction hr with
  | refl => exact .refl
  | tail _ hs ih => exact ih.tail hs.step

section

variable {d₀ : Download σ} {bf₀ : Bitfield} {restored : ℕ} {pk : Picker String} {disk : Disk}

/-- Every step keeps the books while the download has not failed. -/
theorem Books.step (h : Books d₀ bf₀ restored log s pk disk) (hs : Tallied s m s')
    (hok : s'.download.lastErr = none) :
    ∃ pk' disk', Books d₀ bf₀ restored (log ++ m) s' pk' disk' := by
  have tame : ∀ {d' : Download σ}, Download.Tame s.download d' →
      Download.Uncounted s.download d' →
      ∃ pk' disk', Books d₀ bf₀ restored (log ++ []) ⟨d', s.inFlight⟩ pk' disk' := by
    intro d' ht hc
    rw [List.append_nil]
    exact (h.tame ht hc).imp fun pk' h' => ⟨disk, h'⟩
  cases hs with
  | requestWork _ _ _ hr =>
    exact tame (Download.tame_requestWork hr) (Download.uncounted_requestWork hr)
  | cancelRequests _ _ hr =>
    exact tame (Download.tame_cancelRequests hr) (Download.uncounted_cancelRequests hr)
  | reportHave _ _ _ hr =>
    exact tame (Download.tame_reportHave hr) (Download.uncounted_reportHave hr)
  | reportBitfield _ _ _ hr =>
    exact tame (Download.tame_reportBitfield hr) (Download.uncounted_reportBitfield hr)
  | peerConnected _ _ _ _ hr =>
    exact tame (Download.tame_peerConnected hr) (Download.uncounted_peerConnected hr)
  | peerDisconnected _ hr =>
    exact tame (Download.tame_peerDisconnected hr) (Download.uncounted_peerDisconnected hr)
  | claim _ _ _ hwire _ hr => exact (h.claim hwire hr).imp fun pk' h' => ⟨disk, h'⟩
  | write _ _ hin _ hr =>
    rw [List.append_nil]
    exact ⟨pk, h.write hin hr hok⟩
  | check _ _ hin _ hr =>
    rw [List.append_nil]
    exact ⟨pk, h.check hin hr hok⟩
  | finish _ _ _ hin hr => exact h.finish hin hr

/-- Every run keeps the books while the download has not failed. -/
theorem Books.run (h : Books d₀ bf₀ restored log s pk disk) (hr : Tally s m s')
    (hok : s'.download.lastErr = none) :
    ∃ pk' disk', Books d₀ bf₀ restored (log ++ m) s' pk' disk' := by
  induction hr with
  | refl => exact ⟨pk, disk, by rw [List.append_nil]; exact h⟩
  | @tail s₁ s₂ log₁ m₁ _ hs ih =>
    -- the download had not failed before the last step either
    have h₁ : s₁.download.lastErr = none := by
      cases he : s₁.download.lastErr with
      | none => rfl
      | some e =>
        have hs₂ := hs.step.lastErr_isSome (by simp [he])
        simp [hok] at hs₂
    obtain ⟨pk₁, disk₁, hb⟩ := ih h₁
    rw [← List.append_assoc]
    exact hb.step hs hok

end

/-- A started download opens its books with the bitfield and the received blocks it restored. -/
theorem books_start {d d₀ : Download σ} (hstop : d.status = .stopped)
    (hstart : d.start = .ok (none, d₀)) (hnone : d₀.lastErr = none)
    (hpos : ∀ i, i < d.info.numPieces → 0 < d.info.pieceLen i)
    (hsmall : d.info.numPieces.toNat + 7 < 2 ^ 32) :
    ∃ pk disk, Books d₀ pk.verified pk.receivedBytes [] ⟨d₀, []⟩ pk disk := by
  obtain ⟨pk, disk, h⟩ := agree_start hstop hstart hnone hpos hsmall
  exact ⟨pk, disk, h, rfl, fun _ hi => hi, by simp, by simp, by simp [Info.gainedBytes_self],
    by simp, fun _ hsub => absurd hsub List.not_mem_nil⟩

/-- **Every downloaded byte is accounted for.** Start a stopped download of a torrent whose
pieces have positive lengths, with the picker `pk₀` and the bitfield `bf₀` the start restores,
and run any interleaving of the sessions' operations with the steps of taking blocks, with the
receipts `log`. While the download has not failed, with the picker `pk` and the bitfield `bf`:

* the downloaded counter grew by the blocks that connected peers delivered;
* the wasted counter grew by the blocks the picker did not wait for from their senders, and by
  the whole length of every piece that failed its check;
* the pieces set since the start are the pieces that passed their check, with their lengths;
* when no claimed block waits to be written, the bytes downloaded and not wasted since the start,
  with the bytes of the blocks the start restored, are the bytes of the pieces set since the
  start and of the blocks received now. -/
theorem downloaded_bytes_balance {d d₀ : Download σ} {s : Pipeline σ} {log : List Receipt}
    (hpos : ∀ i, i < d.info.numPieces → 0 < d.info.pieceLen i)
    (hsmall : d.info.numPieces.toNat + 7 < 2 ^ 32) (hstop : d.status = .stopped)
    (hstart : d.start = .ok (none, d₀)) (hrun : Tally ⟨d₀, []⟩ log s)
    (hok : s.download.lastErr = none) :
    ∃ pk₀ bf₀ pk bf, d₀.picker = some pk₀ ∧ d₀.bitfield = some bf₀ ∧
      s.download.picker = some pk ∧ s.download.bitfield = some bf ∧
      s.download.downloaded = d₀.downloaded + (log.map Receipt.downloaded).sum ∧
      s.download.wasted = d₀.wasted + (log.map (Receipt.wasted d.info.pieceLen)).sum ∧
      d.info.gainedBytes bf₀ bf = (log.map (Receipt.passed d.info.pieceLen)).sum ∧
      ((∀ sub ∈ s.inFlight, sub.stage ≠ .claimed) →
        s.download.downloaded - d₀.downloaded - (s.download.wasted - d₀.wasted) +
          pk₀.receivedBytes = d.info.gainedBytes bf₀ bf + pk.receivedBytes) := by
  -- the download had not failed when it started either
  have h₀ : d₀.lastErr = none := by
    cases h0 : d₀.lastErr with
    | none => rfl
    | some e =>
      have hs := lastErr_isSome_of_run hrun.run (by simp [h0])
      simp [hok] at hs
  obtain ⟨-, -, -, -, -, -, -, hinfo, -, -⟩ := Download.start_restored hstop hstart h₀ hpos
  obtain ⟨pk₀, disk₀, hb₀⟩ := books_start hstop hstart h₀ hpos hsmall
  obtain ⟨pk, disk, hb⟩ := hb₀.run hrun hok
  rw [List.nil_append] at hb
  rw [← hinfo]
  refine ⟨pk₀, pk₀.verified, pk, pk.verified, hb₀.agree.picker_eq, hb₀.agree.bitfield_eq,
    hb.agree.picker_eq, hb.agree.bitfield_eq, hb.downloaded, hb.wasted, hb.gained, fun hnc => ?_⟩
  have hx := excess_of_unclaimed hnc
  have hbal := hb.balance
  rw [hb.downloaded, hb.wasted, hb.gained]
  omega

/-- A stopped download of a torrent of one piece of one byte, over a store whose file is empty. -/
def oneByte : Download MemStore :=
  { Download.shortFile with
    info := { Download.shortFile.info with
      pieceLength := 1
      length := 1
      totalLength := 1
      -- the SHA-1 digest of the byte 1
      pieces := [191, 139, 69, 48, 216, 210, 70, 221, 116, 172, 83, 161, 52, 113, 187, 161, 121,
        65, 223, 247] } }

/-- A byte delivered twice: the copy the picker waited for passes its check, the second copy is
wasted, and the byte downloaded and not wasted is the piece that passed. -/
theorem duplicate_block_balance : ∃ (d₀ : Download MemStore) (s : Pipeline MemStore),
    oneByte.start = .ok (none, d₀) ∧
      Tally ⟨d₀, []⟩ [.block 1 true, .verdict 0 true, .block 1 false] s ∧ s.inFlight = [] ∧
      s.download.downloaded = 2 ∧ s.download.wasted = 1 ∧
      ∃ pk₀ bf₀ pk bf, d₀.picker = some pk₀ ∧ d₀.bitfield = some bf₀ ∧
        s.download.picker = some pk ∧ s.download.bitfield = some bf ∧
        oneByte.info.gainedBytes bf₀ bf = 1 ∧ 1 + (pk₀.receivedBytes : ℤ) = 1 + pk.receivedBytes := by
  let req : Request := ⟨0, 0, 1⟩
  -- The run is evaluated once, by the kernel; taking it apart then names its states.
  have hrun : (oneByte.start.toOption.any fun r₀ =>
      r₀.1.isNone && r₀.2.downloaded == 0 && r₀.2.wasted == 0 &&
        (((r₀.2.peerConnected "a" [1] true).2.reportHave "a" 0).toOption.any fun r₂ =>
          (r₂.2.requestWork "a" 1).toOption.any fun r₃ =>
            r₃.2.claimReceipt "a" req [1] == [.block 1 true] &&
            (r₃.2.claimBlock "a" req [1]).toOption.any fun r₄ => r₄.1 &&
              (r₄.2.writeClaimed req [1]).toOption.any fun r₅ => r₅.1 &&
                (r₅.2.checkPiece 0).toOption.any fun r₆ => r₆.1 == some true &&
                  r₆.2.picker.isSome &&
                  (r₆.2.finishPiece 0 true).toOption.any fun d₇ =>
                    d₇.claimReceipt "a" req [1] == [.block 1 false] &&
                    (d₇.claimBlock "a" req [1]).toOption.any fun r₈ =>
                      !r₈.1 && r₈.2.lastErr.isNone && r₈.2.downloaded == 2 &&
                        r₈.2.wasted == 1)) = true := by
    decide +kernel
  obtain ⟨⟨o, d₀⟩, hstart, hrun⟩ := Except.toOption_any_eq_true.1 hrun
  simp only [Bool.and_eq_true, Option.isNone_iff_eq_none, beq_iff_eq] at hrun
  obtain ⟨⟨⟨rfl, hdl₀⟩, hw₀⟩, hrun⟩ := hrun
  obtain ⟨r₂, h₂, hrun⟩ := Except.toOption_any_eq_true.1 hrun
  obtain ⟨r₃, h₃, hrun⟩ := Except.toOption_any_eq_true.1 hrun
  simp only [Bool.and_eq_true, beq_iff_eq] at hrun
  obtain ⟨hrec₃, hrun⟩ := hrun
  obtain ⟨r₄, h₄, hrun⟩ := Except.toOption_any_eq_true.1 hrun
  simp only [Bool.and_eq_true] at hrun
  obtain ⟨hclaimed, hrun⟩ := hrun
  obtain ⟨r₅, h₅, hrun⟩ := Except.toOption_any_eq_true.1 hrun
  simp only [Bool.and_eq_true] at hrun
  obtain ⟨hcomplete, hrun⟩ := hrun
  obtain ⟨r₆, h₆, hrun⟩ := Except.toOption_any_eq_true.1 hrun
  simp only [Bool.and_eq_true, beq_iff_eq, Option.isSome_iff_exists] at hrun
  obtain ⟨⟨hgood, pk₆, hpk₆⟩, hrun⟩ := hrun
  obtain ⟨d₇, h₇, hrun⟩ := Except.toOption_any_eq_true.1 hrun
  simp only [Bool.and_eq_true, beq_iff_eq] at hrun
  obtain ⟨hrec₇, hrun⟩ := hrun
  obtain ⟨r₈, h₈, hrun⟩ := Except.toOption_any_eq_true.1 hrun
  simp only [Bool.and_eq_true, Bool.not_eq_true', Option.isNone_iff_eq_none, beq_iff_eq] at hrun
  obtain ⟨⟨⟨hdiscard, hok⟩, hdl⟩, hw⟩ := hrun
  -- the run, step by step
  have hr : Tally ⟨d₀, []⟩ _ _ :=
    (((((((((Tally.refl _).tail (.peerConnected "a" [1] true _ rfl)).tail
      (.reportHave "a" 0 r₂.1 h₂)).tail (.requestWork "a" 1 r₃.1 h₃)).tail
      (.claim "a" req [1] (by decide) r₄.1 h₄)).tail
      (.write req [1] (by simp [hclaimed]) r₅.1 h₅)).tail
      (.check req [1] (by simp [hclaimed, hcomplete]) r₆.1 h₆)).tail
      (.finish req [1] true (by simp [hclaimed, hcomplete, hgood]) h₇)).tail
      (.claim "a" req [1] (by decide) r₈.1 h₈))
  simp only [hrec₃, hrec₇, hpk₆, hclaimed, hcomplete, hgood, hdiscard, Option.toList_some,
    List.map_cons, List.map_nil, ↓reduceIte, Bool.false_eq_true, List.nil_append,
    List.cons_append, List.append_nil] at hr
  have hpos : ∀ i, i < oneByte.info.numPieces → 0 < oneByte.info.pieceLen i := by
    intro i hi
    have hi0 : i = 0 := by
      rw [UInt32.lt_iff_toNat_lt] at hi
      exact UInt32.toNat_inj.1 (by simp [oneByte, Download.shortFile, onePiece] at hi ⊢; omega)
    subst hi0
    decide
  obtain ⟨pk₀, bf₀, pk, bf, hpk₀, hbf₀, hpk, hbf, hdl', hw', hgain, hbal⟩ :=
    downloaded_bytes_balance hpos (by decide) rfl hstart hr hok
  have hpassed : oneByte.info.gainedBytes bf₀ bf = 1 := by
    rw [hgain]
    decide
  refine ⟨d₀, _, hstart, hr, rfl, hdl, hw, pk₀, bf₀, pk, bf, hpk₀, hbf₀, hpk, hbf, hpassed, ?_⟩
  have hb := hbal fun _ hsub => absurd hsub List.not_mem_nil
  rw [hpassed] at hb
  dsimp only at hb
  rw [hdl, hw, hdl₀, hw₀] at hb
  push_cast at hb ⊢
  linarith

end Pipeline

end Torrent

end BitTorrent
