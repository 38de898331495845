import BitTorrent.Proofs.Storage.Io
import BitTorrent.Proofs.Torrent.Start

/-!
# What a scan of a torrent's files finds

A disk opened over the files of a torrent scans them for the pieces already there: it reads the
pieces of the layout in order, checking its context before each one (`Disk.scanFrom`). A piece
of an accepted torrent reads as its sections one after another (`Disk.readPiece_of_layout`), so
its read either gives every section whole, or comes short at a first section: with the end of
the data, and the piece is passed over, or with another error (`Sections.FailsWith`), which
stops the scan.

* One step: a piece the scan gets past (`Disk.PassesAt`) has its bit set exactly when it is
  found, every section whole and its bytes hashing to its digest (`Disk.Found`), and is reported
  checked (`Disk.scanFrom_cons_of_passes`); a piece whose read fails stops the scan with a read
  error naming it (`Disk.scanFrom_cons_of_failsWith`).
* A run: over pieces the scan gets past, the bits of those found are set and each is reported
  checked, in order (`Disk.scanFrom_append`).

`Disk.scan_outcome` puts these together (`Disk.ScanOutcome`): when no file was there before,
nothing is read; otherwise, past the pieces it gets past, reported as 1, 2, …, the scan gives
the bitfield of the pieces found, or stops canceled, or stops with the read error of the next
piece.
-/

namespace BitTorrent

namespace Sections

variable {file : Nat → MemFile} {ss : List Section}

/-- Sections of positive length, cut from their start for their whole length, are themselves. -/
theorem cut_zero_sum : ∀ (ss : List Section), (∀ s ∈ ss, 0 < s.length.toInt) →
    ∀ len : Int64, len.toInt = (ss.map (·.length.toInt)).sum → cut ss 0 len = ss
  | [], _, _, _ => rfl
  | s :: rest, hpos, len, hlen => by
    have hs := hpos s List.mem_cons_self
    have hrest : ∀ t ∈ rest, 0 < t.length.toInt := fun t ht => hpos t (List.mem_cons_of_mem s ht)
    have hsum : 0 ≤ (rest.map (·.length.toInt)).sum :=
      List.sum_nonneg fun x hx => by
        obtain ⟨t, ht, rfl⟩ := List.mem_map.1 hx
        exact (hrest t ht).le
    rw [List.map_cons, List.sum_cons] at hlen
    rcases cut_cons_cases s rest len (le_of_eq Int64.toInt_zero.symm) hs.le with
      ⟨hz, -⟩ | ⟨-, hle, -⟩ | ⟨-, -, n, hn, hcut⟩
    · omega
    · rw [Int64.toInt_zero] at hle
      omega
    · -- the first section is taken whole, and the rest of the length covers the rest
      rw [Int64.toInt_zero, sub_zero, min_eq_right (by omega)] at hn
      have hns : n = s.length := Int64.toInt_inj.1 hn
      have hsub : (len - n).toInt = (rest.map (·.length.toInt)).sum := by
        rw [Int64.toInt_sub_of_nonneg (by omega) (by omega)]
        omega
      rw [hcut, cut_zero_sum rest hrest _ hsub, hns, Int64.add_zero]

/-- Reading sections `ss` fails with `e`: the first of them that its file returns short comes
back with `e`, an error other than the end of the data. -/
def FailsWith (file : Nat → MemFile) (ss : List Section) (e : IoError) : Prop :=
  ∃ pre s post, ss = pre ++ s :: post ∧ (∀ u ∈ pre, u.ReadsWhole file) ∧ ¬ s.ReadsWhole file ∧
    (s.read file).2 = some e ∧ e ≠ .eof ∧ e ≠ .unexpectedEof

theorem readAll_of_failsWith {e : IoError} (h : FailsWith file ss e) :
    (readAll file ss).2 = some e := by
  obtain ⟨pre, s, post, rfl, hpre, hs, herr, heof, hunexp⟩ := h
  rw [readAll_of_short hs hpre, herr]
  cases e <;> first | rfl | contradiction

/-- A read of sections that neither reads them all whole nor fails ends with an unexpected end
of the data. -/
theorem readAll_of_unfinished (hw : ¬ ∀ s ∈ ss, s.ReadsWhole file)
    (hf : ∀ e, ¬ FailsWith file ss e) : (readAll file ss).2 = some .unexpectedEof := by
  obtain ⟨pre, s, post, rfl, hpre, hs⟩ := exists_first_short hw
  rw [readAll_of_short hs hpre]
  rcases herr : (s.read file).2 with _ | e
  · rfl
  · by_cases heof : e = .eof
    · rw [heof]
      rfl
    by_cases hunexp : e = .unexpectedEof
    · rw [hunexp]
      rfl
    exact absurd ⟨pre, s, post, rfl, hpre, hs, herr, heof, hunexp⟩ (hf e)

end Sections

namespace Disk

variable {σ : Type} (fs : FileStore σ)

/-- Piece `p` is found on disk: every section of it reads whole, and its bytes hash to the
piece's digest. -/
def Found (d : Disk) (st : σ) (p : PieceLayout) : Prop :=
  (∀ s ∈ p.sections, s.ReadsWhole (d.file fs st)) ∧
    Sha1.ofList (p.sections.flatMap fun s => (s.read (d.file fs st)).1) = p.hash

instance (d : Disk) (st : σ) (p : PieceLayout) : Decidable (d.Found fs st p) :=
  inferInstanceAs (Decidable (_ ∧ _))

/-- Piece `p` reads as its sections one after another, and they are as long as it. -/
def ReadsAsSections (d : Disk) (st : σ) (p : PieceLayout) : Prop :=
  d.readPiece fs st p = Sections.readAll (d.file fs st) p.sections ∧
    (p.sections.map (·.length.toInt.toNat)).sum = p.length.toNat

/-- The scan gets past piece `p`, the one at position `k`: its context is not done there, and
reading the piece fails with no error other than the end of the data. -/
def PassesAt (d : Disk) (st : σ) (ctx : Context) (k : Nat) (p : PieceLayout) : Prop :=
  ctx.doneAt k = false ∧ ∀ e, ¬ Sections.FailsWith (d.file fs st) p.sections e

/-- The scan gets past every piece of the layout of `info` before position `k`. -/
def GetsPast (d : Disk) (info : Info) (st : σ) (ctx : Context) (k : Nat) : Prop :=
  ∀ j < k, ∀ p, (info.layout info.numPieces.toNat)[j]? = some p → d.PassesAt fs st ctx j p

/-- The counts a scan reports after each of its first `k` pieces: 1, 2, …, k. -/
def progressTo (k : Nat) : List UInt32 :=
  (List.range k).map fun i => (i + 1).toUInt32

/-- What a scan of a disk over the layout of `info` gives, for a context `ctx`. -/
structure ScanOutcome (d : Disk) (info : Info) (st : σ) (ctx : Context) : Prop where
  /-- With no file there before, the empty bitfield, and nothing checked. -/
  not_found : d.found = false → d.scan fs st ctx = (.ok (Bitfield.new info.numPieces), [])
  /-- Past every piece, the bitfield in which the bit of piece `i` is set exactly when every
  section of the piece reads whole and its bytes hash to piece `i`'s digest. -/
  complete : d.found = true → d.GetsPast fs info st ctx info.numPieces.toNat →
    ∃ bf, d.scan fs st ctx = (.ok bf, progressTo info.numPieces.toNat) ∧
      bf.length = info.numPieces ∧
      ∀ i, bf.getD i = true ↔ ∃ p, (info.layout info.numPieces.toNat)[i.toNat]? = some p ∧
        (∀ s ∈ p.sections, s.ReadsWhole (d.file fs st)) ∧
        Sha1.ofList (p.sections.flatMap fun s => (s.read (d.file fs st)).1) = info.pieceHash i
  /-- A context done before piece `k` stops the scan there, canceled. -/
  canceled : d.found = true → ∀ k p, d.GetsPast fs info st ctx k →
    (info.layout info.numPieces.toNat)[k]? = some p → ctx.doneAt k = true →
    d.scan fs st ctx = (.error .canceled, progressTo k)
  /-- A read of piece `k` that fails with an error other than the end of the data stops the
  scan there with that error, as a read error of piece `k`. -/
  failed : d.found = true → ∀ k p e, d.GetsPast fs info st ctx k →
    (info.layout info.numPieces.toNat)[k]? = some p → ctx.doneAt k = false →
    Sections.FailsWith (d.file fs st) p.sections e →
    d.scan fs st ctx = (.error (.disk ⟨.reading, k.toUInt32, e⟩), progressTo k)

variable {fs} {d : Disk} {st : σ} {ctx : Context}

/-- A piece of an accepted torrent's layout reads as its sections, one after another, and they
are as long as the piece. -/
theorem readPiece_of_layout {info : Info} (d : Disk) (ha : info.Accepted) {j : Nat}
    {p : PieceLayout} (hp : (info.layout info.numPieces.toNat)[j]? = some p) :
    d.ReadsAsSections fs st p := by
  have hmem := List.mem_of_getElem? hp
  have hpos : ∀ s ∈ p.sections, 0 < s.length.toInt := ha.layout_bytes.2.2 p hmem
  have hsum : (p.sections.map (·.length.toInt)).sum = p.length.toNat := by
    rw [ha.sum_sections hp, (info.getElem?_layout hp).2.1]
  have hsmall : p.length.toNat < 2 ^ 63 := by
    have := p.length.toNat_lt
    omega
  have hslice : Sections.slice p.sections 0 (Int64.ofNat p.length.toNat) =
      .ok (Sections.cut p.sections 0 (Int64.ofNat p.length.toNat)) :=
    Sections.slice_of_within (fun s hs => (hpos s hs).le) (by omega)
      (le_of_eq Int64.toInt_zero.symm) (by rw [Int64.toInt_zero, hsum, zero_add])
  refine ⟨?_, ?_⟩
  · rw [readPiece, Sections.readAt, hslice, Sections.cut_zero_sum _ hpos _
      (by rw [Int64.toInt_ofNat_of_lt hsmall, hsum])]
  · have := List.natCast_sum_map_toNat p.sections (·.length.toInt) fun s hs => (hpos s hs).le
    omega

theorem hashMatches_of_whole {p : PieceLayout} (hp : d.ReadsAsSections fs st p)
    (hw : ∀ s ∈ p.sections, s.ReadsWhole (d.file fs st)) :
    Piece.hashMatches p.length p.hash (p.sections.flatMap fun s => (s.read (d.file fs st)).1) =
      decide (d.Found fs st p) := by
  have hlen : (p.sections.flatMap fun s => (s.read (d.file fs st)).1).length = p.length.toNat := by
    rw [List.length_flatMap, ← hp.2]
    congr 1
    exact List.map_congr_left hw
  have hfound : d.Found fs st p ↔
      Sha1.ofList (p.sections.flatMap fun s => (s.read (d.file fs st)).1) = p.hash :=
    and_iff_right hw
  rw [Piece.hashMatches, hlen, beq_self_eq_true, Bool.true_and, Bool.eq_iff_iff, beq_iff_eq,
    decide_eq_true_iff, hfound]

/-- One piece the scan gets past: its bit is set when it is found, and it is reported checked. -/
theorem scanFrom_cons_of_passes {bf : Bitfield} {k : Nat} {p : PieceLayout}
    (ps : List PieceLayout) (hp : d.ReadsAsSections fs st p) (hpass : d.PassesAt fs st ctx k p) :
    d.scanFrom fs st ctx bf k (p :: ps) =
      ((d.scanFrom fs st ctx (if d.Found fs st p then bf.insert p.index else bf) (k + 1) ps).1,
        (p.index + 1) ::
          (d.scanFrom fs st ctx (if d.Found fs st p then bf.insert p.index else bf) (k + 1)
            ps).2) := by
  rw [scanFrom, if_neg (by simp [hpass.1]), hp.1]
  by_cases hw : ∀ s ∈ p.sections, s.ReadsWhole (d.file fs st)
  · rw [Sections.readAll_of_whole hw]
    simp only [hashMatches_of_whole hp hw, decide_eq_true_eq]
  · -- a piece that comes short is passed over, its bit left as it was
    have herr := Sections.readAll_of_unfinished hw hpass.2
    rw [← Prod.mk.eta (p := Sections.readAll _ _), herr, if_neg fun h => hw h.1]

/-- A piece whose read fails stops the scan with a disk error naming the piece. -/
theorem scanFrom_cons_of_failsWith {bf : Bitfield} {k : Nat} {p : PieceLayout} {e : IoError}
    (ps : List PieceLayout) (hp : d.ReadsAsSections fs st p) (hdone : ctx.doneAt k = false)
    (hfail : Sections.FailsWith (d.file fs st) p.sections e) :
    d.scanFrom fs st ctx bf k (p :: ps) = (.error (.disk ⟨.reading, p.index, e⟩), []) := by
  have herr := Sections.readAll_of_failsWith hfail
  obtain ⟨-, -, -, -, -, -, -, heof, hunexp⟩ := hfail
  rw [scanFrom, if_neg (by simp [hdone]), hp.1, ← Prod.mk.eta (p := Sections.readAll _ _), herr]
  cases e <;> first | rfl | contradiction

theorem getD_found_insert {bf : Bitfield} {p : PieceLayout} (hidx : p.index < bf.length)
    (hsmall : bf.length.toNat + 7 < 2 ^ 32) (i : UInt32) :
    (if d.Found fs st p then bf.insert p.index else bf).getD i = true ↔
      bf.getD i = true ∨ (p.index = i ∧ d.Found fs st p) := by
  by_cases hf : d.Found fs st p
  · rw [if_pos hf]
    by_cases hi : p.index = i
    · subst hi
      simp [Bitfield.getD_insert_self hidx hsmall, hf]
    · rw [Bitfield.getD_insert_of_ne (Ne.symm hi)]
      simp [hi]
  · rw [if_neg hf]
    simp [hf]

/-- **A scan over pieces it gets past.** Over pieces that read as their sections and that the
scan gets past, each at its own position, the scan sets the bits of those found, reports each
checked, and goes on with the pieces after them. -/
theorem scanFrom_append (rest : List PieceLayout) :
    ∀ (pre : List PieceLayout) (bf : Bitfield) (k : Nat),
      (∀ p ∈ pre, d.ReadsAsSections fs st p ∧ p.index < bf.length) →
      (∀ j p, pre[j]? = some p → d.PassesAt fs st ctx (k + j) p) →
      bf.length.toNat + 7 < 2 ^ 32 →
      ∃ bf', bf'.length = bf.length ∧
        (∀ i, bf'.getD i = true ↔ bf.getD i = true ∨ ∃ p ∈ pre, p.index = i ∧ d.Found fs st p) ∧
        d.scanFrom fs st ctx bf k (pre ++ rest) =
          ((d.scanFrom fs st ctx bf' (k + pre.length) rest).1,
            pre.map (·.index + 1) ++ (d.scanFrom fs st ctx bf' (k + pre.length) rest).2)
  | [], bf, k, _, _, _ => ⟨bf, rfl, by simp, by simp⟩
  | p :: pre, bf, k, hlay, hpass, hsmall => by
    obtain ⟨hp, hidx⟩ := hlay p List.mem_cons_self
    obtain ⟨bf₁, hbf₁⟩ : ∃ bf₁, bf₁ = if d.Found fs st p then bf.insert p.index else bf :=
      ⟨_, rfl⟩
    have hlen₁ : bf₁.length = bf.length := by
      rw [hbf₁]
      split
      · exact Bitfield.length_insert bf p.index
      · rfl
    -- the rest of the pieces, from the bitfield after the first
    obtain ⟨bf', hlen', hbits', hrun⟩ := scanFrom_append rest pre bf₁ (k + 1)
      (fun q hq => hlen₁ ▸ hlay q (List.mem_cons_of_mem p hq))
      (fun j q hq => by simpa [Nat.add_assoc, Nat.add_comm 1 j] using hpass (j + 1) q hq)
      (hlen₁ ▸ hsmall)
    refine ⟨bf', hlen'.trans hlen₁, fun i => ?_, ?_⟩
    · rw [hbits', hbf₁, getD_found_insert hidx hsmall]
      simp only [List.mem_cons, exists_eq_or_imp]
      tauto
    · rw [List.cons_append, scanFrom_cons_of_passes _ hp (by simpa using hpass 0 p rfl), ← hbf₁,
        hrun, List.length_cons, List.map_cons, List.cons_append, Nat.add_assoc, Nat.add_comm 1]

/-- The pieces of a torrent's layout are reported checked as 1, 2, … in order. -/
theorem map_index_take_layout {info : Info} (ha : info.Accepted) {k : Nat}
    (hk : k ≤ info.numPieces.toNat) :
    ((info.layout info.numPieces.toNat).take k).map (·.index + 1) = progressTo k := by
  apply List.ext_getElem
  · simp [progressTo, Info.length_layout, hk]
  · intro j h₁ h₂
    have hj : j < k := by simpa [progressTo] using h₂
    have hj' : j < (info.layout info.numPieces.toNat).length := by
      rw [Info.length_layout]
      omega
    have hidx := (info.getElem?_layout (List.getElem?_eq_getElem hj')).1
    have hfew := ha.few
    simp only [progressTo, List.getElem_map, List.getElem_take, List.getElem_range]
    apply UInt32.toNat_inj.1
    rw [UInt32.toNat_add, hidx, UInt32.toNat_one, Nat.mod_eq_of_lt (by omega), Nat.toUInt32,
      UInt32.toNat_ofNat_of_lt' (by rw [UInt32.size]; omega)]

/-- The pieces of the layout at index `i` that are found are the piece at position `i`, when
every section of it reads whole and its bytes hash to the digest of piece `i`. -/
theorem found_layout_iff {info : Info} {n : Nat} {i : UInt32} :
    (∃ p ∈ info.layout n, p.index = i ∧ d.Found fs st p) ↔
      ∃ p, (info.layout n)[i.toNat]? = some p ∧
        (∀ s ∈ p.sections, s.ReadsWhole (d.file fs st)) ∧
        Sha1.ofList (p.sections.flatMap fun s => (s.read (d.file fs st)).1) = info.pieceHash i := by
  constructor
  · rintro ⟨p, hp, rfl, hw, hsha⟩
    obtain ⟨j, hj⟩ := List.mem_iff_getElem?.1 hp
    obtain ⟨hidx, -, hhash⟩ := info.getElem?_layout hj
    exact ⟨p, hidx ▸ hj, hw, hsha.trans hhash⟩
  · rintro ⟨p, hp, hw, hsha⟩
    obtain ⟨hidx, -, hhash⟩ := info.getElem?_layout hp
    have hi : p.index = i := UInt32.toNat_inj.1 hidx
    exact ⟨p, List.mem_of_getElem? hp, hi, hw, hsha.trans (hi ▸ hhash.symm)⟩

theorem scan_of_create {info : Info} {c : Int} {st₀ st₁ : σ}
    (hd : Disk.create fs info c st₀ = (.ok d, st₁)) :
    d.scan fs st ctx =
      if d.found then
        d.scanFrom fs st ctx (Bitfield.new info.numPieces) 0 (info.layout info.numPieces.toNat)
      else (.ok (Bitfield.new info.numPieces), []) := by
  obtain ⟨hpieces, -⟩ := create_eq_ok hd
  have hbf : d.pieces.size.toUInt32 = info.numPieces := by
    rw [size_of_layout hpieces]
    exact UInt32.ofNat_toNat
  rw [scan, hbf, hpieces]
  cases d.found
  · rfl
  · by_cases hn : info.layout info.numPieces.toNat = []
    · simp [hn, scanFrom]
    · simp [hn]

/-- A scan of a disk opened over the files of an accepted torrent, one of them there before,
that gets past the pieces before position `k` has reported them checked and set the bits of
those found, and goes on from piece `k`. -/
theorem scan_prefix {info : Info} (ha : info.Accepted) {c : Int} {st₀ st₁ : σ}
    (hd : Disk.create fs info c st₀ = (.ok d, st₁)) (hf : d.found = true) {k : Nat}
    (hk : k ≤ info.numPieces.toNat) (hpass : d.GetsPast fs info st ctx k) :
    ∃ bf, bf.length = info.numPieces ∧
      (∀ i, bf.getD i = true ↔
        ∃ p ∈ (info.layout info.numPieces.toNat).take k, p.index = i ∧ d.Found fs st p) ∧
      d.scan fs st ctx =
        ((d.scanFrom fs st ctx bf k ((info.layout info.numPieces.toNat).drop k)).1,
          progressTo k ++
            (d.scanFrom fs st ctx bf k ((info.layout info.numPieces.toNat).drop k)).2) := by
  set l := info.layout info.numPieces.toNat
  have hlen : l.length = info.numPieces.toNat := info.length_layout
  have hfew := ha.few
  obtain ⟨bf, hbflen, hbits, hrun⟩ := scanFrom_append (d := d) (l.drop k) (l.take k)
    (Bitfield.new info.numPieces) 0
    (fun p hp => by
      obtain ⟨j, hj⟩ := List.mem_iff_getElem?.1 (List.mem_of_mem_take hp)
      obtain ⟨hidx, -, -⟩ := info.getElem?_layout hj
      have hj' : j < l.length := (List.getElem?_eq_some_iff.1 hj).1
      refine ⟨(readPiece_of_layout d ha hj : d.ReadsAsSections fs st p), ?_⟩
      rw [UInt32.lt_iff_toNat_lt, hidx]
      exact hlen ▸ hj')
    (fun j p hp => by
      rw [List.getElem?_take] at hp
      split at hp
      · rw [zero_add]
        exact hpass j ‹_› p hp
      · cases hp)
    (by show info.numPieces.toNat + 7 < 2 ^ 32; omega)
  have hk' : (l.take k).length = k := by
    rw [List.length_take, hlen]
    exact Nat.min_eq_left hk
  refine ⟨bf, hbflen, fun i => by rw [hbits, getD_new, Bool.false_eq_true, false_or], ?_⟩
  calc d.scan fs st ctx
      _ = d.scanFrom fs st ctx (Bitfield.new info.numPieces) 0 (l.take k ++ l.drop k) := by
        rw [scan_of_create hd, if_pos hf, List.take_append_drop]
      _ = _ := by rw [hrun, zero_add, hk', map_index_take_layout ha hk]

/-- **What a scan of a torrent's files finds.** A disk opened over the files of an accepted
torrent scans them, in any store and for any context, as `ScanOutcome` says: the empty
bitfield when no file was there before; otherwise, as long as it gets past the pieces before
position `k`, it has reported them checked as 1, 2, …, k, and it gives the bitfield of the
pieces found intact, stops canceled, or stops with the read error of piece `k`. -/
theorem scan_outcome {info : Info} (ha : info.Accepted) {c : Int} {st₀ st₁ : σ}
    (hd : Disk.create fs info c st₀ = (.ok d, st₁)) (st : σ) (ctx : Context) :
    d.ScanOutcome fs info st ctx where
  not_found hf := by
    rw [scan_of_create hd, hf]
    rfl
  complete hf hpass := by
    obtain ⟨bf, hbflen, hbits, hsplit⟩ := scan_prefix ha hd hf le_rfl hpass
    have hlen := info.length_layout
    refine ⟨bf, ?_, hbflen, fun i => ?_⟩
    · rw [hsplit, List.drop_of_length_le hlen.le, scanFrom, List.append_nil]
    · rw [hbits, List.take_of_length_le hlen.le, found_layout_iff]
  canceled hf k p hpass hp hdone := by
    obtain ⟨hkl, rfl⟩ := List.getElem?_eq_some_iff.1 hp
    obtain ⟨bf, -, -, hsplit⟩ :=
      scan_prefix ha hd hf (info.length_layout ▸ hkl.le) hpass
    rw [hsplit, List.drop_eq_getElem_cons hkl, scanFrom, if_pos hdone, List.append_nil]
  failed hf k p e hpass hp hdone hfail := by
    obtain ⟨hkl, hpk⟩ := List.getElem?_eq_some_iff.1 hp
    obtain ⟨bf, -, -, hsplit⟩ :=
      scan_prefix ha hd hf (info.length_layout ▸ hkl.le) hpass
    obtain ⟨hidx, -, -⟩ := info.getElem?_layout hp
    have hindex : p.index = k.toUInt32 := by
      rw [← hidx]
      exact UInt32.ofNat_toNat.symm
    rw [hsplit, List.drop_eq_getElem_cons hkl, hpk,
      scanFrom_cons_of_failsWith _ (readPiece_of_layout d ha hp) hdone hfail, hindex,
      List.append_nil]

/-- A torrent of one six-byte file in two pieces of four bytes. -/
def sixByteFile : Info :=
  { pieceLength := 4, pieces := List.replicate 40 0, privacy := [], name := [97], length := 6,
    files := [], totalLength := 6, numPieces := 2, hash := [], bytes := [] }

/-- A store holding the first five bytes of that file. -/
def fiveBytesStored : MemStore :=
  { files := [([97], { data := [1, 2, 3, 4, 5] })] }

theorem sixByteFile_accepted : sixByteFile.Accepted :=
  ⟨by decide, by decide, by decide, by decide, by decide, by decide, by decide⟩

theorem scan_of_six_byte_file : sixByteFile.Accepted ∧
    ∃ d st, Disk.create MemStore.fileStore sixByteFile 0 fiveBytesStored = (.ok d, st) ∧
      d.ScanOutcome MemStore.fileStore sixByteFile st ⟨some 1⟩ := by
  obtain ⟨d, st, hd⟩ : ∃ d st,
      Disk.create MemStore.fileStore sixByteFile 0 fiveBytesStored = (.ok d, st) :=
    ⟨_, _, rfl⟩
  exact ⟨sixByteFile_accepted, d, st, hd, scan_outcome sixByteFile_accepted hd st ⟨some 1⟩⟩

-- The context is done before the second piece: the first is checked, then the scan stops.
example : (Disk.create MemStore.fileStore sixByteFile 0 fiveBytesStored).1.toOption.map
    (fun d =>
      let r := d.scan MemStore.fileStore fiveBytesStored ⟨some 1⟩
      (r.1 matches .error .canceled, r.2)) =
    some (true, [1]) := by
  decide

end Disk

end BitTorrent