import BitTorrent.Proofs.Storage.PieceCache
import BitTorrent.Proofs.Disk.Scan

/-!
# Cached and uncached block reads

A disk reads a block of a piece either through its cache, which loads the whole piece and cuts
the block out of it, or, with no cache, from the slice of the piece's sections where the block
lies. A range of sections that read whole reads as that range of their bytes
(`Sections.readAll_cut_of_whole`), so the two agree whenever the piece loads whole
(`Disk.readBlock_cached`, `Disk.readBlock_uncached`).

Over reads one after another (`Disk.readBlocks`), the cache stays faithful: every piece it holds
is what loading it gives, so each read through it gives what loading its piece gives, and a
failed load is never kept. The pieces it holds are the distinct pieces served most recently,
cut to its capacity, and it counts a hit for each read of a piece among them
(`Disk.readBlocks_cached`, from the steps of `PieceCache`). `Disk.cached_reads` states it all
for a disk just opened over an accepted torrent (`Disk.CachedReads`).
-/

namespace BitTorrent

namespace Section

variable {file : Nat → MemFile}

theorem Within.readsWhole {t s : Section} (h : t.Within s) (hs : s.Sane) (hw : s.ReadsWhole file) :
    t.ReadsWhole file := by
  obtain ⟨hfile, ht0, hstart, hend⟩ := h
  rcases ht0.lt_or_eq with htpos | ht0
  · obtain ⟨hfail, hlen, -⟩ := read_of_readsWhole hw (by omega)
    have hs0 := hs.1
    unfold ReadsWhole read MemFile.readAt
    rw [hfile, if_neg (by simp [hfail]), if_neg (by omega)]
    simp only [List.length_take, List.length_drop]
    omega
  · exact Nat.le_antisymm (length_read_le t) (by omega)

end Section

namespace Sections

variable {file : Nat → MemFile}

/-- **A range of sections that read whole reads as that range of their bytes.** -/
theorem readAll_cut_of_whole {ss : List Section} (hsane : ∀ s ∈ ss, s.Sane)
    (hw : ∀ s ∈ ss, s.ReadsWhole file) {off len : Int64} (hoff : 0 ≤ off.toInt)
    (hlen : 0 ≤ len.toInt) :
    readAll file (cut ss off len) =
      (((readAll file ss).1.drop off.toInt.toNat).take len.toInt.toNat, none) := by
  -- every part of the range lies within a section, so it reads whole too
  have hparts : ∀ t ∈ cut ss off len, t.Sane ∧ t.ReadsWhole file := fun t ht => by
    obtain ⟨s, hs, hts⟩ := cut_within ss hsane off len hoff hlen t ht
    exact ⟨hts.sane (hsane s hs), hts.readsWhole (hsane s hs) (hw s hs)⟩
  rw [readAll_of_whole fun t ht => (hparts t ht).2, readAll_of_whole hw]
  congr 1
  apply List.map_injective_iff.2 (Option.some_injective UInt8)
  calc ((cut ss off len).flatMap fun t => (t.read file).1).map some
      _ = ((cut ss off len).flatMap Section.units).map (Section.byteIn file) :=
        map_some_flatMap_read (fun t ht => (hparts t ht).1) fun t ht => (hparts t ht).2
      _ = ((((ss.flatMap Section.units).map (Section.byteIn file)).drop off.toInt.toNat).take
            len.toInt.toNat) := by
        rw [units_cut ss (fun s hs => (hsane s hs).2.1) off len hoff hlen, List.map_take,
          List.map_drop]
      _ = (((ss.flatMap fun s => (s.read file).1).drop off.toInt.toNat).take
            len.toInt.toNat).map some := by
        rw [← map_some_flatMap_read hsane hw, List.map_take, List.map_drop]

end Sections

namespace Info

theorem Accepted.sane_of_layout {info : Info} (ha : info.Accepted) {j : Nat} {p : PieceLayout}
    (hp : (info.layout info.numPieces.toNat)[j]? = some p) : ∀ s ∈ p.sections, s.Sane := by
  -- the layout has a piece, so the torrent has one
  have hn : 0 < info.numPieces.toNat := by
    have := (List.getElem?_eq_some_iff.1 hp).1
    rw [info.length_layout] at this
    omega
  exact fun s hs =>
    ((info.layout_sections (ha.getFiles_nonneg hn) _).1 p (List.mem_of_getElem? hp) s hs).1

end Info

namespace Disk

/-- A read of `length` bytes at offset `begin` of piece `index`. -/
structure BlockRead where
  index : UInt32
  begin : UInt32
  length : Nat
  deriving DecidableEq, Repr

/-- The outcome of reading a block from the outcome of loading its whole piece: the block's
bytes of the piece, or the load's error as a read error of the piece. -/
def BlockRead.ofLoad (r : BlockRead) : Except IoError (List UInt8) → Except Failure (List UInt8)
  | .ok data => .ok ((data.drop r.begin.toNat).take r.length)
  | .error e => .error (.disk ⟨.reading, r.index, e⟩)

/-- The outcome of reading a block from the read of its slice of the piece's sections: the
bytes read, or the error as a read error of the piece. -/
def BlockRead.ofRead (r : BlockRead) : List UInt8 × Option IoError → Except Failure (List UInt8)
  | (_, some e) => .error (.disk ⟨.reading, r.index, e⟩)
  | (data, none) => .ok data

/-- The read lies within its piece of the torrent: the piece exists, and the block ends within
it. -/
def BlockRead.InPiece (info : Info) (r : BlockRead) : Prop :=
  r.index < info.numPieces ∧ r.begin.toNat + r.length ≤ (info.pieceLen r.index).toNat

instance (info : Info) (r : BlockRead) : Decidable (r.InPiece info) :=
  inferInstanceAs (Decidable (_ ∧ _))

variable {σ : Type} (fs : FileStore σ)

/-- The read lies within a piece of the disk. -/
def fits (d : Disk) (r : BlockRead) : Bool :=
  match d.pieces[r.index.toNat]? with
  | some p => r.begin.toNat + r.length ≤ p.length.toNat
  | none => false

/-- Loading piece `i` whole, as a read through the cache does: its bytes, or the error reading
it. -/
def loadPiece (d : Disk) (st : σ) (i : UInt32) : Except IoError (List UInt8) :=
  match d.pieces[i.toNat]? with
  | some p => d.loadWhole fs st p
  | none => .error .outOfRange

/-- Reads blocks one after another from a disk over one store, each read from the disk the one
before left: the outcomes, and the disk after. -/
def readBlocks (d : Disk) (st : σ) : List BlockRead → List (Except Failure (List UInt8)) × Disk
  | [] => ([], d)
  | r :: rs =>
    let (x, d) := d.readBlock fs st r.index r.begin r.length
    let (xs, d) := readBlocks d st rs
    (x :: xs, d)

/-- What a read of a block gives from a disk whose cache gives what loading gives: an invalid
block outside every piece, and otherwise what loading its piece gives, cut to the block. -/
def blockOutcome (d : Disk) (st : σ) (r : BlockRead) : Except Failure (List UInt8) :=
  if d.fits r then r.ofLoad (d.loadPiece fs st r.index) else .error .invalidBlock

/-- The pieces of the reads `rs` that gave data, by their outcomes `xs`, the most recent
first. -/
def served : List BlockRead → List (Except Failure (List UInt8)) → List UInt32
  | r :: rs, x :: xs => served rs xs ++ if x.toBool then [r.index] else []
  | _, _ => []

/-- The number of reads among `rs` within their piece (by `inPiece`) whose piece is among the
`n` distinct pieces served most recently before them, `h` being the pieces served before `rs`,
the most recent first, and `xs` the outcomes of `rs`. -/
def lruHits (inPiece : BlockRead → Bool) (n : Nat) :
    List UInt32 → List BlockRead → List (Except Failure (List UInt8)) → Nat
  | h, r :: rs, x :: xs =>
    (if inPiece r && (h.eraseDups.take n).contains r.index then 1 else 0) +
      lruHits inPiece n ((if x.toBool then [r.index] else []) ++ h) rs xs
  | _, _, _ => 0

/-- What reading blocks `rs` one after another gives, in store `st`, from a disk over the layout
of `info` with a cache of `n` pieces. -/
structure CachedReads (d : Disk) (info : Info) (st : σ) (n : Nat) (rs : List BlockRead) :
    Prop where
  /-- A read is an invalid block exactly when it lies outside its piece; otherwise it gives
  what loading its whole piece gives, cut to the block. -/
  outcomes : (d.readBlocks fs st rs).1 = rs.map fun r =>
    if r.InPiece info then r.ofLoad (d.loadPiece fs st r.index) else .error .invalidBlock
  /-- When every piece read within loads whole, the reads give what they give without a
  cache. -/
  agree : (∀ r ∈ rs, r.InPiece info → (d.loadPiece fs st r.index).toBool = true) →
    (d.readBlocks fs st rs).1 = (({ d with cache := none } : Disk).readBlocks fs st rs).1
  /-- The disk keeps a cache. -/
  cached : ((d.readBlocks fs st rs).2.cache).isSome
  /-- The cache keeps its capacity, holds distinct pieces, at most `n` of them, and each is what
  loading it gives: no failed load is kept. -/
  bounded : ∀ c, (d.readBlocks fs st rs).2.cache = some c →
    c.capacity = n ∧ c.Bounded ∧ c.Faithful (d.loadPiece fs st)
  /-- The cache holds the `n` distinct pieces served most recently, the most recent first. -/
  recent : ∀ c, (d.readBlocks fs st rs).2.cache = some c →
    c.keys = (served rs (d.readBlocks fs st rs).1).eraseDups.take n
  /-- The hits are the reads within their piece of a piece among the `n` served most recently
  before them, and the hits and misses together the reads within their piece. -/
  counted : ∀ c, (d.readBlocks fs st rs).2.cache = some c →
    c.hits = lruHits (fun r => decide (r.InPiece info)) n [] rs (d.readBlocks fs st rs).1 ∧
    c.hits + c.misses = (rs.filter fun r => decide (r.InPiece info)).length
  /-- The utilization is the percentage of those reads that hit, rounded down. -/
  utilization : ∀ c, (d.readBlocks fs st rs).2.cache = some c →
    c.utilization =
      if (rs.filter fun r => decide (r.InPiece info)).length = 0 then 0
      else 100 * lruHits (fun r => decide (r.InPiece info)) n [] rs (d.readBlocks fs st rs).1 /
        (rs.filter fun r => decide (r.InPiece info)).length

variable {fs} {d : Disk} {st : σ}

theorem toBool_ofLoad (r : BlockRead) (x : Except IoError (List UInt8)) :
    (r.ofLoad x).toBool = x.toBool := by
  cases x <;> rfl

theorem fits_eq_true_iff {r : BlockRead} : d.fits r = true ↔
    ∃ p, d.pieces[r.index.toNat]? = some p ∧ r.begin.toNat + r.length ≤ p.length.toNat := by
  unfold fits
  cases d.pieces[r.index.toNat]? <;> simp

theorem readBlock_of_not_fits {r : BlockRead} (h : d.fits r = false) :
    d.readBlock fs st r.index r.begin r.length = (.error .invalidBlock, d) := by
  unfold readBlock
  unfold fits at h
  split
  · rfl
  · rename_i p hp
    rw [hp] at h
    rw [if_pos (by simpa using h)]

/-- A read through the cache of a block within a piece gives what the read of the piece through
the cache gives, cut to the block. -/
theorem readBlock_cached_eq {c : PieceCache} (hc : d.cache = some c) {r : BlockRead}
    (h : d.fits r = true) :
    d.readBlock fs st r.index r.begin r.length =
      (r.ofLoad (c.get r.index fun _ => d.loadPiece fs st r.index).1,
        { d with cache := some (c.get r.index fun _ => d.loadPiece fs st r.index).2.2 }) := by
  obtain ⟨p, hp, hle⟩ := fits_eq_true_iff.1 h
  have hload : d.loadPiece fs st r.index = d.loadWhole fs st p := by
    rw [loadPiece, hp]
  unfold readBlock
  rw [hp]
  dsimp only
  rw [if_neg (by omega), hc]
  dsimp only
  rw [← hload]
  rcases c.get r.index (fun _ => d.loadPiece fs st r.index) with ⟨x, b, c'⟩
  cases x <;> rfl

/-- **A read through a faithful cache** gives what loading its whole piece gives, cut to the
block, and leaves the cache as the read through it leaves it. -/
theorem readBlock_cached {c : PieceCache} (hc : d.cache = some c)
    (hf : c.Faithful (d.loadPiece fs st)) {r : BlockRead} (h : d.fits r = true) :
    d.readBlock fs st r.index r.begin r.length =
      (r.ofLoad (d.loadPiece fs st r.index),
        { d with cache := some (c.get r.index fun _ => d.loadPiece fs st r.index).2.2 }) := by
  rw [readBlock_cached_eq hc h, PieceCache.get_fst hf r.index]

theorem readPiece_of_loadPiece {i : UInt32} {p : PieceLayout} (hp : d.pieces[i.toNat]? = some p)
    {data : List UInt8} (hload : d.loadPiece fs st i = .ok data) :
    d.readPiece fs st p = (data, none) := by
  rw [loadPiece, hp] at hload
  unfold loadWhole at hload
  dsimp only at hload
  rcases hrp : d.readPiece fs st p with ⟨data', _ | e⟩
  · rw [hrp] at hload
    simp only [Except.ok.injEq] at hload
    rw [hload]
  · rw [hrp] at hload
    cases hload

/-- A read without a cache of a block within a piece of an accepted torrent's layout reads the
slice of the piece's sections where the block lies, and leaves the disk as it was. -/
theorem readBlock_uncached_eq {info : Info} (ha : info.Accepted)
    (hpieces : d.pieces = (info.layout info.numPieces.toNat).toArray) (hc : d.cache = none)
    {r : BlockRead} {p : PieceLayout} (hp : d.pieces[r.index.toNat]? = some p)
    (hle : r.begin.toNat + r.length ≤ p.length.toNat) :
    d.readBlock fs st r.index r.begin r.length =
      (r.ofRead (Sections.readAll (d.file fs st)
        (Sections.cut p.sections (Int64.ofNat r.begin.toNat) (Int64.ofNat r.length))), d) := by
  have hp' : (info.layout info.numPieces.toNat)[r.index.toNat]? = some p := by
    rwa [hpieces, List.getElem?_toArray] at hp
  -- the sections are as long as the piece, so the block lies within them
  have hsumInt : (p.sections.map (·.length.toInt)).sum = p.length.toNat := by
    rw [ha.sum_sections hp', (info.getElem?_layout hp').2.1]
  have hsmall : p.length.toNat < 2 ^ 32 := p.length.toNat_lt
  have hbegin : (Int64.ofNat r.begin.toNat).toInt = r.begin.toNat :=
    Int64.toInt_ofNat_of_lt (by omega)
  have hslice := Sections.slice_of_within (fun s hs => (ha.sane_of_layout hp' s hs).2.1)
    (by omega) (by omega : 0 ≤ (Int64.ofNat r.begin.toNat).toInt) (n := r.length) (by omega)
  unfold readBlock
  rw [hp]
  dsimp only
  rw [if_neg (by omega), hc]
  dsimp only
  rw [hslice]
  dsimp only
  rcases Sections.readAll (d.file fs st) _ with ⟨data, _ | e⟩ <;> rfl

/-- **A read without a cache** of a block within a piece of an accepted torrent's layout, the
piece reading whole, gives the block's bytes of the piece. -/
theorem readBlock_uncached {info : Info} (ha : info.Accepted)
    (hpieces : d.pieces = (info.layout info.numPieces.toNat).toArray) (hc : d.cache = none)
    {r : BlockRead} (h : d.fits r = true) {data : List UInt8}
    (hload : d.loadPiece fs st r.index = .ok data) :
    d.readBlock fs st r.index r.begin r.length = (r.ofLoad (.ok data), d) := by
  obtain ⟨p, hp, hle⟩ := fits_eq_true_iff.1 h
  have hp' : (info.layout info.numPieces.toNat)[r.index.toNat]? = some p := by
    rwa [hpieces, List.getElem?_toArray] at hp
  -- the piece reads whole: every section of it reads whole
  have hread := readPiece_of_loadPiece hp hload
  obtain ⟨hsec, -⟩ := readPiece_of_layout d ha hp'
  rw [hsec] at hread
  have hwhole := Sections.readAll_eq_none_iff.1 (congrArg Prod.snd hread)
  have hsane := ha.sane_of_layout hp'
  have hsmall : p.length.toNat < 2 ^ 32 := p.length.toNat_lt
  rw [readBlock_uncached_eq ha hpieces hc hp hle, Sections.readAll_cut_of_whole hsane hwhole
    (by rw [Int64.toInt_ofNat_of_lt (by omega)]; omega)
    (by rw [Int64.toInt_ofNat_of_lt (by omega)]; omega), hread,
    Int64.toInt_ofNat_of_lt (by omega), Int64.toInt_ofNat_of_lt (by omega)]
  rfl

/-- **Reads through a faithful cache**, one after another, from a cache holding the distinct
pieces of the history `h`, the most recent first, cut to its capacity: each read gives what
loading its piece gives; the cache stays faithful and bounded, and holds the distinct pieces
served since, then those of `h`, cut to its capacity; a read within its piece counts as a hit
exactly when its piece is held, and as a miss otherwise. -/
theorem readBlocks_cached (rs : List BlockRead) : ∀ (c : PieceCache) (h : List UInt32),
    c.Faithful (d.loadPiece fs st) → c.Bounded → c.keys = h.eraseDups.take c.capacity →
    ∃ c', ({ d with cache := some c } : Disk).readBlocks fs st rs =
        (rs.map (d.blockOutcome fs st), { d with cache := some c' }) ∧
      c'.capacity = c.capacity ∧ c'.Faithful (d.loadPiece fs st) ∧ c'.Bounded ∧
      c'.keys = (served rs (rs.map (d.blockOutcome fs st)) ++ h).eraseDups.take c.capacity ∧
      c'.hits = c.hits + lruHits d.fits c.capacity h rs (rs.map (d.blockOutcome fs st)) ∧
      c'.hits + c'.misses = c.hits + c.misses + (rs.filter d.fits).length := by
  induction rs with
  | nil =>
    intro c h hf hb hk
    exact ⟨c, rfl, rfl, hf, hb, by simpa [served] using hk, by simp [lruHits], by simp⟩
  | cons r rs ih =>
    intro c h hf hb hk
    by_cases hfit : d.fits r = true
    · -- the read goes through the cache
      obtain ⟨c₁, hc₁⟩ : ∃ c₁, c₁ = (c.get r.index fun _ => d.loadPiece fs st r.index).2.2 :=
        ⟨_, rfl⟩
      have hstep : ({ d with cache := some c } : Disk).readBlock fs st r.index r.begin r.length =
          (r.ofLoad (d.loadPiece fs st r.index), { d with cache := some c₁ }) := by
        rw [hc₁]
        exact readBlock_cached (d := { d with cache := some c }) rfl hf hfit
      have hcap₁ : c₁.capacity = c.capacity := hc₁ ▸ PieceCache.capacity_get _ _
      have hk₁ : c₁.keys = ((if (d.loadPiece fs st r.index).toBool then [r.index] else []) ++
          h).eraseDups.take c.capacity := by
        rw [hc₁]
        exact PieceCache.keys_get_of_history hf hk r.index
      obtain ⟨c', hrun, hcap', hf', hb', hk', hhits', hcount'⟩ :=
        ih c₁ _ (hc₁ ▸ PieceCache.faithful_get hf r.index)
          (hc₁ ▸ PieceCache.bounded_get hf hb r.index) (hcap₁ ▸ hk₁)
      have hout : d.blockOutcome fs st r = r.ofLoad (d.loadPiece fs st r.index) := if_pos hfit
      refine ⟨c', ?_, hcap'.trans hcap₁, hf', hb', ?_, ?_, ?_⟩
      · rw [readBlocks, hstep]
        dsimp only
        rw [hrun, List.map_cons, hout]
      · rw [hk', hcap₁, List.map_cons, served, List.append_assoc, hout, toBool_ofLoad]
      · rw [hhits', hcap₁, hc₁, PieceCache.hits_get, List.map_cons, lruHits, hout, toBool_ofLoad,
          hk, hfit, Bool.true_and]
        simp only [List.contains_iff_mem]
        omega
      · rw [hcount', hc₁, PieceCache.hits_get, PieceCache.misses_get, List.filter_cons_of_pos hfit,
          List.length_cons]
        split <;> omega
    · -- the read is an invalid block, and the disk stays as it was
      have hstep : ({ d with cache := some c } : Disk).readBlock fs st r.index r.begin r.length =
          (.error .invalidBlock, { d with cache := some c }) :=
        readBlock_of_not_fits (Bool.eq_false_iff.2 hfit)
      obtain ⟨c', hrun, hcap', hf', hb', hk', hhits', hcount'⟩ := ih c h hf hb hk
      have hout : d.blockOutcome fs st r = .error .invalidBlock := if_neg hfit
      refine ⟨c', ?_, hcap', hf', hb', ?_, ?_, ?_⟩
      · rw [readBlocks, hstep]
        dsimp only
        rw [hrun, List.map_cons, hout]
      · rw [hk', List.map_cons, served, hout]
        simp only [Except.toBool, Bool.false_eq_true, if_false, List.append_nil]
      · rw [hhits', List.map_cons, lruHits, hout, Bool.eq_false_iff.2 hfit, Bool.false_and]
        simp only [Except.toBool, Bool.false_eq_true, if_false, List.nil_append, Nat.zero_add]
      · rw [hcount', List.filter_cons_of_neg hfit]

/-- **Reads without a cache** from a disk over an accepted torrent's layout, every piece read
within loading whole, give what reads through a faithful cache give, and leave the disk as it
was. -/
theorem readBlocks_uncached {info : Info} (ha : info.Accepted)
    (hpieces : d.pieces = (info.layout info.numPieces.toNat).toArray) (hc : d.cache = none) :
    ∀ rs : List BlockRead, (∀ r ∈ rs, d.fits r = true → (d.loadPiece fs st r.index).toBool = true) →
      d.readBlocks fs st rs = (rs.map (d.blockOutcome fs st), d)
  | [], _ => rfl
  | r :: rs, hload => by
    have hrest := readBlocks_uncached ha hpieces hc rs fun r' hr' =>
      hload r' (List.mem_cons_of_mem r hr')
    have hstep : d.readBlock fs st r.index r.begin r.length = (d.blockOutcome fs st r, d) := by
      by_cases hfit : d.fits r = true
      · obtain ⟨data, hdata⟩ : ∃ data, d.loadPiece fs st r.index = .ok data := by
          have hok := hload r List.mem_cons_self hfit
          cases h : d.loadPiece fs st r.index with
          | ok data => exact ⟨data, rfl⟩
          | error e =>
            rw [h] at hok
            cases hok
        rw [readBlock_uncached ha hpieces hc hfit hdata, blockOutcome, if_pos hfit, hdata]
      · rw [readBlock_of_not_fits (Bool.eq_false_iff.2 hfit), blockOutcome, if_neg hfit]
    rw [readBlocks, hstep]
    dsimp only
    rw [hrest, List.map_cons]

theorem fits_of_layout {info : Info}
    (hpieces : d.pieces = (info.layout info.numPieces.toNat).toArray) (r : BlockRead) :
    d.fits r = decide (r.InPiece info) := by
  unfold fits
  rw [hpieces, List.getElem?_toArray]
  have hlen := info.length_layout
  cases hp : (info.layout info.numPieces.toNat)[r.index.toNat]? with
  | none =>
    have hge : info.numPieces.toNat ≤ r.index.toNat := by
      rw [← hlen]
      exact List.getElem?_eq_none_iff.1 hp
    rw [eq_comm, decide_eq_false_iff_not]
    rintro ⟨hlt, -⟩
    rw [UInt32.lt_iff_toNat_lt] at hlt
    omega
  | some p =>
    obtain ⟨hidx, hplen, -⟩ := info.getElem?_layout hp
    have hlt : r.index < info.numPieces := by
      rw [UInt32.lt_iff_toNat_lt, ← hlen]
      exact (List.getElem?_eq_some_iff.1 hp).1
    have hi : p.index = r.index := UInt32.toNat_inj.1 hidx
    dsimp only
    rw [decide_eq_decide, hplen, hi]
    exact ⟨fun h => ⟨hlt, h⟩, fun h => h.2⟩

theorem cache_of_create {info : Info} {c : Int} {st₀ st₁ : σ}
    (hd : Disk.create fs info c st₀ = (.ok d, st₁)) (hc : 0 < c) :
    d.cache = some { capacity := c.toNat } := by
  unfold create at hd
  split at hd
  · cases hd
  · simp only [Prod.mk.injEq, Except.ok.injEq] at hd
    rw [← hd.1]
    exact if_pos hc

/-- **Cached and uncached block reads agree.** From a disk just opened over the files of an
accepted torrent with a cache of `n > 0` pieces, reading blocks one after another in any store
gives what `CachedReads` says: invalid blocks exactly outside their pieces, otherwise the
block's bytes of the whole piece loaded, and the same outcomes as without the cache whenever the
pieces read load whole; the cache holds at most `n` distinct pieces, never a failed load, the
`n` served most recently, and counts a hit for each read of a piece among them. -/
theorem cached_reads {info : Info} (ha : info.Accepted) {c : Int} {st₀ st₁ : σ}
    (hd : Disk.create fs info c st₀ = (.ok d, st₁)) (hc : 0 < c) (st : σ)
    (rs : List BlockRead) : d.CachedReads fs info st c.toNat rs := by
  obtain ⟨hpieces, -⟩ := create_eq_ok hd
  have hcache := cache_of_create hd hc
  have hfits : d.fits = fun r => decide (r.InPiece info) := funext (fits_of_layout hpieces)
  have hd' : d = { d with cache := some { capacity := c.toNat } } := by
    rw [← hcache]
  -- the empty cache is faithful, bounded, and holds the pieces of the empty history
  have hf₀ : PieceCache.Faithful (d.loadPiece fs st) { capacity := c.toNat } := fun _ he => by
    cases he
  obtain ⟨c', hrun, hcap, hf, hb, hk, hhits, hcount⟩ :=
    readBlocks_cached rs { capacity := c.toNat } [] hf₀ ⟨List.nodup_nil, Nat.zero_le _⟩
      (by simp [PieceCache.keys])
  rw [← hd'] at hrun
  have hout : rs.map (d.blockOutcome fs st) = rs.map fun r =>
      if r.InPiece info then r.ofLoad (d.loadPiece fs st r.index) else .error .invalidBlock := by
    refine List.map_congr_left fun r _ => ?_
    rw [blockOutcome, fits_of_layout hpieces r]
    simp only [decide_eq_true_eq]
  rw [hfits] at hhits hcount
  simp only [List.append_nil] at hk
  simp only [Nat.zero_add] at hhits hcount
  -- the cache after the reads is the one the run gives
  have hlast : ∀ c₁, (d.readBlocks fs st rs).2.cache = some c₁ → c₁ = c' := fun c₁ hc₁ => by
    rw [hrun, Option.some.injEq] at hc₁
    exact hc₁.symm
  refine ⟨?_, fun hload => ?_, ?_, ?_, ?_, ?_, ?_⟩
  · rw [hrun, hout]
  · have hu := readBlocks_uncached (d := { d with cache := none }) ha hpieces rfl rs
      fun r hr hfit => by
        rw [fits_of_layout (d := { d with cache := none }) hpieces r] at hfit
        exact hload r hr (of_decide_eq_true hfit)
    rw [hrun, hu]
    rfl
  · rw [hrun]
    rfl
  · intro c₁ hc₁
    obtain rfl := hlast c₁ hc₁
    exact ⟨hcap, hb, hf⟩
  · intro c₁ hc₁
    obtain rfl := hlast c₁ hc₁
    rw [hk, hrun]
  · intro c₁ hc₁
    obtain rfl := hlast c₁ hc₁
    rw [hrun]
    exact ⟨hhits, hcount⟩
  · intro c₁ hc₁
    obtain rfl := hlast c₁ hc₁
    rw [PieceCache.utilization, hcount, hhits, hrun]

/-- Four reads of the six-byte file: two bytes of the first piece, two of the second, two more of
the first, and one of a piece past the last. -/
def fourReads : List BlockRead :=
  [⟨0, 0, 2⟩, ⟨1, 0, 2⟩, ⟨0, 2, 2⟩, ⟨2, 0, 1⟩]

theorem cached_reads_of_six_byte_file : sixByteFile.Accepted ∧
    ∃ d st, Disk.create MemStore.fileStore sixByteFile 1 fiveBytesStored = (.ok d, st) ∧
      d.CachedReads MemStore.fileStore sixByteFile fiveBytesStored 1 fourReads := by
  obtain ⟨d, st, hd⟩ : ∃ d st,
      Disk.create MemStore.fileStore sixByteFile 1 fiveBytesStored = (.ok d, st) :=
    ⟨_, _, rfl⟩
  exact ⟨sixByteFile_accepted, d, st, hd,
    cached_reads sixByteFile_accepted hd (by decide) fiveBytesStored fourReads⟩

-- The second piece is cut short in the store, so its load fails and is not kept: the third
-- read finds the first piece still cached.
example : (Disk.create MemStore.fileStore sixByteFile 1 fiveBytesStored).1.toOption.map
    (fun d => ((d.readBlocks MemStore.fileStore fiveBytesStored fourReads).1.map (·.toOption),
      ((d.readBlocks MemStore.fileStore fiveBytesStored fourReads).2.cache.map fun c =>
        (c.hits, c.misses)))) =
    some ([some [1, 2], none, some [3, 4], none], some (1, 2)) := by
  decide

end Disk

end BitTorrent
