import BitTorrent.Proofs.Disk.CachedReads
import BitTorrent.Session.Peer
import BitTorrent.Session.Recorder

/-!
# Uploads come from within a piece

A peer's request for a block is checked by the session before anything is read: we must not
choke the peer, the piece must exist, the length must be between one byte and a block's size,
and the block must end within its piece, its end computed without wrapping (`Peer.Serves`).
Only then does the session ask the torrent whether it has the piece, and queues the block with
its source when it does (`Peer.handleRequest_fst`).

The disk then reads the block again at the request's offset. For a session whose piece count
and piece lengths are the torrent's, every request the session serves lies within its piece of
the disk (`Peer.Serves.inPiece`), so the read is never an invalid block
(`Disk.readBlock_ne_invalidBlock`), and a read that gives data gives as many bytes as asked
(`Disk.readBlock_length`), the bytes at the request's positions of the piece's sections
(`Disk.readBlock_bytes`), whether the disk keeps a cache or not. `uploads_within_pieces`
puts the two sides together.
-/

namespace BitTorrent

namespace Disk

variable {σ : Type} {fs : FileStore σ} {d : Disk} {st : σ}

theorem pieceRead_eq_readBlock (index begin : UInt32) (length : Nat) :
    d.pieceRead fs st index begin.toNat length = d.readBlock fs st index begin length := by
  have hlt := begin.toNat_lt
  unfold pieceRead
  have hround : begin.toNat.toUInt32 = begin := UInt32.ofNat_toNat
  rw [if_neg (by simp; omega), Int.toNat_natCast, hround]

theorem ofLoad_ne_invalidBlock (r : BlockRead) (x : Except IoError (List UInt8)) :
    r.ofLoad x ≠ .error .invalidBlock := by
  cases x <;> simp [BlockRead.ofLoad]

theorem ofRead_ne_invalidBlock (r : BlockRead) (x : List UInt8 × Option IoError) :
    r.ofRead x ≠ .error .invalidBlock := by
  rcases x with ⟨data, _ | e⟩ <;> simp [BlockRead.ofRead]

theorem ofRead_eq_ok {r : BlockRead} {x : List UInt8 × Option IoError} {data : List UInt8}
    (h : r.ofRead x = .ok data) : x = (data, none) := by
  rcases x with ⟨data', _ | e⟩
  · simp only [BlockRead.ofRead, Except.ok.injEq] at h
    rw [h]
  · cases h

theorem ofLoad_eq_ok {r : BlockRead} {x : Except IoError (List UInt8)} {data : List UInt8}
    (h : r.ofLoad x = .ok data) :
    ∃ whole, x = .ok whole ∧ data = (whole.drop r.begin.toNat).take r.length := by
  cases x with
  | ok whole =>
    simp only [BlockRead.ofLoad, Except.ok.injEq] at h
    exact ⟨whole, rfl, h.symm⟩
  | error e => cases h

/-- **A read within its piece is never an invalid block**, with or without a cache. -/
theorem readBlock_ne_invalidBlock {info : Info} (ha : info.Accepted)
    (hpieces : d.pieces = (info.layout info.numPieces.toNat).toArray) {r : BlockRead}
    (h : r.InPiece info) : (d.readBlock fs st r.index r.begin r.length).1 ≠ .error .invalidBlock := by
  have hfit : d.fits r = true := (fits_of_layout hpieces r).trans (decide_eq_true h)
  cases hc : d.cache with
  | some c =>
    rw [readBlock_cached_eq hc hfit]
    exact ofLoad_ne_invalidBlock r _
  | none =>
    obtain ⟨p, hp, hle⟩ := fits_eq_true_iff.1 hfit
    rw [readBlock_uncached_eq ha hpieces hc hp hle]
    exact ofRead_ne_invalidBlock r _

/-- **A read within its piece gives the block's bytes of the piece**, as the files hold them:
without a cache, and through a cache that holds what the files give. -/
theorem readBlock_bytes {info : Info} (ha : info.Accepted)
    (hpieces : d.pieces = (info.layout info.numPieces.toNat).toArray)
    (hcache : ∀ c, d.cache = some c → c.Faithful (d.loadPiece fs st)) {r : BlockRead}
    (h : r.InPiece info) {data : List UInt8}
    (hdata : (d.readBlock fs st r.index r.begin r.length).1 = .ok data) :
    ∃ p, (info.layout info.numPieces.toNat)[r.index.toNat]? = some p ∧
      data.map some = (((p.sections.flatMap Section.units).drop r.begin.toNat).take r.length).map
        (Section.byteIn (d.file fs st)) := by
  have hfit : d.fits r = true := (fits_of_layout hpieces r).trans (decide_eq_true h)
  obtain ⟨p, hp, hle⟩ := fits_eq_true_iff.1 hfit
  have hp' : (info.layout info.numPieces.toNat)[r.index.toNat]? = some p := by
    rwa [hpieces, List.getElem?_toArray] at hp
  have hsane := ha.sane_of_layout hp'
  have hsmall : p.length.toNat < 2 ^ 32 := p.length.toNat_lt
  refine ⟨p, hp', ?_⟩
  cases hc : d.cache with
  | some c =>
    -- the piece loads whole, and the block is cut out of it
    rw [readBlock_cached hc (hcache c hc) hfit] at hdata
    obtain ⟨whole, hload, rfl⟩ := ofLoad_eq_ok hdata
    have hread := readPiece_of_loadPiece hp hload
    rw [(readPiece_of_layout d ha hp').1] at hread
    have hwhole := Sections.readAll_eq_none_iff.1 (congrArg Prod.snd hread)
    rw [Sections.readAll_of_whole hwhole, Prod.mk.injEq] at hread
    simp only [List.map_take, List.map_drop]
    rw [← hread.1, Sections.map_some_flatMap_read hsane hwhole]
  | none =>
    -- the slice of the block reads with no error
    rw [readBlock_uncached_eq ha hpieces hc hp hle] at hdata
    have hbegin : (Int64.ofNat r.begin.toNat).toInt = r.begin.toNat :=
      Int64.toInt_ofNat_of_lt (by omega)
    have hlength : (Int64.ofNat r.length).toInt = r.length := Int64.toInt_ofNat_of_lt (by omega)
    have hbytes := Sections.readAll_cut_bytes hsane (by omega) (by omega) (ofRead_eq_ok hdata)
    rwa [hbegin, hlength, Int.toNat_natCast, Int.toNat_natCast] at hbytes

/-- A read within its piece gives as many bytes as it asks for. -/
theorem readBlock_length {info : Info} (ha : info.Accepted)
    (hpieces : d.pieces = (info.layout info.numPieces.toNat).toArray)
    (hcache : ∀ c, d.cache = some c → c.Faithful (d.loadPiece fs st)) {r : BlockRead}
    (h : r.InPiece info) {data : List UInt8}
    (hdata : (d.readBlock fs st r.index r.begin r.length).1 = .ok data) :
    data.length = r.length := by
  obtain ⟨p, hp, hbytes⟩ := readBlock_bytes ha hpieces hcache h hdata
  -- the piece has as many units as its length, and the block ends within it
  obtain ⟨hidx, hplen, -⟩ := info.getElem?_layout hp
  have hunits : (p.sections.flatMap Section.units).length = p.length.toNat := by
    rw [List.length_flatMap]
    simpa only [Section.length_units] using (readPiece_of_layout d ha hp : d.ReadsAsSections fs st p).2
  have hle := h.2
  rw [← UInt32.toNat_inj.1 hidx, ← hplen] at hle
  have hl := congrArg List.length hbytes
  simp only [List.length_map, List.length_take, List.length_drop, hunits] at hl
  omega

end Disk

namespace Session.Peer

/-- We serve the peer's request: we do not choke the peer, and the request is for between one
byte and a block's size within a piece of the torrent, its end computed without wrapping. -/
def Serves (p : Peer) (r : Request) : Prop :=
  p.flags.has Flags.amChoking = false ∧ r.index < p.opts.numPieces ∧ 0 < r.length ∧
    r.length ≤ blockSize ∧ r.begin.toNat + r.length.toNat ≤ (p.opts.pieceLen r.index).toNat

instance (p : Peer) (r : Request) : Decidable (p.Serves r) :=
  inferInstanceAs (Decidable (_ ∧ _))

variable {τ : Type} (co : Coordinator τ)

/-- **A request is queued exactly when we serve it and have its piece**; otherwise the session
stays as it was. -/
theorem handleRequest_fst (p : Peer) (s : τ) (r : Request) :
    (p.handleRequest co s r).1 =
      if p.Serves r ∧ (co.hasPiece s r.index).1 = true then
        p.push (.block r (co.blockReader (co.hasPiece s r.index).2 r.index).1)
      else p := by
  unfold handleRequest
  by_cases hs : p.Serves r
  · obtain ⟨hc, hi, h0, hb, hl⟩ := hs
    have hlen : (r.length == 0 || r.length > blockSize) = false := by
      simp only [Bool.or_eq_false_iff, beq_eq_false_iff_ne, decide_eq_false_iff_not, gt_iff_lt,
        UInt32.not_lt]
      exact ⟨UInt32.pos_iff_ne_zero.1 h0, hb⟩
    rw [if_neg (by simp [hc]), if_neg (UInt32.not_le.2 hi), if_neg (by simp [hlen]),
      if_neg (by omega)]
    rcases co.hasPiece s r.index with ⟨_ | _, s'⟩
    · simp
    · simp [Serves, hc, hi, h0, hb, hl]
  · rw [if_neg (show ¬ (p.Serves r ∧ _) from fun h => hs h.1)]
    split_ifs with h1 h2 h3 h4
    · rfl
    · rfl
    · rfl
    · rfl
    · -- every check passed, so the request is one we serve
      simp only [Bool.or_eq_true, beq_iff_eq, gt_iff_lt, not_or, decide_eq_true_eq] at h3
      exact absurd ⟨by simpa using h1, UInt32.not_le.1 h2, UInt32.pos_iff_ne_zero.2 h3.1,
        UInt32.not_lt.1 h3.2, by omega⟩ hs

end Session.Peer

namespace Session

variable {σ τ : Type}

/-- What a request from the peer leads to, on the session's side and on the disk's. -/
structure UploadServed (fs : FileStore σ) (info : Info) (d : Disk) (st : σ) (co : Coordinator τ)
    (p : Peer) (s : τ) (r : Request) : Prop where
  /-- The block is queued, with the source the torrent gives, exactly when we serve the request
  and have its piece; otherwise the session stays as it was. -/
  queued : (p.handleRequest co s r).1 =
    if p.Serves r ∧ (co.hasPiece s r.index).1 = true then
      p.push (.block r (co.blockReader (co.hasPiece s r.index).2 r.index).1)
    else p
  /-- Reading a request we serve is never an invalid block. -/
  valid : p.Serves r →
    (d.pieceRead fs st r.index r.begin.toNat r.length.toNat).1 ≠ .error .invalidBlock
  /-- A read of a request we serve that gives data gives the request's length of bytes, those
  at its positions of its piece. -/
  bytes : p.Serves r → ∀ data,
    (d.pieceRead fs st r.index r.begin.toNat r.length.toNat).1 = .ok data →
      data.length = r.length.toNat ∧
        ∃ q, (info.layout info.numPieces.toNat)[r.index.toNat]? = some q ∧
          data.map some = (((q.sections.flatMap Section.units).drop r.begin.toNat).take
            r.length.toNat).map (Section.byteIn (d.file fs st))

variable {info : Info} {p : Peer} {r : Request}

/-- A request a session serves, whose piece count and lengths are the torrent's, lies within its
piece. -/
theorem Peer.Serves.inPiece (hnum : p.opts.numPieces = info.numPieces)
    (hlen : p.opts.pieceLen = info.pieceLen) (h : p.Serves r) :
    (⟨r.index, r.begin, r.length.toNat⟩ : Disk.BlockRead).InPiece info := by
  obtain ⟨-, hi, -, -, hend⟩ := h
  rw [hnum] at hi
  rw [hlen] at hend
  exact ⟨hi, hend⟩

/-- **Uploads come from within their piece.** A session whose piece count and lengths are the
torrent's queues a block exactly when it serves the request and has the piece, and the disk of
the torrent, laid out over its files with a cache that holds what the files give, reads such a
request without an invalid block, and any data it reads are the request's bytes of the piece. -/
theorem uploads_within_pieces {fs : FileStore σ} (ha : info.Accepted) {d : Disk} {st : σ}
    (hpieces : d.pieces = (info.layout info.numPieces.toNat).toArray)
    (hcache : ∀ c, d.cache = some c → c.Faithful (d.loadPiece fs st)) (co : Coordinator τ)
    (hnum : p.opts.numPieces = info.numPieces) (hlen : p.opts.pieceLen = info.pieceLen) (s : τ)
    (r : Request) : UploadServed fs info d st co p s r := by
  refine ⟨Peer.handleRequest_fst co p s r, fun hs => ?_, fun hs data hdata => ?_⟩
  · rw [Disk.pieceRead_eq_readBlock]
    exact Disk.readBlock_ne_invalidBlock ha hpieces (hs.inPiece hnum hlen)
  · rw [Disk.pieceRead_eq_readBlock] at hdata
    exact ⟨Disk.readBlock_length ha hpieces hcache (hs.inPiece hnum hlen) hdata,
      Disk.readBlock_bytes ha hpieces hcache (hs.inPiece hnum hlen) hdata⟩

/-- A session of the six-byte torrent that does not choke its peer. -/
def unchokedSession : Peer :=
  { opts := { numPieces := 2, pieceLen := Disk.sixByteFile.pieceLen }, flags := ⟨0⟩ }

/-- The torrent side of the six-byte torrent, having its first piece only. -/
def firstPieceOnly : Recorder :=
  { ours := (Bitfield.new 2).insert 0, content := [1, 2, 3, 4, 5, 6], pieceLength := 4,
    pieceLen := Disk.sixByteFile.pieceLen }

theorem uploads_of_six_byte_file : ∃ d st,
    Disk.create MemStore.fileStore Disk.sixByteFile 1 Disk.fiveBytesStored = (.ok d, st) ∧
      UploadServed MemStore.fileStore Disk.sixByteFile d Disk.fiveBytesStored Recorder.coordinator
        unchokedSession firstPieceOnly ⟨0, 2, 2⟩ := by
  obtain ⟨d, st, hd⟩ : ∃ d st,
      Disk.create MemStore.fileStore Disk.sixByteFile 1 Disk.fiveBytesStored = (.ok d, st) :=
    ⟨_, _, rfl⟩
  -- the cache starts empty, so it holds nothing the files do not give
  have hcache : ∀ c, d.cache = some c →
      c.Faithful (d.loadPiece MemStore.fileStore Disk.fiveBytesStored) := by
    intro c hc
    rw [Disk.cache_of_create hd (by decide), Option.some.injEq] at hc
    subst hc
    exact fun _ he => by cases he
  exact ⟨d, st, hd, uploads_within_pieces Disk.sixByteFile_accepted (Disk.create_eq_ok hd).1 hcache
    Recorder.coordinator rfl rfl firstPieceOnly ⟨0, 2, 2⟩⟩

-- The block at 2 of the first piece goes out at once; the second piece is missing, and a block
-- at 2^32 - 1 does not wrap back into the first piece.
example : [(⟨0, 2, 2⟩ : Request), ⟨1, 0, 2⟩, ⟨0, 4294967295, 2⟩].map (fun r =>
    (unchokedSession.handleRequest Recorder.coordinator firstPieceOnly r).1.inflight.isSome) =
    [true, false, false] := by
  decide

end Session

end BitTorrent
