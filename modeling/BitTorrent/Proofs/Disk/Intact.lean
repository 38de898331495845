import BitTorrent.Proofs.Disk.Written
import BitTorrent.Proofs.Piece.Layout

/-!
# Pieces that stay intact on disk

A piece is intact on a disk (`Disk.Intact`) when it reads whole from its file sections and the
bytes match its digest. This module says which operations of the disk keep a piece intact, and
which make one so.

* A disk opens its torrent's files by their joined paths, in order (`Disk.names_create`), and a
  piece is read through those names only (`Disk.readPiece_of_names`).
* A write changes the store only over the slice of its own piece's sections where the block lies
  (`Disk.writeBlock_store`). In a store that replaces files by name only, over files of distinct
  names, every piece whose sections share no byte with the written piece reads as it read
  (`Disk.readPiece_writeBlock`); for a torrent's layout that is every other piece
  (`Disk.readPiece_writeBlock_of_layout`).
* A check that passes read its piece whole and found it matching (`Disk.verifyPiece_intact`),
  and a scan sets only the bits of pieces it found so (`Disk.scan_intact`).
-/

namespace BitTorrent

/-- Distinct positions of an array without duplicates hold distinct values. -/
theorem Array.getD_inj {α : Type} {a : Array α} {x : α} (hnd : a.toList.Nodup) {i j : Nat}
    (hi : i < a.size) (hj : j < a.size) (h : a.getD i x = a.getD j x) : i = j := by
  rw [Array.getD_eq_getD_getElem?, Array.getD_eq_getD_getElem?, Array.getElem?_eq_getElem hi,
    Array.getElem?_eq_getElem hj] at h
  simp only [Option.getD_some] at h
  have hi' : i < a.toList.length := by simpa using hi
  have hj' : j < a.toList.length := by simpa using hj
  have h' : a.toList[i] = a.toList[j] := by simpa using h
  exact (List.Nodup.getElem_inj_iff hnd).1 h'

namespace Disk

variable {σ : Type} (fs : FileStore σ)

/-- Piece `p` reads whole from the files and matches its digest. -/
def Intact (d : Disk) (st : σ) (p : PieceLayout) : Prop :=
  ∃ data, d.readPiece fs st p = (data, none) ∧ Piece.hashMatches p.length p.hash data = true

variable {fs} {d d' : Disk} {st st' : σ}

theorem names_openAll (files : List FileEntry) :
    ∀ (st st' : σ) (acc names : Array (List UInt8)) (found found' : Bool),
      openAll fs st acc found files = (.ok (names, found'), st') →
        names.toList = acc.toList ++ files.map fun f => Path.join f.path := by
  induction files with
  | nil =>
    intro st st' acc names found found' h
    simp only [openAll, Prod.mk.injEq, Except.ok.injEq] at h
    simp [h.1.1]
  | cons f rest ih =>
    intro st st' acc names found found' h
    unfold openAll at h
    dsimp only at h
    split at h
    · cases h
    · rw [ih _ _ _ names _ found' h]
      simp

/-- A disk opens the files of its torrent by their joined paths, in order. -/
theorem names_create {info : Info} {c : Int} (h : create fs info c st = (.ok d, st')) :
    d.names.toList = info.getFiles.map fun f => Path.join f.path := by
  unfold create at h
  split at h
  · cases h
  · rename_i names found st₁ hopen
    simp only [Prod.mk.injEq, Except.ok.injEq] at h
    rw [← h.1]
    simpa using names_openAll _ _ _ _ _ _ _ hopen

/-- A piece is read through the names of the files only. -/
theorem readPiece_of_names (h : d'.names = d.names) (p : PieceLayout) :
    d'.readPiece fs st p = d.readPiece fs st p := by
  unfold readPiece file
  rw [h]

theorem Intact.of_names {p : PieceLayout} (hi : d.Intact fs st p) (h : d'.names = d.names) :
    d'.Intact fs st p := by
  obtain ⟨data, hread, hmatch⟩ := hi
  exact ⟨data, (readPiece_of_names h p).trans hread, hmatch⟩

/-- A write keeps the names of the files, and changes the store only by writing the block over
the slice of its piece's sections where it lies. -/
theorem writeBlock_store {index begin : UInt32} {data : List UInt8} {r : Except Failure Bool}
    (h : d.writeBlock fs st index begin data = (r, d', st')) :
    d'.names = d.names ∧ d'.pieces = d.pieces ∧ (st' = st ∨ ∃ q secs, d.pieces[index.toNat]? = some q ∧
      Sections.slice q.sections (Int64.ofNat begin.toNat) (Int64.ofNat data.length) = .ok secs ∧
      st' = (Sections.writeAt (fun st k => d.file fs st k)
        (fun st k f => fs.put st (d.names.getD k []) f) st secs data 0).1) := by
  unfold writeBlock at h
  split at h
  · cases h
    exact ⟨rfl, rfl, .inl rfl⟩
  rename_i q hq
  split at h
  · cases h
    exact ⟨rfl, rfl, .inl rfl⟩
  split at h
  · cases h
    exact ⟨rfl, rfl, .inl rfl⟩
  rename_i secs hsecs
  dsimp only at h
  split at h
  · rename_i st₁ n e hw
    simp only [Prod.mk.injEq] at h
    obtain ⟨-, rfl, rfl⟩ := h
    exact ⟨rfl, rfl, .inr ⟨q, secs, hq, hsecs, by rw [hw]⟩⟩
  · rename_i st₁ n hw
    simp only [Prod.mk.injEq] at h
    obtain ⟨-, rfl, rfl⟩ := h
    exact ⟨rfl, rfl, .inr ⟨q, secs, hq, hsecs, by rw [hw]⟩⟩

/-- **A write leaves other pieces alone.** In a store that replaces files by name only, over
files of distinct names, a write to piece `index` keeps every piece whose sections share no byte
with that piece's reading as it read. -/
theorem readPiece_writeBlock (hfs : fs.Separate) (hnd : d.names.toList.Nodup)
    {index begin : UInt32} {data : List UInt8} {r : Except Failure Bool}
    (hw : d.writeBlock fs st index begin data = (r, d', st')) {p q : PieceLayout}
    (hq : d.pieces[index.toNat]? = some q)
    (hqs : ∀ t ∈ q.sections, t.Sane ∧ t.fileIndex < d.names.size)
    (hps : ∀ s ∈ p.sections, s.Sane ∧ s.fileIndex < d.names.size)
    (hapart : ∀ s ∈ p.sections, ∀ t ∈ q.sections, s.fileIndex = t.fileIndex →
      s.offset.toInt + s.length.toInt ≤ t.offset.toInt ∨
        t.offset.toInt + t.length.toInt ≤ s.offset.toInt)
    {bytes : List UInt8} (hread : d.readPiece fs st p = (bytes, none)) :
    d'.readPiece fs st' p = (bytes, none) := by
  obtain ⟨hnames, -, hst⟩ := writeBlock_store hw
  rw [readPiece_of_names hnames]
  unfold readPiece at hread ⊢
  obtain ⟨parts, hslice, hall⟩ := Sections.readAt_eq_none hread
  unfold Sections.readAt
  rw [hslice]
  have hpart := Sections.slice_within (fun s hs => (hps s hs).1) hslice
  refine Sections.readAll_congr (fun t ht hfull => ?_) hall
  obtain ⟨s, hs, hts⟩ := hpart t ht
  rcases hst with rfl | ⟨q', secs, hq', hsecs, rfl⟩
  · rfl
  rw [hq] at hq'
  cases hq'
  have hsec := Sections.slice_within (fun t ht => (hqs t ht).1) hsecs
  apply Sections.writeAt_frame (fun u hu => ?_) (fun u hu => ?_) (fun u hu hfu => ?_) st data 0 hfull
  · -- the slice written lies in the piece's own sections
    obtain ⟨t', ht', hut⟩ := hsec u hu
    exact hut.sane (hqs t' ht').1
  · -- the store replaces the file of one name: the file read, or another
    intro st₀ f
    show fs.get (fs.put st₀ (d.names.getD u.fileIndex []) f) (d.names.getD t.fileIndex []) =
        fs.get st₀ (d.names.getD t.fileIndex []) ∨
      (u.fileIndex = t.fileIndex ∧
        fs.get (fs.put st₀ (d.names.getD u.fileIndex []) f) (d.names.getD t.fileIndex []) = f)
    by_cases hname : d.names.getD u.fileIndex [] = d.names.getD t.fileIndex []
    · obtain ⟨t', ht', hut⟩ := hsec u hu
      have hu' : u.fileIndex < d.names.size := hut.1 ▸ (hqs t' ht').2
      have ht'' : t.fileIndex < d.names.size := hts.1 ▸ (hps s hs).2
      have hidx := Array.getD_inj hnd hu' ht'' hname
      rw [← hname]
      rcases hfs.get_put_self st₀ (d.names.getD u.fileIndex []) f with h | h
      · exact .inr ⟨hidx, h⟩
      · exact .inl h
    · exact .inl (hfs.get_put_of_ne _ _ _ _ hname)
  · -- a part of the piece written is apart from every part of the piece read
    obtain ⟨t', ht', hut⟩ := hsec u hu
    have hfile : s.fileIndex = t'.fileIndex := hts.1.symm.trans (hfu.symm.trans hut.1)
    exact hts.apart_of_apart hut (hps s hs).1 (hqs t' ht').1 (hapart s hs t' ht' hfile)

/-- **Writes keep the other pieces of a torrent as they read.** Over the files of a torrent with
no negative length and distinct paths, kept in a store that replaces files by name only, a write
to one piece of the torrent's layout keeps every other piece that read whole reading the same. -/
theorem readPiece_writeBlock_of_layout {info : Info} {n : Nat} (hfs : fs.Separate)
    (hlen : ∀ f ∈ info.getFiles, 0 ≤ f.length.toInt)
    (hnames : d.names.toList = info.getFiles.map fun f => Path.join f.path)
    (hnd : (info.getFiles.map fun f => Path.join f.path).Nodup)
    (hpieces : d.pieces = (info.layout n).toArray) {index begin : UInt32} {data : List UInt8}
    {r : Except Failure Bool} (hw : d.writeBlock fs st index begin data = (r, d', st'))
    {a : Nat} {p : PieceLayout} (ha : a ≠ index.toNat) (hp : d.pieces[a]? = some p)
    {bytes : List UInt8} (hread : d.readPiece fs st p = (bytes, none)) :
    d'.readPiece fs st' p = (bytes, none) := by
  obtain ⟨hn, -, hst⟩ := writeBlock_store hw
  rcases hst with rfl | ⟨q, -, hq, -, -⟩
  · rw [readPiece_of_names hn]
    exact hread
  -- the sections of the layout are sane ranges of the files, and two pieces share no byte
  have hsize : d.names.size = info.getFiles.length := by
    rw [← Array.length_toList, hnames, List.length_map]
  have hsec := (info.layout_sections hlen n).1
  have hp' : (info.layout n)[a]? = some p := by rwa [hpieces, List.getElem?_toArray] at hp
  have hq' : (info.layout n)[index.toNat]? = some q := by
    rwa [hpieces, List.getElem?_toArray] at hq
  have hmem : ∀ {k : Nat} {x : PieceLayout}, (info.layout n)[k]? = some x →
      ∀ s ∈ x.sections, s.Sane ∧ s.fileIndex < d.names.size := fun hx s hs => by
    rw [hsize]
    exact hsec _ (List.mem_of_getElem? hx) s hs
  exact readPiece_writeBlock hfs (hnames ▸ hnd) hw hq (hmem hq') (hmem hp')
    (info.layout_apart hlen ha hp' hq') hread

/-- A check that passes read its piece whole and found it matching. -/
theorem verifyPiece_intact {index : UInt32} (h : d.verifyPiece fs st index = .ok (.ok true, d')) :
    ∃ p, d.pieces[index.toNat]? = some p ∧ d.Intact fs st p := by
  unfold verifyPiece at h
  rw [Except.bind_eq_ok] at h
  obtain ⟨p, hp, h⟩ := h
  unfold Fault.get at hp
  split at hp
  · rename_i hi
    cases hp
    refine ⟨_, Array.getElem?_eq_getElem hi, ?_⟩
    split at h
    · simp only [Except.pure_eq_ok, Prod.mk.injEq] at h
      cases h.1
    · rename_i data hread
      split at h
      · exact ⟨data, hread, by assumption⟩
      · simp only [Except.pure_eq_ok, Prod.mk.injEq, Except.ok.injEq] at h
        cases h.1
  · cases hp

theorem names_verifyPiece {index : UInt32} {r : Except Error Bool}
    (h : d.verifyPiece fs st index = .ok (r, d')) : d'.names = d.names := by
  rcases verifyPiece_cases h with ⟨-, rfl⟩ | ⟨-, rfl⟩ <;> rfl

/-- A scan sets the bit of a piece only when the piece reads whole and matches. -/
theorem scanFrom_intact (ctx : Context) (ps : List PieceLayout) :
    ∀ (bf bf' : Bitfield) (k : Nat) (prog : List UInt32),
      d.scanFrom fs st ctx bf k ps = (.ok bf', prog) →
      ∀ i, bf'.getD i = true → bf.getD i = true ∨ ∃ p ∈ ps, p.index = i ∧ d.Intact fs st p := by
  induction ps with
  | nil =>
    intro bf bf' k prog h i hi
    simp only [scanFrom, Prod.mk.injEq, Except.ok.injEq] at h
    exact .inl (h.1 ▸ hi)
  | cons p ps ih =>
    intro bf bf' k prog h i hi
    have hmono : ∀ b, (∃ q ∈ ps, q.index = i ∧ d.Intact fs st q) →
        b ∨ ∃ q ∈ p :: ps, q.index = i ∧ d.Intact fs st q := fun _ ⟨q, hq, hqi⟩ =>
      .inr ⟨q, List.mem_cons_of_mem p hq, hqi⟩
    unfold scanFrom at h
    split at h
    · cases h
    split at h
    · -- a piece cut short is left out
      obtain ⟨r, prog', hr⟩ : ∃ r prog', d.scanFrom fs st ctx bf (k + 1) ps = (r, prog') :=
        ⟨_, _, rfl⟩
      rw [hr] at h
      cases h
      exact (ih bf bf' (k + 1) prog' hr i hi).elim .inl (hmono _)
    · obtain ⟨r, prog', hr⟩ : ∃ r prog', d.scanFrom fs st ctx bf (k + 1) ps = (r, prog') :=
        ⟨_, _, rfl⟩
      rw [hr] at h
      cases h
      exact (ih bf bf' (k + 1) prog' hr i hi).elim .inl (hmono _)
    · cases h
    · -- a piece read whole has its bit set when it matches
      rename_i data hread
      obtain ⟨r, prog', hr⟩ : ∃ r prog', d.scanFrom fs st ctx
          (if Piece.hashMatches p.length p.hash data then bf.insert p.index else bf) (k + 1) ps =
            (r, prog') := ⟨_, _, rfl⟩
      dsimp only at h
      rw [hr] at h
      cases h
      rcases ih _ bf' (k + 1) prog' hr i hi with hb | hq
      · split at hb
        · rename_i hmatch
          by_cases hpi : p.index = i
          · exact .inr ⟨p, List.mem_cons_self, hpi, data, hread, hmatch⟩
          · exact .inl (by rwa [Bitfield.getD_insert_of_ne (Ne.symm hpi)] at hb)
        · exact .inl hb
      · exact hmono _ hq

/-- **What a scan finds.** Each bit the scan of the files sets is the bit of a piece of the
disk, at its index, that reads whole and matches its digest. -/
theorem scan_intact (hix : d.Indexed) {ctx : Context} {bf : Bitfield}
    (h : (d.scan fs st ctx).1 = .ok bf) :
    ∀ i, bf.getD i = true → ∃ p, d.pieces[i.toNat]? = some p ∧ d.Intact fs st p := by
  intro i hi
  unfold scan at h
  split at h
  · simp only [Except.ok.injEq] at h
    rw [← h, getD_new] at hi
    cases hi
  obtain ⟨r, prog, hr⟩ : ∃ r prog, d.scanFrom fs st ctx (Bitfield.new d.pieces.size.toUInt32) 0
      d.pieces.toList = (r, prog) := ⟨_, _, rfl⟩
  rw [hr] at h
  cases h
  rcases scanFrom_intact ctx _ _ bf 0 prog hr i hi with hnew | ⟨p, hp, rfl, hint⟩
  · rw [getD_new] at hnew
    cases hnew
  · -- the piece scanned sits at its own index
    obtain ⟨k, hk⟩ := List.mem_iff_getElem?.1 hp
    rw [Array.getElem?_toList] at hk
    exact ⟨p, (hix k p hk) ▸ hk, hint⟩

end Disk

end BitTorrent
