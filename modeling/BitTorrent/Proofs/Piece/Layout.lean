import BitTorrent.Piece.Layout
import BitTorrent.Proofs.Storage.Frame
import Mathlib.Tactic.Common

/-!
# Where the pieces of a torrent lie

`Info.layout` lays the pieces of a torrent over its files, one after another from index 0. Laid
in full, there is one piece per index, each at its own index, with the length and hash the info
dictionary gives it (`Info.length_layout`, `Info.getElem?_layout`).

Pieces are laid in order. A cursor over the files (`Layout.Walks`) moves forward as sections are
taken from it: each section taken fits its file, starts from the cursor and ends by the cursor
after (`Layout.take_spec`). So every section of a piece ends at or before every section of a later
piece in the same file (`Layout.Precedes`, `Layout.pieces_spec`). For a torrent with no file of
negative length, the sections of its pieces are sane 64-bit ranges of its files
(`Info.layout_sections`), and two different pieces share no byte of any file
(`Info.layout_apart`).
-/

namespace BitTorrent

namespace Layout

variable (info : Info)

/-- The pieces laid from index `i` on: as many as asked for and as the torrent has left, each at
its index, with its length and hash. -/
theorem length_pieces : ∀ (count : Nat) (i : UInt32) (c : Cursor),
    (pieces info count i c).length = min count (info.numPieces.toNat - i.toNat)
  | 0, _, _ => by simp [pieces]
  | count + 1, i, c => by
    unfold pieces
    split
    · rename_i h
      have := UInt32.le_iff_toNat_le.1 h
      simp; omega
    · rename_i h
      have hlt := UInt32.lt_iff_toNat_lt.1 (UInt32.not_le.1 h)
      have hsucc : (i + 1).toNat = i.toNat + 1 := by
        have := info.numPieces.toNat_lt
        rw [UInt32.toNat_add]; simp; omega
      simp only [List.length_cons, length_pieces count, hsucc]
      omega

theorem getElem?_pieces : ∀ (count : Nat) (i : UInt32) (c : Cursor) (k : Nat) (p : PieceLayout),
    (pieces info count i c)[k]? = some p →
      p.index.toNat = i.toNat + k ∧ p.length = info.pieceLen p.index ∧
        p.hash = info.pieceHash p.index
  | 0, _, _, _, _, h => by simp [pieces] at h
  | count + 1, i, c, k, p, h => by
    unfold pieces at h
    split at h
    · simp at h
    · rename_i hge
      have hlt := UInt32.lt_iff_toNat_lt.1 (UInt32.not_le.1 hge)
      have hsucc : (i + 1).toNat = i.toNat + 1 := by
        have := info.numPieces.toNat_lt
        rw [UInt32.toNat_add]; simp; omega
      cases k with
      | zero =>
        simp only [List.getElem?_cons_zero, Option.some.injEq] at h
        subst h
        exact ⟨by simp, rfl, rfl⟩
      | succ k =>
        simp only [List.getElem?_cons_succ] at h
        obtain ⟨hi, hl, hh⟩ := getElem?_pieces count _ _ k p h
        exact ⟨by rw [hi, hsucc]; omega, hl, hh⟩

end Layout

/-! ## Sections in order -/

namespace Layout

/-- Section `s` starts at or after the position of a cursor over `files` at `off`; nothing starts
after the end. -/
def Starts : List (Nat × FileEntry) → Int64 → Section → Prop
  | [], _, _ => False
  | (k, _) :: _, off, s => k < s.fileIndex ∨ (k = s.fileIndex ∧ off.toInt ≤ s.offset.toInt)

/-- Section `s` ends at or before the position of a cursor over `files` at `off`; everything ends
before the end. -/
def Ends : List (Nat × FileEntry) → Int64 → Section → Prop
  | [], _, _ => True
  | (k, _) :: _, off, s =>
    s.fileIndex < k ∨ (s.fileIndex = k ∧ s.offset.toInt + s.length.toInt ≤ off.toInt)

/-- A section that ends by a cursor comes before one of the same file that starts from it. -/
theorem Ends.le {files : List (Nat × FileEntry)} {off : Int64} {s t : Section}
    (hs : Ends files off s) (ht : Starts files off t) (hst : s.fileIndex = t.fileIndex) :
    s.offset.toInt + s.length.toInt ≤ t.offset.toInt := by
  cases files with
  | nil => exact absurd ht id
  | cons e fs =>
    simp only [Ends, Starts] at hs ht
    omega

/-- A cursor that walks over the files: their indexes ascend, no length is negative, and its
offset lies within the first file. -/
structure Walks (files : List (Nat × FileEntry)) (off : Int64) : Prop where
  ascending : (files.map (·.1)).Pairwise (· < ·)
  nonneg : ∀ e ∈ files, 0 ≤ e.2.length.toInt
  offset : 0 ≤ off.toInt
  within : ∀ e ∈ files.head?, off.toInt ≤ e.2.length.toInt

/-- A section laid from a cursor over `files`: its range fits 64 bits and lies within its file,
one of `files`. -/
def Fits (files : List (Nat × FileEntry)) (s : Section) : Prop :=
  s.Sane ∧ ∃ f, (s.fileIndex, f) ∈ files ∧ s.offset.toInt + s.length.toInt ≤ f.length.toInt

theorem Fits.mono {fs fs' : List (Nat × FileEntry)} {s : Section} (h : Fits fs s)
    (hsub : fs.Sublist fs') : Fits fs' s := by
  obtain ⟨hs, f, hf, hle⟩ := h
  exact ⟨hs, f, hsub.subset hf, hle⟩

/-- What starts from the start of the files after the first starts from the first. -/
theorem Starts.of_tail {k : Nat} {f : FileEntry} {fs : List (Nat × FileEntry)} {off off' : Int64}
    (hasc : ((k, f) :: fs).map (·.1) |>.Pairwise (· < ·)) {s : Section}
    (h : Starts fs off' s) : Starts ((k, f) :: fs) off s := by
  cases fs with
  | nil => exact absurd h id
  | cons e fs =>
    simp only [List.map_cons, List.pairwise_cons, List.mem_cons, forall_eq_or_imp] at hasc
    simp only [Starts] at h ⊢
    omega

/-- Ending by the start of the files after the first, any section of the first file ends by
them. -/
theorem Ends.of_head {k : Nat} {f : FileEntry} {fs : List (Nat × FileEntry)} {c : Cursor}
    (hasc : ((k, f) :: fs).map (·.1) |>.Pairwise (· < ·)) (hc : c.files <:+ fs)
    {s : Section} (hs : s.fileIndex = k) : Ends c.files c.offset s := by
  obtain ⟨pre, hpre⟩ := hc
  cases hcf : c.files with
  | nil => trivial
  | cons e rest =>
    have he : e ∈ fs := by rw [← hpre, hcf]; simp
    simp only [List.map_cons, List.pairwise_cons, List.mem_map] at hasc
    have := hasc.1 e.1 ⟨e, he, rfl⟩
    simp only [Ends]
    omega

theorem Walks.tail {k : Nat} {f : FileEntry} {fs : List (Nat × FileEntry)} {off : Int64}
    (h : Walks ((k, f) :: fs) off) : Walks fs 0 := by
  refine ⟨(List.pairwise_cons.1 h.ascending).2, fun e he => h.nonneg e (List.mem_cons_of_mem _ he),
    by simp, fun e he => ?_⟩
  have := h.nonneg e (List.mem_cons_of_mem _ (List.mem_of_mem_head? he))
  simpa using this

/-- **Taking from a cursor.** Each section taken fits its file, starts from the cursor and ends by
the cursor after; that cursor walks over what is left of the files, and what starts from it starts
from the first. -/
theorem take_spec (files : List (Nat × FileEntry)) :
    ∀ (left off : Int64) (ss : List Section) (c : Cursor), Walks files off →
      take left files off = (ss, c) →
      (∀ s ∈ ss, Fits files s ∧ Starts files off s ∧ Ends c.files c.offset s) ∧
        c.files <:+ files ∧ Walks c.files c.offset ∧
        ∀ s, Starts c.files c.offset s → Starts files off s := by
  induction files with
  | nil =>
    intro left off ss c hw h
    simp only [take, Prod.mk.injEq] at h
    obtain ⟨rfl, rfl⟩ := h
    exact ⟨by simp, List.suffix_refl _, hw, fun _ h => h⟩
  | cons e fs ih =>
    obtain ⟨k, f⟩ := e
    intro left off ss c hw h
    have hlen : 0 ≤ f.length.toInt := hw.nonneg (k, f) List.mem_cons_self
    have hoff := hw.offset
    have hwithin : off.toInt ≤ f.length.toInt := hw.within (k, f) rfl
    have hmax := Int64.toInt_le f.length
    simp only [Int64.toInt_maxValue] at hmax
    have hleft : (f.length - off).toInt = f.length.toInt - off.toInt :=
      Int64.toInt_sub_of_nonneg hlen hoff
    -- what is taken from the files after the first is taken from this cursor
    have hrec : ∀ left' ss' c', take left' fs 0 = (ss', c') →
        (∀ s ∈ ss', Fits ((k, f) :: fs) s ∧ Starts ((k, f) :: fs) off s ∧
          Ends c'.files c'.offset s) ∧ c'.files <:+ (k, f) :: fs ∧ Walks c'.files c'.offset ∧
        ∀ s, Starts c'.files c'.offset s → Starts ((k, f) :: fs) off s := by
      intro left' ss' c' h'
      obtain ⟨h1, h2, h3, h4⟩ := ih left' 0 ss' c' hw.tail h'
      refine ⟨fun s hs => ⟨(h1 s hs).1.mono (List.sublist_cons_self _ _),
        Starts.of_tail hw.ascending (h1 s hs).2.1, (h1 s hs).2.2⟩,
        h2.trans (List.suffix_cons _ _), h3, fun s hs => Starts.of_tail hw.ascending (h4 s hs)⟩
    unfold take at h
    split at h
    · -- nothing left to take
      simp only [Prod.mk.injEq] at h
      obtain ⟨rfl, rfl⟩ := h
      exact ⟨by simp, List.suffix_refl _, hw, fun _ h => h⟩
    rename_i hpos
    rw [Int64.le_iff_toInt_le] at hpos
    dsimp only at h
    split at h
    · -- the first file is used up
      exact hrec left ss c h
    rename_i hzero
    have hzero : (f.length - off).toInt ≠ 0 := fun h0 =>
      hzero (by simpa using Int64.toInt_inj.1 (h0.trans Int64.toInt_zero.symm))
    have hn : ∀ n : Int64, n = (if left < f.length - off then left else f.length - off) →
        0 < n.toInt ∧ n.toInt ≤ left.toInt ∧ n.toInt ≤ f.length.toInt - off.toInt := by
      intro n hn
      subst hn
      split
      · rename_i hlt
        rw [Int64.lt_iff_toInt_lt, hleft] at hlt
        simp at hpos
        omega
      · rename_i hlt
        rw [Int64.lt_iff_toInt_lt, hleft] at hlt
        rw [hleft]
        simp at hpos
        omega
    generalize hdef : (if left < f.length - off then left else f.length - off) = n at h
    obtain ⟨hn1, hn2, hn3⟩ := hn n hdef.symm
    have hend : (off + n).toInt = off.toInt + n.toInt := Int64.toInt_add_of_lt hoff (by omega)
      (by omega)
    -- the section taken from the first file
    have hfits : Fits ((k, f) :: fs) ⟨k, Path.join f.path, off, n⟩ :=
      ⟨⟨hoff, by dsimp only; omega, by dsimp only; omega⟩, f, List.mem_cons_self,
        by dsimp only; omega⟩
    have hstarts : Starts ((k, f) :: fs) off ⟨k, Path.join f.path, off, n⟩ := by
      simp [Starts]
    split at h
    · -- the piece ends in the first file
      simp only [Prod.mk.injEq] at h
      obtain ⟨rfl, rfl⟩ := h
      refine ⟨?_, List.suffix_refl _, ⟨hw.ascending, hw.nonneg, by dsimp only; omega, ?_⟩, ?_⟩
      · simp only [List.mem_singleton, forall_eq]
        refine ⟨hfits, hstarts, .inr ⟨rfl, ?_⟩⟩
        show off.toInt + n.toInt ≤ (off + n).toInt
        omega
      · simp only [List.head?_cons, Option.mem_def, Option.some.injEq, forall_eq']
        omega
      · intro s hs
        simp only [Starts] at hs ⊢
        omega
    · -- the piece goes on past the first file
      obtain ⟨ss', c', hr⟩ : ∃ ss' c', take (left - n) fs 0 = (ss', c') := ⟨_, _, rfl⟩
      rw [hr] at h
      simp only [Prod.mk.injEq] at h
      obtain ⟨rfl, rfl⟩ := h
      obtain ⟨h1, h2, h3, h4⟩ := hrec (left - n) ss' c' hr
      refine ⟨fun s hs => ?_, h2, h3, h4⟩
      rcases List.mem_cons.1 hs with rfl | hs
      · exact ⟨hfits, hstarts,
          Ends.of_head hw.ascending (ih (left - n) 0 ss' c' hw.tail hr).2.1 rfl⟩
      · exact h1 s hs

/-- Every section of piece `p` ends at or before every section of piece `q` in the same file. -/
def Precedes (p q : PieceLayout) : Prop :=
  ∀ s ∈ p.sections, ∀ t ∈ q.sections, s.fileIndex = t.fileIndex →
    s.offset.toInt + s.length.toInt ≤ t.offset.toInt

/-- **Laying pieces from a cursor.** Each section of each piece fits its file and starts from the
cursor, and each piece precedes the pieces laid after it. -/
theorem pieces_spec (info : Info) : ∀ (count : Nat) (i : UInt32) (c : Cursor),
    Walks c.files c.offset →
      (∀ p ∈ pieces info count i c, ∀ s ∈ p.sections, Fits c.files s ∧ Starts c.files c.offset s) ∧
        (pieces info count i c).Pairwise Precedes
  | 0, _, _, _ => by simp [pieces]
  | count + 1, i, c, hw => by
    unfold pieces
    split
    · simp
    obtain ⟨ss, c', hr⟩ : ∃ ss c', take (Int64.ofNat (info.pieceLen i).toNat) c.files c.offset =
        (ss, c') := ⟨_, _, rfl⟩
    simp only [hr]
    obtain ⟨hss, hsuf, hw', hfrom⟩ := take_spec c.files _ c.offset ss c' hw hr
    obtain ⟨hrest, hpw⟩ := pieces_spec info count (i + 1) c' hw'
    refine ⟨fun p hp s hs => ?_, List.pairwise_cons.2 ⟨fun q hq s hs t ht hst => ?_, hpw⟩⟩
    · rcases List.mem_cons.1 hp with rfl | hp
      · exact ⟨(hss s hs).1, (hss s hs).2.1⟩
      · obtain ⟨hfits, hstarts⟩ := hrest p hp s hs
        exact ⟨hfits.mono hsuf.sublist, hfrom s hstarts⟩
    · -- a section of the first piece ends by the cursor that the later pieces start from
      exact Ends.le (hss s hs).2.2 (hrest q hq t ht).2 hst

end Layout

namespace Info

variable (info : Info)

/-- The full layout has one piece per index. -/
theorem length_layout : (info.layout info.numPieces.toNat).length = info.numPieces.toNat := by
  simp [layout, Layout.length_pieces]

/-- Each piece of the layout sits at its own index, with its length and hash. -/
theorem getElem?_layout {n k : Nat} {p : PieceLayout} (h : (info.layout n)[k]? = some p) :
    p.index.toNat = k ∧ p.length = info.pieceLen p.index ∧ p.hash = info.pieceHash p.index := by
  simpa using Layout.getElem?_pieces info n 0 _ k p h

/-- The files of a torrent with no negative length are walked from their start. -/
theorem walks_files (hlen : ∀ f ∈ info.getFiles, 0 ≤ f.length.toInt) :
    Layout.Walks (info.getFiles.zipIdx.map fun e => (e.2, e.1)) 0 := by
  refine ⟨?_, ?_, by simp, ?_⟩
  · have hidx : ((info.getFiles.zipIdx.map fun e => (e.2, e.1)).map (·.1)) =
        List.range' 0 info.getFiles.length := by
      rw [List.map_map, ← List.zipIdx_map_snd 0 info.getFiles]
      rfl
    rw [hidx, List.range'_eq_map_range, List.pairwise_map]
    simpa using List.pairwise_lt_range
  · intro e he
    obtain ⟨⟨f, k⟩, hmem, rfl⟩ := List.mem_map.1 he
    obtain ⟨-, hk, hf⟩ := List.mem_zipIdx hmem
    exact hlen f (hf ▸ List.getElem_mem _)
  · intro e he
    obtain ⟨⟨f, k⟩, hmem, rfl⟩ := List.mem_map.1 (List.mem_of_mem_head? he)
    obtain ⟨-, hk, hf⟩ := List.mem_zipIdx hmem
    simpa using hlen f (hf ▸ List.getElem_mem _)

/-- **The sections of a torrent's pieces.** With no file of negative length, every section of a
piece fits 64 bits and lies in one of the files, and every piece precedes the pieces after it. -/
theorem layout_sections (hlen : ∀ f ∈ info.getFiles, 0 ≤ f.length.toInt) (n : Nat) :
    (∀ p ∈ info.layout n, ∀ s ∈ p.sections, s.Sane ∧ s.fileIndex < info.getFiles.length) ∧
      (info.layout n).Pairwise Layout.Precedes := by
  obtain ⟨hfits, hpw⟩ := Layout.pieces_spec info n 0 ⟨_, 0⟩ (info.walks_files hlen)
  refine ⟨fun p hp s hs => ?_, hpw⟩
  obtain ⟨hsane, f, hf, -⟩ := (hfits p hp s hs).1
  obtain ⟨⟨f', k⟩, hmem, hfk⟩ := List.mem_map.1 hf
  simp only [Prod.mk.injEq] at hfk
  obtain ⟨-, hk, -⟩ := List.mem_zipIdx hmem
  exact ⟨hsane, hfk.1 ▸ by simpa using hk⟩

/-- Two pieces at different places of the layout share no byte of any file. -/
theorem layout_apart (hlen : ∀ f ∈ info.getFiles, 0 ≤ f.length.toInt) {n a b : Nat}
    {p q : PieceLayout} (hab : a ≠ b) (hp : (info.layout n)[a]? = some p)
    (hq : (info.layout n)[b]? = some q) :
    ∀ s ∈ p.sections, ∀ t ∈ q.sections, s.fileIndex = t.fileIndex →
      s.offset.toInt + s.length.toInt ≤ t.offset.toInt ∨
        t.offset.toInt + t.length.toInt ≤ s.offset.toInt := by
  intro s hs t ht hst
  have hpw := List.pairwise_iff_getElem.1 (info.layout_sections hlen n).2
  obtain ⟨ha, rfl⟩ := List.getElem?_eq_some_iff.1 hp
  obtain ⟨hb, rfl⟩ := List.getElem?_eq_some_iff.1 hq
  rcases Nat.lt_or_gt_of_ne hab with h | h
  · exact .inl (hpw a b ha hb h s hs t ht hst)
  · exact .inr (hpw b a hb ha h t ht s hs hst.symm)

end Info

end BitTorrent
