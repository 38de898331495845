import BitTorrent.Proofs.Piece.Layout
import BitTorrent.Proofs.Meta.Lengths

/-!
# The pieces cover the content

The content of a torrent is its files one after another. `Info.contentBytes` lists every byte
of it as the position of its file and its offset in the file, and `Section.bytes` the bytes a
section covers. Laying out the pieces walks a cursor over the files; what a cursor has still to
walk is `Layout.bytesFrom`.

Taking `left` bytes from a cursor takes exactly the first `left` of the bytes it has still to
walk, in sections that are not empty, and leaves a cursor at the rest (`Layout.take_bytes`). So
the pieces, one after another, cover the first bytes of the content, as many as their lengths add
up to (`Layout.pieces_bytes`), and piece `i` covers the bytes from `i` piece lengths on
(`Info.Accepted.layout_bytes`).
-/

namespace BitTorrent

/-- A sum of integers that are not negative, taken in `Nat`. -/
theorem List.natCast_sum_map_toNat {α : Type} (l : List α) (g : α → Int) (h : ∀ a ∈ l, 0 ≤ g a) :
    (((l.map fun a => (g a).toNat).sum : Nat) : Int) = (l.map g).sum := by
  rw [Nat.cast_list_sum, List.map_map]
  exact congrArg List.sum (List.map_congr_left fun a ha => Int.toNat_of_nonneg (h a ha))

namespace Section

/-- The bytes a section covers: its file's position, with each offset in its range. -/
def bytes (s : Section) : List (Nat × Nat) :=
  (List.range' s.offset.toInt.toNat s.length.toInt.toNat).map (s.fileIndex, ·)

@[simp] theorem length_bytes (s : Section) : s.bytes.length = s.length.toInt.toNat := by
  simp [bytes]

theorem head?_bytes {s : Section} (h : 0 < s.length.toInt) :
    s.bytes.head? = some (s.fileIndex, s.offset.toInt.toNat) := by
  rw [bytes, List.head?_map, List.head?_range', if_neg (by omega)]
  rfl

theorem getLast?_bytes {s : Section} (h : 0 < s.length.toInt) :
    s.bytes.getLast? =
      some (s.fileIndex, s.offset.toInt.toNat + s.length.toInt.toNat - 1) := by
  rw [bytes, List.getLast?_map, List.getLast?_range', if_neg (by omega)]
  rfl

/-- Section `t` starts where section `s` ends in the content of `files`: right after it in the
same file, or at the start of a later file when `s` ends its file and every file between is
empty. -/
def Follows (files : List FileEntry) (s t : Section) : Prop :=
  (t.fileIndex = s.fileIndex ∧ t.offset.toInt = s.offset.toInt + s.length.toInt) ∨
    (s.fileIndex < t.fileIndex ∧ t.offset.toInt = 0 ∧
      (∀ f ∈ files[s.fileIndex]?, f.length.toInt = s.offset.toInt + s.length.toInt) ∧
      ∀ k, s.fileIndex < k → k < t.fileIndex → ∀ f ∈ files[k]?, f.length.toInt = 0)

end Section

namespace Sections

/-- Cutting keeps the order of the files: the cut's sections lie in the sections cut, in their
order. -/
theorem map_fileIndex_cut_sublist : ∀ (ss : List Section) (off len : Int64),
    ((cut ss off len).map (·.fileIndex)).Sublist (ss.map (·.fileIndex))
  | [], _, _ => by simp [cut]
  | s :: rest, off, len => by
    unfold cut
    split
    · simp
    split
    · exact (map_fileIndex_cut_sublist rest _ _).trans (List.sublist_cons_self _ _)
    · exact (map_fileIndex_cut_sublist rest 0 _).cons_cons _

theorem map_fileIndex_slice_sublist {ss parts : List Section} {off len : Int64}
    (h : slice ss off len = .ok parts) :
    (parts.map (·.fileIndex)).Sublist (ss.map (·.fileIndex)) := by
  unfold slice at h
  split at h
  · cases h
  · cases h
    exact map_fileIndex_cut_sublist ss off len

/-- Collecting the files of sections in file order: each file taken is after the last one
taken. -/
theorem fileIndexes_foldl : ∀ (ss : List Section) (acc : List Nat), acc.IsChain (· < ·) →
    (∀ a ∈ acc.getLast?, ∀ s ∈ ss, a ≤ s.fileIndex) →
    (ss.map (·.fileIndex)).Pairwise (· ≤ ·) →
    (ss.foldl (fun acc s =>
      if s.length == 0 then acc
      else if acc.getLast? == some s.fileIndex then acc
      else acc ++ [s.fileIndex]) acc).IsChain (· < ·)
  | [], _, hacc, _, _ => hacc
  | s :: rest, acc, hacc, hlast, hpw => by
    simp only [List.map_cons, List.pairwise_cons, List.mem_map, forall_exists_index, and_imp,
      forall_apply_eq_imp_iff₂] at hpw
    have hrest : ∀ a ∈ acc.getLast?, ∀ t ∈ rest, a ≤ t.fileIndex :=
      fun a ha t ht => hlast a ha t (List.mem_cons_of_mem _ ht)
    rw [List.foldl_cons]
    split
    · exact fileIndexes_foldl rest acc hacc hrest hpw.2
    split
    · exact fileIndexes_foldl rest acc hacc hrest hpw.2
    rename_i hnew
    refine fileIndexes_foldl rest _ ?_ ?_ hpw.2
    · -- a file is taken only when it is not the last one taken, so after it
      refine hacc.append (List.isChain_singleton _) fun a ha b hb => ?_
      rw [List.head?_singleton, Option.mem_def, Option.some.injEq] at hb
      subst hb
      rw [Option.mem_def] at ha
      have hle := hlast a (by simp [ha]) s List.mem_cons_self
      have hne : a ≠ s.fileIndex := fun h => hnew (by simp [ha, h])
      omega
    · intro a ha t ht
      rw [List.getLast?_concat, Option.mem_def, Option.some.injEq] at ha
      exact ha ▸ hpw.1 t ht

/-- **Sections in file order touch their files in strictly ascending order.** -/
theorem fileIndexes_pairwise {ss : List Section} (h : (ss.map (·.fileIndex)).Pairwise (· ≤ ·)) :
    (fileIndexes ss).Pairwise (· < ·) :=
  List.isChain_iff_pairwise.1 (fileIndexes_foldl ss [] .nil (by simp) h)

end Sections

/-- The bytes a piece covers, section after section. -/
def PieceLayout.bytes (p : PieceLayout) : List (Nat × Nat) :=
  p.sections.flatMap Section.bytes

namespace Layout

/-- The bytes a cursor over `files` at offset `off` has still to walk, file by file. -/
def bytesFrom : List (Nat × FileEntry) → Nat → List (Nat × Nat)
  | [], _ => []
  | (k, f) :: fs, off => (List.range' off (f.length.toInt.toNat - off)).map (k, ·) ++ bytesFrom fs 0

/-! ## One take from a cursor -/

section Take

variable {k : Nat} {f : FileEntry} {fs : List (Nat × FileEntry)} {left off : Int64}

theorem take_of_nonpos (h : left.toInt ≤ 0) : take left ((k, f) :: fs) off = ([], ⟨(k, f) :: fs, off⟩) := by
  rw [take, if_pos (Int64.le_iff_toInt_le.2 (by simpa using h))]

theorem take_of_used (hpos : 0 < left.toInt) (h : off = f.length) :
    take left ((k, f) :: fs) off = take left fs 0 := by
  rw [take, if_neg (by rw [Int64.le_iff_toInt_le]; simp; omega), h]
  simp

/-- What the first file has left past a cursor inside it. -/
theorem toInt_fileLeft (hoff : 0 ≤ off.toInt) (hlen : off.toInt < f.length.toInt) :
    (f.length - off).toInt = f.length.toInt - off.toInt :=
  Int64.toInt_sub_of_nonneg (by omega) hoff

/-- Inside the first file a take cuts one section, of `left` bytes or of what the file has left
when that is fewer, and goes on to the files after only in the second case. -/
theorem take_of_lt (hpos : 0 < left.toInt) (hoff : 0 ≤ off.toInt)
    (hlen : off.toInt < f.length.toInt) :
    take left ((k, f) :: fs) off =
      let n := if left < f.length - off then left else f.length - off
      if n == left then ([⟨k, Path.join f.path, off, n⟩], ⟨(k, f) :: fs, off + n⟩)
      else (⟨k, Path.join f.path, off, n⟩ :: (take (left - n) fs 0).1,
        (take (left - n) fs 0).2) := by
  have hne : (f.length - off == 0) = false := by
    rw [beq_eq_false_iff_ne]
    intro h0
    have := congrArg Int64.toInt h0
    rw [toInt_fileLeft hoff hlen, Int64.toInt_zero] at this
    omega
  rw [take, if_neg (by rw [Int64.le_iff_toInt_le]; simp; omega), hne]
  rfl

/-- The bytes left in the first file all go to a section when they are no more than `left`. -/
theorem take_of_le (hpos : 0 < left.toInt) (hoff : 0 ≤ off.toInt)
    (hlen : off.toInt < f.length.toInt) (hle : left.toInt ≤ f.length.toInt - off.toInt) :
    take left ((k, f) :: fs) off =
      ([⟨k, Path.join f.path, off, left⟩], ⟨(k, f) :: fs, off + left⟩) := by
  have hleft := toInt_fileLeft hoff hlen
  have hn : (if left < f.length - off then left else f.length - off) = left := by
    split
    · rfl
    · rename_i hge
      rw [Int64.lt_iff_toInt_lt, hleft] at hge
      exact Int64.toInt_inj.1 (by omega)
  rw [take_of_lt hpos hoff hlen]
  dsimp only
  rw [hn]
  simp

/-- More than is left in the first file: all of it goes to a section, and the rest is taken from
the files after. -/
theorem take_of_gt (hpos : 0 < left.toInt) (hoff : 0 ≤ off.toInt)
    (hlen : off.toInt < f.length.toInt) (hgt : f.length.toInt - off.toInt < left.toInt) :
    take left ((k, f) :: fs) off =
      (⟨k, Path.join f.path, off, f.length - off⟩ :: (take (left - (f.length - off)) fs 0).1,
        (take (left - (f.length - off)) fs 0).2) := by
  have hleft := toInt_fileLeft hoff hlen
  have hn : (if left < f.length - off then left else f.length - off) = f.length - off := by
    rw [if_neg (by rw [Int64.lt_iff_toInt_lt, hleft]; omega)]
  have hne : (f.length - off == left) = false := by
    rw [beq_eq_false_iff_ne]
    intro h0
    have := congrArg Int64.toInt h0
    omega
  rw [take_of_lt hpos hoff hlen]
  dsimp only
  rw [hn, hne]
  rfl

end Take

/-- **Taking from a cursor.** Taking `left` bytes takes the first `left` of the bytes the cursor
has still to walk, in sections that are not empty, and leaves a cursor at the rest. -/
theorem take_bytes (files : List (Nat × FileEntry)) :
    ∀ (left off : Int64), Walks files off →
      (take left files off).1.flatMap Section.bytes =
          (bytesFrom files off.toInt.toNat).take left.toInt.toNat ∧
        bytesFrom (take left files off).2.files (take left files off).2.offset.toInt.toNat =
          (bytesFrom files off.toInt.toNat).drop left.toInt.toNat ∧
        ∀ s ∈ (take left files off).1, 0 < s.length.toInt := by
  induction files with
  | nil => intro left off _; simp [take, bytesFrom]
  | cons e fs ih =>
    obtain ⟨k, f⟩ := e
    intro left off hw
    have hoff := hw.offset
    have hwithin : off.toInt ≤ f.length.toInt := hw.within (k, f) rfl
    have hmax := Int64.toInt_le f.length
    simp only [Int64.toInt_maxValue] at hmax
    by_cases hpos : left.toInt ≤ 0
    · -- nothing to take
      rw [take_of_nonpos hpos]
      simp [show left.toInt.toNat = 0 by omega]
    push Not at hpos
    by_cases hused : off.toInt = f.length.toInt
    · -- the first file is used up: it has nothing left to walk
      rw [take_of_used hpos (Int64.toInt_inj.1 hused)]
      have hfirst : bytesFrom ((k, f) :: fs) off.toInt.toNat = bytesFrom fs 0 := by
        simp [bytesFrom, hused]
      rw [hfirst]
      simpa using ih left 0 hw.tail
    have hlt : off.toInt < f.length.toInt := by omega
    -- the bytes left in the first file, then those of the files after
    have hsplit : bytesFrom ((k, f) :: fs) off.toInt.toNat =
        (List.range' off.toInt.toNat (f.length.toInt.toNat - off.toInt.toNat)).map (k, ·) ++
          bytesFrom fs 0 := rfl
    by_cases hle : left.toInt ≤ f.length.toInt - off.toInt
    · -- the piece ends in the first file
      rw [take_of_le hpos hoff hlt hle, hsplit]
      have hend : (off + left).toInt.toNat = off.toInt.toNat + left.toInt.toNat := by
        rw [Int64.toInt_add_of_lt hoff (by omega) (by omega)]
        omega
      have hrange : List.range' off.toInt.toNat (f.length.toInt.toNat - off.toInt.toNat) =
          List.range' off.toInt.toNat left.toInt.toNat ++
            List.range' (off + left).toInt.toNat
              (f.length.toInt.toNat - (off + left).toInt.toNat) := by
        rw [hend, show f.length.toInt.toNat - off.toInt.toNat = left.toInt.toNat +
          (f.length.toInt.toNat - (off.toInt.toNat + left.toInt.toNat)) by omega,
          ← List.range'_append, Nat.one_mul]
      refine ⟨?_, ?_, by simpa using hpos⟩
      · simp only [List.flatMap_cons, List.flatMap_nil, List.append_nil, Section.bytes, hrange,
          List.map_append, List.append_assoc]
        rw [List.take_append_of_le_length (by simp)]
        simp
      · simp only [bytesFrom, hrange, List.map_append, List.append_assoc]
        rw [List.drop_append_of_le_length (by simp), List.drop_of_length_le (by simp),
          List.nil_append]
    · -- the piece goes on past the first file
      push Not at hle
      rw [take_of_gt hpos hoff hlt hle, hsplit]
      have hrest : (f.length - off).toInt = f.length.toInt - off.toInt := toInt_fileLeft hoff hlt
      have hleft' : (left - (f.length - off)).toInt = left.toInt - (f.length.toInt - off.toInt) := by
        rw [← hrest]
        exact Int64.toInt_sub_of_nonneg (by omega) (by omega)
      obtain ⟨h1, h2, h3⟩ := ih (left - (f.length - off)) 0 hw.tail
      simp only [Int64.toInt_zero, Int.toNat_zero] at h1 h2
      have hfirst : (⟨k, Path.join f.path, off, f.length - off⟩ : Section).bytes =
          (List.range' off.toInt.toNat (f.length.toInt.toNat - off.toInt.toNat)).map (k, ·) := by
        simp only [Section.bytes, hrest]
        congr 2
        omega
      have hcount : left.toInt.toNat - (f.length.toInt.toNat - off.toInt.toNat) =
          (left - (f.length - off)).toInt.toNat := by
        rw [hleft']
        omega
      have hA : ((List.range' off.toInt.toNat (f.length.toInt.toNat - off.toInt.toNat)).map
          (k, ·)).length ≤ left.toInt.toNat := by
        simp only [List.length_map, List.length_range']
        omega
      refine ⟨?_, ?_, ?_⟩
      · rw [List.flatMap_cons, hfirst, h1, List.take_append, List.take_of_length_le hA,
          List.length_map, List.length_range', hcount]
      · rw [h2, List.drop_append, List.drop_of_length_le hA, List.nil_append, List.length_map,
          List.length_range', hcount]
      · intro s hs
        rcases List.mem_cons.1 hs with rfl | hs
        · simp only [hrest]
          omega
        · exact h3 s hs

/-- **Laying pieces from a cursor.** The pieces cover, one after another, the first bytes the
cursor has still to walk, as many as their lengths add up to; each piece covers the bytes after
those of the pieces before it; and no section of a piece is empty. -/
theorem pieces_bytes (info : Info) : ∀ (count : Nat) (i : UInt32) (c : Cursor),
    Walks c.files c.offset →
      (pieces info count i c).flatMap PieceLayout.bytes =
          (bytesFrom c.files c.offset.toInt.toNat).take
            ((pieces info count i c).map (·.length.toNat)).sum ∧
        (∀ k p, (pieces info count i c)[k]? = some p →
          p.bytes = ((bytesFrom c.files c.offset.toInt.toNat).drop
            (((pieces info count i c).take k).map (·.length.toNat)).sum).take p.length.toNat) ∧
        ∀ p ∈ pieces info count i c, ∀ s ∈ p.sections, 0 < s.length.toInt
  | 0, _, _, _ => by simp [pieces]
  | count + 1, i, c, hw => by
    unfold pieces
    split
    · simp
    obtain ⟨ss, c', hr⟩ : ∃ ss c', take (Int64.ofNat (info.pieceLen i).toNat) c.files c.offset =
        (ss, c') := ⟨_, _, rfl⟩
    simp only [hr]
    have hlen : (Int64.ofNat (info.pieceLen i).toNat).toInt.toNat = (info.pieceLen i).toNat := by
      have := (info.pieceLen i).toNat_lt
      rw [Int64.toInt_ofNat_of_lt (by omega)]
      simp
    -- the first piece takes from the cursor, the later ones from where it left it
    obtain ⟨h1, h2, h3⟩ := take_bytes c.files (Int64.ofNat (info.pieceLen i).toNat) c.offset hw
    rw [hr, hlen] at h1 h2
    obtain ⟨-, -, hw', -⟩ := take_spec c.files _ c.offset ss c' hw hr
    obtain ⟨g1, g2, g3⟩ := pieces_bytes info count (i + 1) c' hw'
    rw [h2] at g1 g2
    refine ⟨?_, fun k p hp => ?_, fun p hp s hs => ?_⟩
    · rw [List.flatMap_cons, List.map_cons, List.sum_cons, List.take_add]
      exact congrArg₂ (· ++ ·) h1 g1
    · cases k with
      | zero =>
        simp only [List.getElem?_cons_zero, Option.some.injEq] at hp
        subst hp
        simpa [PieceLayout.bytes] using h1
      | succ k =>
        rw [List.getElem?_cons_succ] at hp
        rw [g2 k p hp, List.take_succ_cons, List.map_cons, List.sum_cons, List.drop_drop]
    · rcases List.mem_cons.1 hp with rfl | hp
      · rw [hr] at h3
        exact h3 s hs
      · exact g3 p hp s hs

/-- Every byte of the files `fs`, file after file, the first of them at position `start`. -/
def filesBytes (fs : List FileEntry) (start : Nat) : List (Nat × Nat) :=
  (fs.zipIdx start).flatMap fun e => (List.range e.1.length.toInt.toNat).map (e.2, ·)

@[simp] theorem filesBytes_nil (start : Nat) : filesBytes [] start = [] := rfl

theorem filesBytes_cons (f : FileEntry) (fs : List FileEntry) (start : Nat) :
    filesBytes (f :: fs) start =
      (List.range f.length.toInt.toNat).map (start, ·) ++ filesBytes fs (start + 1) := by
  simp [filesBytes, List.zipIdx_cons]

/-- What a cursor at the start of the files has still to walk is every byte of them. -/
theorem bytesFrom_zipIdx (fs : List FileEntry) (start : Nat) :
    bytesFrom ((fs.zipIdx start).map fun e => (e.2, e.1)) 0 = filesBytes fs start := by
  induction fs generalizing start with
  | nil => rfl
  | cons f fs ih =>
    simp only [List.zipIdx_cons, List.map_cons, bytesFrom, filesBytes_cons, ← ih (start + 1),
      Nat.sub_zero, List.range_eq_range']

/-- Byte `b'` comes right after byte `b` in the content of `files`: the next offset of the same
file, or offset zero of a later file when `b` is the last byte of its file and every file between
is empty. -/
def NextByte (files : List FileEntry) (b b' : Nat × Nat) : Prop :=
  (b'.1 = b.1 ∧ b'.2 = b.2 + 1) ∨
    (b.1 < b'.1 ∧ b'.2 = 0 ∧ (∀ f ∈ files[b.1]?, f.length.toInt.toNat = b.2 + 1) ∧
      ∀ k, b.1 < k → k < b'.1 → ∀ f ∈ files[k]?, f.length.toInt.toNat = 0)

section Adjacent

variable (files : List FileEntry)

theorem drop_eq_cons {start : Nat} {f : FileEntry} {fs : List FileEntry}
    (h : files.drop start = f :: fs) : files[start]? = some f ∧ files.drop (start + 1) = fs := by
  have h0 := congrArg (·[0]?) h
  simp only [List.getElem?_drop, Nat.add_zero, List.getElem?_cons_zero] at h0
  refine ⟨h0, ?_⟩
  rw [← List.drop_drop, h]
  rfl

/-- The first byte of the files from position `start` on is at offset zero of the first of them
that is not empty. -/
theorem head?_filesBytes : ∀ (fs : List FileEntry) (start : Nat), files.drop start = fs →
    ∀ b ∈ (filesBytes fs start).head?,
      start ≤ b.1 ∧ b.2 = 0 ∧ ∀ k, start ≤ k → k < b.1 → ∀ f ∈ files[k]?, f.length.toInt.toNat = 0
  | [], _, _, b, hb => by simp at hb
  | f :: fs, start, hfs, b, hb => by
    obtain ⟨hf, hrest⟩ := drop_eq_cons files hfs
    rw [filesBytes_cons] at hb
    by_cases hzero : f.length.toInt.toNat = 0
    · -- an empty file is passed over
      rw [hzero, List.range_zero, List.map_nil, List.nil_append] at hb
      obtain ⟨h1, h2, h3⟩ := head?_filesBytes fs (start + 1) hrest b hb
      refine ⟨by omega, h2, fun k hk hkb g hg => ?_⟩
      rcases Nat.eq_or_lt_of_le hk with rfl | hk
      · rw [hf, Option.mem_def, Option.some.injEq] at hg
        exact hg ▸ hzero
      · exact h3 k hk hkb g hg
    · rw [List.head?_append, List.head?_map, List.head?_range, if_neg hzero] at hb
      simp only [Option.map_some, Option.some_or, Option.mem_def, Option.some.injEq] at hb
      subst hb
      exact ⟨le_refl _, rfl, fun k hk hkb => absurd hkb (by omega)⟩

/-- **Every byte of the content is followed by the next one**: the bytes of the files from
position `start` on run through each file in order and then on to the next file that is not
empty. -/
theorem isChain_filesBytes : ∀ (fs : List FileEntry) (start : Nat), files.drop start = fs →
    (filesBytes fs start).IsChain (NextByte files)
  | [], _, _ => by simp
  | f :: fs, start, hfs => by
    obtain ⟨hf, hrest⟩ := drop_eq_cons files hfs
    rw [filesBytes_cons]
    refine (List.isChain_map _).2 ?_ |>.append (isChain_filesBytes fs (start + 1) hrest) ?_
    · -- within the file, each offset is followed by the next
      exact (List.isChain_range _ _).2 fun m _ => .inl ⟨rfl, rfl⟩
    · -- from the last byte of the file to the first of the next file that is not empty
      intro x hx y hy
      rw [List.getLast?_map, List.getLast?_range] at hx
      split at hx
      · simp at hx
      simp only [Option.map_some, Option.mem_def, Option.some.injEq] at hx
      subst hx
      obtain ⟨h1, h2, h3⟩ := head?_filesBytes files fs (start + 1) hrest y hy
      refine .inr ⟨by dsimp only; omega, h2, ?_, fun k hk hky => h3 k hk hky⟩
      intro g hg
      rw [hf, Option.mem_def, Option.some.injEq] at hg
      subst hg
      dsimp only
      omega

/-- Sections whose last and first bytes are next to each other follow each other. -/
theorem follows_of_nextByte (hfiles : ∀ f ∈ files, 0 ≤ f.length.toInt) {s t : Section}
    (hs : s.Sane) (hs0 : 0 < s.length.toInt) (ht : t.Sane)
    (h : NextByte files (s.fileIndex, s.offset.toInt.toNat + s.length.toInt.toNat - 1)
      (t.fileIndex, t.offset.toInt.toNat)) : s.Follows files t := by
  obtain ⟨hs1, -, -⟩ := hs
  obtain ⟨ht1, -, -⟩ := ht
  rcases h with ⟨h1, h2⟩ | ⟨h1, h2, h3, h4⟩
  · exact .inl ⟨h1, by dsimp only at h2; omega⟩
  · refine .inr ⟨h1, by dsimp only at h2; omega, fun f hf => ?_, fun k hk hkt f hf => ?_⟩
    · have hlen := h3 f hf
      have hnn := hfiles f (List.mem_of_getElem? hf)
      dsimp only at hlen
      omega
    · have hlen := h4 k hk hkt f hf
      have hnn := hfiles f (List.mem_of_getElem? hf)
      omega

end Adjacent

end Layout

namespace Info

variable {info : Info}

/-- Every byte of a torrent's content, file after file: its file's position, with its offset in
the file. -/
def contentBytes (info : Info) : List (Nat × Nat) :=
  Layout.filesBytes info.getFiles 0

/-- A byte of the content is a byte of one of the files. -/
theorem mem_contentBytes {k o : Nat} :
    (k, o) ∈ info.contentBytes ↔ ∃ f, info.getFiles[k]? = some f ∧ o < f.length.toInt.toNat := by
  simp only [contentBytes, Layout.filesBytes, List.mem_flatMap, List.mem_map, List.mem_range,
    Prod.mk.injEq]
  constructor
  · rintro ⟨⟨f, j⟩, hmem, o', ho', rfl, rfl⟩
    obtain ⟨-, hj, hf⟩ := List.mem_zipIdx hmem
    exact ⟨f, by simp [hf], ho'⟩
  · rintro ⟨f, hf, ho⟩
    obtain ⟨hk, rfl⟩ := List.getElem?_eq_some_iff.1 hf
    exact ⟨(info.getFiles[k], k), List.mem_zipIdx_iff_getElem?.2 (by simp [hf]), o, ho, rfl, rfl⟩

/-- No byte of the content comes twice. -/
theorem nodup_contentBytes : info.contentBytes.Nodup := by
  unfold contentBytes Layout.filesBytes
  rw [List.nodup_flatMap]
  refine ⟨fun e _ => (List.nodup_range).map fun a b h => by simpa using h, ?_⟩
  -- blocks of different files are apart, and the files' positions are distinct
  have hpos : (info.getFiles.zipIdx.map (·.2)).Nodup := by
    rw [List.zipIdx_map_snd]
    exact List.nodup_range'
  refine (List.pairwise_map.1 hpos).imp fun {a b} hab => ?_
  simp only [Function.onFun, List.disjoint_iff_ne, List.mem_map]
  rintro _ ⟨x, -, rfl⟩ _ ⟨y, -, rfl⟩ h
  exact hab (Prod.mk.inj h).1

theorem length_contentBytes (info : Info) :
    info.contentBytes.length = ((info.getFiles.map (·.length.toInt.toNat)).sum) := by
  unfold contentBytes
  generalize 0 = start
  induction info.getFiles generalizing start with
  | nil => rfl
  | cons f fs ih => simp [Layout.filesBytes_cons, ih]

/-- The files of a torrent with pieces are walked from their start: a torrent with pieces has a
positive total, so its one file, when it has one, is not of negative length. -/
theorem Accepted.getFiles_nonneg (ha : info.Accepted) (hn : 0 < info.numPieces.toNat) :
    ∀ f ∈ info.getFiles, 0 ≤ f.length.toInt := by
  have hT := ha.total_pos_iff.2 hn
  have htotal := ha.total
  unfold getFiles multiFile
  cases hfs : info.files with
  | nil =>
    simp only [hfs, List.isEmpty_nil, ↓reduceIte] at htotal
    simp only [List.isEmpty_nil, Bool.not_true, Bool.false_eq_true, ↓reduceIte, List.mem_singleton]
    rintro f rfl
    rw [← htotal]
    exact hT.le
  | cons f fs =>
    simp only [List.isEmpty_cons, Bool.not_false, ↓reduceIte, List.mem_map]
    rintro _ ⟨g, hg, rfl⟩
    exact ha.files_nonneg g (hfs ▸ hg)

theorem layout_eq (info : Info) (n : Nat) :
    info.layout n = Layout.pieces info n 0 ⟨info.getFiles.zipIdx.map fun e => (e.2, e.1), 0⟩ :=
  rfl

/-- The pieces of the layout have the piece lengths, in order. -/
theorem layout_lengths (info : Info) :
    (info.layout info.numPieces.toNat).map (·.length.toNat) =
      (List.range info.numPieces.toNat).map fun j => (info.pieceLen j.toUInt32).toNat := by
  apply List.ext_getElem (by simp [length_layout])
  intro j h₁ _
  have hj : j < (info.layout info.numPieces.toNat).length := by simpa using h₁
  simp only [List.getElem_map, List.getElem_range]
  generalize hp : (info.layout info.numPieces.toNat)[j] = p
  obtain ⟨hidx, hlen, -⟩ := info.getElem?_layout (hp ▸ List.getElem?_eq_getElem hj)
  subst hidx
  simp only [hlen, Nat.toUInt32_eq, UInt32.ofNat_toNat]

/-- The pieces before piece `k` of an accepted torrent take `k` piece lengths. -/
theorem Accepted.sum_take_layout (ha : info.Accepted) {k : Nat} (hk : k ≤ info.numPieces.toNat) :
    (((info.layout info.numPieces.toNat).take k).map (·.length.toNat)).sum =
      min info.totalLength.toInt.toNat (info.pieceLength.toNat * k) := by
  rw [List.map_take, layout_lengths, ← List.map_take, List.take_range, min_eq_left hk,
    List.sum_map_range, ha.sum_pieceLen_range hk]

/-- **The layout covers the content.** The pieces of an accepted torrent cover, one after
another, the first bytes of its content, as many as its total length; piece `j` covers its
piece length from `j` piece lengths on; and no section is empty. -/
theorem Accepted.layout_bytes (ha : info.Accepted) :
    (info.layout info.numPieces.toNat).flatMap PieceLayout.bytes =
        info.contentBytes.take info.totalLength.toInt.toNat ∧
      (∀ j p, (info.layout info.numPieces.toNat)[j]? = some p →
        p.bytes = (info.contentBytes.drop (info.pieceLength.toNat * j)).take
          (info.pieceLen p.index).toNat) ∧
      ∀ p ∈ info.layout info.numPieces.toNat, ∀ s ∈ p.sections, 0 < s.length.toInt := by
  by_cases hn : info.numPieces.toNat = 0
  · -- no piece, and nothing of the total to cover
    have hT := ha.total_pos_iff.not.2 (by omega)
    simp [layout, Layout.pieces, hn, show info.totalLength.toInt.toNat = 0 by omega]
  have hw := info.walks_files (ha.getFiles_nonneg (by omega))
  obtain ⟨h1, h2, h3⟩ := Layout.pieces_bytes info info.numPieces.toNat 0 ⟨_, 0⟩ hw
  rw [← layout_eq] at h1 h2 h3
  simp only [Int64.toInt_zero, Int.toNat_zero, Layout.bytesFrom_zipIdx] at h1 h2
  refine ⟨?_, fun j p hp => ?_, h3⟩
  · have hall := ha.sum_take_layout (le_refl _)
    rw [List.take_of_length_le (by simp [length_layout]), min_eq_left (by
      have := ha.covers
      omega)] at hall
    exact h1.trans (by rw [hall]; rfl)
  · have hj : j < info.numPieces.toNat := by
      simpa [length_layout] using (List.getElem?_eq_some_iff.1 hp).1
    obtain ⟨-, hlen, -⟩ := info.getElem?_layout hp
    have hstart := ha.start_lt hj
    rw [h2 j p hp, ha.sum_take_layout hj.le, min_eq_right (by omega), hlen]
    rfl

theorem length_contentBytes_of_nonneg (h : ∀ f ∈ info.getFiles, 0 ≤ f.length.toInt) :
    (info.contentBytes.length : Int) = info.fileLengthSum := by
  rw [length_contentBytes, fileLengthSum]
  exact List.natCast_sum_map_toNat _ _ h

/-- The content of an accepted torrent whose file lengths add up to its total length has that
many bytes. -/
theorem Accepted.length_contentBytes (ha : info.Accepted)
    (hsum : info.fileLengthSum = info.totalLength.toInt) :
    info.contentBytes.length = info.totalLength.toInt.toNat := by
  by_cases hfs : info.files.isEmpty
  · -- one file, of the total length
    have htotal := ha.total
    rw [if_pos hfs] at htotal
    simp [Info.length_contentBytes, getFiles, multiFile, hfs, htotal]
  · have hnn : ∀ f ∈ info.getFiles, 0 ≤ f.length.toInt := by
      simp only [getFiles, multiFile, hfs, Bool.not_false, ↓reduceIte, List.mem_map]
      rintro _ ⟨g, hg, rfl⟩
      exact ha.files_nonneg g hg
    have := info.length_contentBytes_of_nonneg hnn
    omega

/-- The content of an accepted torrent with pieces has at least its total length. -/
theorem Accepted.total_le_length_contentBytes (ha : info.Accepted)
    (hn : 0 < info.numPieces.toNat) :
    info.totalLength.toInt.toNat ≤ info.contentBytes.length := by
  have h := info.length_contentBytes_of_nonneg (ha.getFiles_nonneg hn)
  have := ha.total_le.1
  omega

/-- **The sections of a piece add up to its length.** -/
theorem Accepted.sum_sections (ha : info.Accepted) {j : Nat} {p : PieceLayout}
    (hp : (info.layout info.numPieces.toNat)[j]? = some p) :
    (p.sections.map (·.length.toInt)).sum = (info.pieceLen p.index).toNat := by
  have hj : j < info.numPieces.toNat := by
    simpa [length_layout] using (List.getElem?_eq_some_iff.1 hp).1
  obtain ⟨-, hbytes, hpos⟩ := ha.layout_bytes
  obtain ⟨hidx, -, -⟩ := info.getElem?_layout hp
  have hi : p.index < info.numPieces := UInt32.lt_iff_toNat_lt.2 (by omega)
  have hlen := ha.pieceLen_toNat hi
  have hcover := ha.total_le_length_contentBytes (by omega)
  have hstart := ha.start_lt hj
  -- the piece's bytes are its piece length of the content, which reaches that far
  have hcount := congrArg List.length (hbytes j p hp)
  rw [PieceLayout.bytes, List.length_flatMap, List.length_take, List.length_drop] at hcount
  simp only [Section.length_bytes] at hcount
  rw [← List.natCast_sum_map_toNat _ _ fun s hs => (hpos p (List.mem_of_getElem? hp) s hs).le,
    hcount]
  rw [hidx] at hlen
  omega

/-- **The sections of the layout follow each other through the content**, piece after piece. -/
theorem Accepted.isChain_sections (ha : info.Accepted) :
    ((info.layout info.numPieces.toNat).flatMap PieceLayout.sections).IsChain
      (Section.Follows info.getFiles) := by
  by_cases hn : info.numPieces.toNat = 0
  · simp [layout, Layout.pieces, hn]
  have hfiles := ha.getFiles_nonneg (by omega)
  obtain ⟨hall, -, hpos⟩ := ha.layout_bytes
  have hsane := (info.layout_sections hfiles info.numPieces.toNat).1
  have hmem : ∀ s ∈ (info.layout info.numPieces.toNat).flatMap PieceLayout.sections,
      s.Sane ∧ 0 < s.length.toInt := by
    intro s hs
    obtain ⟨p, hp, hs⟩ := List.mem_flatMap.1 hs
    exact ⟨(hsane p hp s hs).1, hpos p hp s hs⟩
  -- the bytes of the sections, one after another, run through a prefix of the content
  have hchain : (((info.layout info.numPieces.toNat).flatMap PieceLayout.sections).map
      Section.bytes).flatten.IsChain (Layout.NextByte info.getFiles) := by
    rw [← List.flatMap_def, List.flatMap_assoc]
    exact hall ▸ (Layout.isChain_filesBytes _ _ 0 rfl).take _
  have hne : [] ∉ ((info.layout info.numPieces.toNat).flatMap PieceLayout.sections).map
      Section.bytes := by
    simp only [List.mem_map, not_exists, not_and]
    intro s hs h
    have := congrArg List.length h
    simp only [Section.length_bytes, List.length_nil] at this
    have := (hmem s hs).2
    omega
  rw [List.isChain_flatten hne, List.isChain_map] at hchain
  refine hchain.2.imp_of_mem_imp fun s t hs ht hst => ?_
  obtain ⟨hs1, hs2⟩ := hmem s hs
  refine Layout.follows_of_nextByte _ hfiles hs1 hs2 (hmem t ht).1 ?_
  exact hst _ (Section.getLast?_bytes hs2) _ (Section.head?_bytes (hmem t ht).2)

/-- **The layout cuts the content into the pieces.** For a torrent read from its info
dictionary whose file lengths add up to its total length: every section is not empty and lies
in one of the torrent's files, which is not empty either; the sections of piece `j` add up to
its length and cover, in order, its range of the content, from `j` piece lengths on; each
section follows the one before it through the content; every byte of every file is covered,
and only once; and the files that a piece's sections touch, or those of any slice of them, come
in strictly ascending order. -/
theorem layout_covers_files {b : List UInt8} (h : ofBytes b = .ok info)
    (hsum : info.fileLengthSum = info.totalLength.toInt) :
    (∀ p ∈ info.layout info.numPieces.toNat, ∀ s ∈ p.sections,
      0 < s.length.toInt ∧ ∃ f, info.getFiles[s.fileIndex]? = some f ∧ 0 < f.length.toInt) ∧
    (∀ j p, (info.layout info.numPieces.toNat)[j]? = some p →
      (p.sections.map (·.length.toInt)).sum = ((info.pieceLen p.index).toNat : Int) ∧
      p.bytes = (info.contentBytes.drop (info.pieceLength.toNat * j)).take
        (info.pieceLen p.index).toNat) ∧
    ((info.layout info.numPieces.toNat).flatMap PieceLayout.sections).IsChain
      (Section.Follows info.getFiles) ∧
    ((info.layout info.numPieces.toNat).flatMap PieceLayout.bytes).Nodup ∧
    (∀ k o, (k, o) ∈ (info.layout info.numPieces.toNat).flatMap PieceLayout.bytes ↔
      ∃ f, info.getFiles[k]? = some f ∧ o < f.length.toInt.toNat) ∧
    ∀ p ∈ info.layout info.numPieces.toNat,
      (Sections.fileIndexes p.sections).Pairwise (· < ·) ∧
      ∀ off len parts, Sections.slice p.sections off len = .ok parts →
        (Sections.fileIndexes parts).Pairwise (· < ·) := by
  have ha := accepted_of_ofBytes h
  obtain ⟨hall, hpiece, hpos⟩ := ha.layout_bytes
  have hcontent : (info.layout info.numPieces.toNat).flatMap PieceLayout.bytes =
      info.contentBytes := by
    rw [hall, List.take_of_length_le (ha.length_contentBytes hsum).le]
  have hchain := ha.isChain_sections
  -- a piece's sections are a run of the layout's, so they too come in file order
  have horder : ∀ p ∈ info.layout info.numPieces.toNat,
      (p.sections.map (·.fileIndex)).Pairwise (· ≤ ·) := by
    intro p hp
    have hinf : p.sections <:+:
        (info.layout info.numPieces.toNat).flatMap PieceLayout.sections := by
      rw [List.flatMap_def]
      exact List.infix_of_mem_flatten (List.mem_map_of_mem hp)
    rw [← List.isChain_iff_pairwise, List.isChain_map]
    exact ( List.IsChain.infix hchain hinf).imp fun {s t} hst => by
      rcases hst with ⟨h1, -⟩ | ⟨h1, -⟩ <;> omega
  refine ⟨fun p hp s hs => ?_, fun j p hp => ⟨ha.sum_sections hp, hpiece j p hp⟩, hchain,
    hcontent ▸ nodup_contentBytes, fun k o => by rw [hcontent, mem_contentBytes],
    fun p hp => ⟨Sections.fileIndexes_pairwise (horder p hp), fun off len parts hparts =>
      Sections.fileIndexes_pairwise
        (List.Pairwise.sublist (Sections.map_fileIndex_slice_sublist hparts) (horder p hp))⟩⟩
  -- the first byte of a section is a byte of its file
  have hs0 := hpos p hp s hs
  have hbyte : (s.fileIndex, s.offset.toInt.toNat) ∈ info.contentBytes := by
    rw [← hcontent]
    exact List.mem_flatMap.2 ⟨p, hp, List.mem_flatMap.2
      ⟨s, hs, List.mem_of_mem_head? (Section.head?_bytes hs0)⟩⟩
  obtain ⟨f, hf, ho⟩ := mem_contentBytes.1 hbyte
  exact ⟨hs0, f, hf, by omega⟩

/-- The info dictionary of three files of ten, none and ten bytes, in pieces of sixteen. -/
def threeFiles : List UInt8 :=
  ("d5:filesld6:lengthi10e4:pathl1:aeed6:lengthi0e4:pathl1:beed6:lengthi10e4:pathl1:ceee" ++
    "4:name1:d12:piece lengthi16e6:pieces40:").toUTF8.toList ++
    List.replicate 40 0 ++ "e".toUTF8.toList

/-- Three files of ten, none and ten bytes: the pieces cover the last byte of the third file, and
nothing of the empty second one. -/
theorem layout_covers_threeFiles : ∃ info, ofBytes threeFiles = .ok info ∧
    info.fileLengthSum = info.totalLength.toInt ∧ info.numPieces = 2 ∧
    (2, 9) ∈ (info.layout 2).flatMap PieceLayout.bytes ∧
    ∀ o, (1, o) ∉ (info.layout 2).flatMap PieceLayout.bytes := by
  have hok : ((ofBytes threeFiles).toOption.any fun info =>
      info.numPieces == 2 && info.totalLength.toInt == 20 &&
        info.getFiles.map (·.length.toInt) == [10, 0, 10]) = true := by
    decide +kernel
  obtain ⟨info, hinfo, hfacts⟩ := Except.toOption_any_eq_true.1 hok
  simp only [Bool.and_eq_true, beq_iff_eq] at hfacts
  obtain ⟨⟨hn, htotal⟩, hlens⟩ := hfacts
  have hsum : info.fileLengthSum = info.totalLength.toInt := by
    rw [fileLengthSum, hlens, htotal]
    rfl
  obtain ⟨-, -, -, -, hmem, -⟩ := layout_covers_files hinfo hsum
  have hlen : ∀ k : Nat, (info.getFiles[k]?).map (fun f : FileEntry => f.length.toInt) =
      ([10, 0, 10] : List Int)[k]? := by
    intro k
    rw [← hlens, List.getElem?_map]
  rw [hn] at hmem
  refine ⟨info, hinfo, hsum, hn, (hmem 2 9).2 ?_, fun o ho => ?_⟩
  · have h2 := hlen 2
    obtain ⟨f, hf, hf10⟩ := Option.map_eq_some_iff.1 h2
    exact ⟨f, hf, by rw [hf10]; decide⟩
  · obtain ⟨f, hf, ho⟩ := (hmem 1 o).1 ho
    have h1 := hlen 1
    rw [hf, Option.map_some, List.getElem?_cons_succ, List.getElem?_cons_zero,
      Option.some.injEq] at h1
    rw [h1] at ho
    exact absurd ho (Nat.not_lt_zero o)

end Info

end BitTorrent
