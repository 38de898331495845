import BitTorrent.Storage.FileStore
import BitTorrent.Storage.Section
import Mathlib

/-!
# What a write leaves alone

A write to a file changes only the bytes it covers, and a write over sections of files only the
files and ranges of those sections. So a read that found all its bytes finds the same bytes after
a write whose ranges are apart from it:

* a file read whole at a range reads the same once another range is overwritten
  (`MemFile.readAt_writeAt`);
* reading sections that all read whole gives the same bytes from files that agree on them
  (`Sections.readAll_congr`);
* a write over a slice of sections keeps what a file reads whole at a range apart from every
  section of that file (`Sections.writeAt_frame`), in a store where replacing a file leaves the
  other names' files alone (`FileStore.Separate`), as the store in memory does
  (`MemStore.separate`).

Offsets and lengths of sections are 64-bit. A slice of sections that are `Section.Sane` (no
negative offset or length, no end past the 64-bit range) covers parts of them only
(`Sections.slice_within`), with no arithmetic that wraps.
-/

namespace BitTorrent

namespace Int64

/-! Differences of values that are not negative, and sums that fit, do not wrap. -/

theorem toInt_sub_of_nonneg {a b : Int64} (ha : 0 ≤ a.toInt) (hb : 0 ≤ b.toInt) :
    (a - b).toInt = a.toInt - b.toInt := by
  have h1 := Int64.toInt_le a
  have h2 := Int64.toInt_le b
  simp only [Int64.toInt_maxValue] at h1 h2
  rw [Int64.toInt_sub]
  exact Int.bmod_eq_of_le (by omega) (by omega)

theorem toInt_add_of_lt {a b : Int64} (ha : 0 ≤ a.toInt) (hb : 0 ≤ b.toInt)
    (h : a.toInt + b.toInt < 2 ^ 63) : (a + b).toInt = a.toInt + b.toInt := by
  rw [Int64.toInt_add]
  exact Int.bmod_eq_of_le (by omega) (by omega)

end Int64

namespace MemFile

theorem readAt_zero (f : MemFile) (o : Nat) : (f.readAt o 0).1 = [] := by
  unfold readAt
  split
  · rfl
  split <;> simp

theorem readAt_full {f : MemFile} {o n : Nat} (h : (f.readAt o n).1.length = n) (hn : 0 < n) :
    f.failRead = false ∧ o + n ≤ f.data.length ∧ (f.readAt o n).1 = (f.data.drop o).take n := by
  unfold readAt at h ⊢
  split at h
  · simp at h; omega
  rename_i hfail
  split at h
  · simp at h; omega
  rename_i hlt
  simp only [List.length_take, List.length_drop] at h
  refine ⟨Bool.eq_false_iff.2 hfail, by omega, ?_⟩
  simp [hfail, hlt]

theorem length_overwrite (data p : List UInt8) (off : Nat) :
    (overwrite data p off).length = max data.length (off + p.length) := by
  simp only [overwrite, List.length_append, List.length_take, List.length_drop,
    List.length_replicate]
  omega

theorem getElem?_overwrite_of_lt {data p : List UInt8} {off j : Nat} (hj : j < off)
    (hd : j < data.length) : (overwrite data p off)[j]? = data[j]? := by
  have hpad : (data ++ List.replicate (off + p.length - data.length) 0)[j]? = data[j]? :=
    List.getElem?_append_left hd
  simp only [overwrite, List.append_assoc]
  rw [List.getElem?_append_left (by simp; omega), List.getElem?_take_of_lt hj, hpad]

theorem getElem?_overwrite_of_ge {data p : List UInt8} {off j : Nat} (hj : off + p.length ≤ j)
    (hd : j < data.length) : (overwrite data p off)[j]? = data[j]? := by
  have hpad : (data ++ List.replicate (off + p.length - data.length) 0)[j]? = data[j]? :=
    List.getElem?_append_left hd
  have hlen : ((data ++ List.replicate (off + p.length - data.length) 0).take off ++ p).length =
      off + p.length := by simp; omega
  simp only [overwrite]
  rw [List.getElem?_append_right (by omega), hlen, List.getElem?_drop,
    Nat.add_sub_cancel' hj, hpad]


theorem take_drop_overwrite {data p : List UInt8} {a o n : Nat} (hon : o + n ≤ data.length)
    (hapart : o + n ≤ a ∨ a + p.length ≤ o) :
    ((overwrite data p a).drop o).take n = (data.drop o).take n := by
  apply List.ext_getElem?
  intro i
  simp only [List.getElem?_take, List.getElem?_drop]
  split
  · rcases hapart with h | h
    · exact getElem?_overwrite_of_lt (by omega) (by omega)
    · exact getElem?_overwrite_of_ge (by omega) (by omega)
  · rfl

/-- A read that finds all its bytes finds the same bytes once a range apart from it is
overwritten. -/
theorem readAt_overwrite {f : MemFile} {p : List UInt8} {a o n : Nat}
    (hfull : (f.readAt o n).1.length = n) (hapart : o + n ≤ a ∨ a + p.length ≤ o) :
    ({ f with data := overwrite f.data p a }.readAt o n).1 = (f.readAt o n).1 := by
  rcases Nat.eq_zero_or_pos n with rfl | hn
  · rw [readAt_zero, readAt_zero]
  obtain ⟨hfail, hon, hread⟩ := readAt_full hfull hn
  have hlen : f.data.length ≤ (overwrite f.data p a).length := by
    rw [length_overwrite]
    omega
  rw [hread, ← take_drop_overwrite hon hapart]
  unfold readAt
  simp only [hfail, Bool.false_eq_true, if_false]
  rw [if_neg (by omega)]

theorem readAt_writeAt {f : MemFile} {p : List UInt8} {a o n : Nat}
    (hfull : (f.readAt o n).1.length = n) (hapart : o + n ≤ a ∨ a + p.length ≤ o) :
    ((f.writeAt p a).1.readAt o n).1 = (f.readAt o n).1 := by
  unfold writeAt
  split
  · rfl
  dsimp only
  apply readAt_overwrite hfull
  split
  · have := List.length_take_le' f.shortWrite p
    omega
  · exact hapart

end MemFile

namespace Section

/-- The section's offset and length are not negative, and its end is a 64-bit offset. -/
def Sane (s : Section) : Prop :=
  0 ≤ s.offset.toInt ∧ 0 ≤ s.length.toInt ∧ s.offset.toInt + s.length.toInt < 2 ^ 63

/-- Section `t` covers part of the range of section `s`, in the same file. -/
def Within (t s : Section) : Prop :=
  t.fileIndex = s.fileIndex ∧ 0 ≤ t.length.toInt ∧ s.offset.toInt ≤ t.offset.toInt ∧
    t.offset.toInt + t.length.toInt ≤ s.offset.toInt + s.length.toInt

theorem Within.sane {t s : Section} (h : t.Within s) (hs : s.Sane) : t.Sane := by
  obtain ⟨-, h1, h2, h3⟩ := h
  obtain ⟨h4, h5, h6⟩ := hs
  exact ⟨by omega, h1, by omega⟩

theorem Within.trans {u t s : Section} (h₁ : u.Within t) (h₂ : t.Within s) : u.Within s := by
  obtain ⟨h1, h2, h3, h4⟩ := h₁
  obtain ⟨h5, h6, h7, h8⟩ := h₂
  exact ⟨h1.trans h5, h2, by omega, by omega⟩

/-- A range apart from a section is apart from every part of it. -/
theorem Within.apart {t s : Section} (h : t.Within s) {o n : Nat}
    (hs : o + n ≤ s.offset.toInt.toNat ∨ s.offset.toInt.toNat + s.length.toInt.toNat ≤ o) :
    o + n ≤ t.offset.toInt.toNat ∨ t.offset.toInt.toNat + t.length.toInt.toNat ≤ o := by
  obtain ⟨-, h1, h2, h3⟩ := h
  omega

/-- Parts of two sections that share no byte share no byte. -/
theorem Within.apart_of_apart {t s u s' : Section} (ht : t.Within s) (hu : u.Within s')
    (hs : s.Sane) (hs' : s'.Sane)
    (h : s.offset.toInt + s.length.toInt ≤ s'.offset.toInt ∨
      s'.offset.toInt + s'.length.toInt ≤ s.offset.toInt) :
    t.offset.toInt.toNat + t.length.toInt.toNat ≤ u.offset.toInt.toNat ∨
      u.offset.toInt.toNat + u.length.toInt.toNat ≤ t.offset.toInt.toNat := by
  obtain ⟨-, ht1, ht2, ht3⟩ := ht
  obtain ⟨-, hu1, hu2, hu3⟩ := hu
  obtain ⟨hs1, hs2, -⟩ := hs
  obtain ⟨hs1', hs2', -⟩ := hs'
  omega

end Section

namespace Sections

/-- Each section of a cut covers part of one of the sections cut. -/
theorem cut_within (ss : List Section) (hss : ∀ s ∈ ss, s.Sane) :
    ∀ off len : Int64, 0 ≤ off.toInt → 0 ≤ len.toInt →
      ∀ t ∈ cut ss off len, ∃ s ∈ ss, t.Within s := by
  induction ss with
  | nil => simp [cut]
  | cons s rest ih =>
    intro off len hoff hlen t ht
    have hrest := ih fun u hu => hss u (List.mem_cons_of_mem s hu)
    obtain ⟨hs1, hs2, hs3⟩ := hss s List.mem_cons_self
    unfold cut at ht
    split at ht
    · simp at ht
    split at ht
    · -- the range starts past this section
      rename_i hge
      rw [ge_iff_le, Int64.le_iff_toInt_le] at hge
      obtain ⟨u, hu, hw⟩ := hrest (off - s.length) len
        (by rw [Int64.toInt_sub_of_nonneg hoff hs2]; omega) hlen t ht
      exact ⟨u, List.mem_cons_of_mem s hu, hw⟩
    · -- the range starts in this section, which gives the first piece of it
      rename_i hlt
      rw [ge_iff_le, Int64.le_iff_toInt_le] at hlt
      have hleft : (s.length - off).toInt = s.length.toInt - off.toInt :=
        Int64.toInt_sub_of_nonneg hs2 hoff
      have hn : ∀ n : Int64, n = (if s.length - off > len then len else s.length - off) →
          0 ≤ n.toInt ∧ n.toInt ≤ len.toInt ∧ n.toInt ≤ s.length.toInt - off.toInt := by
        intro n hn
        subst hn
        split
        · rename_i hgt
          rw [gt_iff_lt, Int64.lt_iff_toInt_lt, hleft] at hgt
          omega
        · rename_i hgt
          rw [gt_iff_lt, Int64.lt_iff_toInt_lt, hleft] at hgt
          rw [hleft]
          omega
      generalize hdef : (if s.length - off > len then len else s.length - off) = n at ht
      obtain ⟨hn1, hn2, hn3⟩ := hn n hdef.symm
      rcases List.mem_cons.1 ht with rfl | ht
      · refine ⟨s, List.mem_cons_self, rfl, hn1, ?_, ?_⟩ <;>
          simp only [Int64.toInt_add_of_lt hs1 hoff (by omega)] <;> omega
      · obtain ⟨u, hu, hw⟩ := hrest 0 (len - n) (by simp)
          (by rw [Int64.toInt_sub_of_nonneg hlen hn1]; omega) t ht
        exact ⟨u, List.mem_cons_of_mem s hu, hw⟩

/-- Each section of a slice covers part of one of the sections sliced. -/
theorem slice_within {ss parts : List Section} {off len : Int64} (hss : ∀ s ∈ ss, s.Sane)
    (h : slice ss off len = .ok parts) : ∀ t ∈ parts, ∃ s ∈ ss, t.Within s := by
  unfold slice at h
  split at h
  · cases h
  · rename_i hin
    simp only [Bool.or_eq_true, decide_eq_true_eq, not_or] at hin
    obtain ⟨⟨hoff, hlen⟩, -⟩ := hin
    rw [Int64.lt_iff_toInt_lt] at hoff hlen
    cases h
    exact cut_within ss hss off len (by simp at hoff; omega) (by simp at hlen; omega)

/-- Reading sections that all read whole gives the same bytes from files that read the same
over every section read whole. -/
theorem readAll_congr {file file' : Nat → MemFile} {ss : List Section} {data : List UInt8}
    (h : ∀ s ∈ ss,
      ((file s.fileIndex).readAt s.offset.toInt.toNat s.length.toInt.toNat).1.length =
          s.length.toInt.toNat →
        ((file' s.fileIndex).readAt s.offset.toInt.toNat s.length.toInt.toNat).1 =
          ((file s.fileIndex).readAt s.offset.toInt.toNat s.length.toInt.toNat).1)
    (hr : readAll file ss = (data, none)) : readAll file' ss = (data, none) := by
  induction ss generalizing data with
  | nil => exact hr
  | cons s rest ih =>
    obtain ⟨got, err, hs⟩ : ∃ got err,
        (file s.fileIndex).readAt s.offset.toInt.toNat s.length.toInt.toNat = (got, err) :=
      ⟨_, _, rfl⟩
    obtain ⟨more, err', hrest⟩ : ∃ more err', readAll file rest = (more, err') := ⟨_, _, rfl⟩
    simp only [readAll, hs, hrest] at hr
    -- a section read short ends the data with a failure, so this one read whole
    split at hr
    · rename_i hlen
      have hgot : got.length = s.length.toInt.toNat := by simpa using hlen
      simp only [Prod.mk.injEq] at hr
      obtain ⟨rfl, rfl⟩ := hr
      obtain ⟨got', err'', hs'⟩ : ∃ got' err'',
          (file' s.fileIndex).readAt s.offset.toInt.toNat s.length.toInt.toNat = (got', err'') :=
        ⟨_, _, rfl⟩
      have hsame := h s List.mem_cons_self (by rw [hs]; exact hgot)
      rw [hs, hs'] at hsame
      have hrest' := ih (fun t ht => h t (List.mem_cons_of_mem s ht)) hrest
      simp only at hsame
      subst hsame
      simp only [readAll, hs', hrest', hlen, if_true]
    · simp at hr

section

variable {σ : Type} {get : σ → Nat → MemFile} {put : σ → Nat → MemFile → σ} {j o n : Nat}

/-- Writing over sections keeps what file `j` reads whole at `o`, when replacing a file of the
store changes file `j` only to the file written, and every section written in file `j` is apart
from the range read. -/
theorem writeAll_frame (ss : List Section)
    (hput : ∀ s ∈ ss, ∀ st f, get (put st s.fileIndex f) j = get st j ∨
      (s.fileIndex = j ∧ get (put st s.fileIndex f) j = f))
    (hapart : ∀ s ∈ ss, s.fileIndex = j →
      o + n ≤ s.offset.toInt.toNat ∨ s.offset.toInt.toNat + s.length.toInt.toNat ≤ o)
    (st : σ) (p : List UInt8) (hfull : ((get st j).readAt o n).1.length = n) :
    ((get (writeAll get put st p ss).1 j).readAt o n).1 = ((get st j).readAt o n).1 := by
  induction ss generalizing st p with
  | nil => rfl
  | cons s rest ih =>
    obtain ⟨f, m, err, hw⟩ : ∃ f m err, (get st s.fileIndex).writeAt
        (p.take s.length.toInt.toNat) s.offset.toInt.toNat = (f, m, err) := ⟨_, _, _, rfl⟩
    -- the one file this section replaces still reads the same
    have hkeep : ((get (put st s.fileIndex f) j).readAt o n).1 = ((get st j).readAt o n).1 := by
      rcases hput s List.mem_cons_self st f with h | ⟨hj, h⟩
      · rw [h]
      · subst hj
        have hf : f = ((get st s.fileIndex).writeAt
            (p.take s.length.toInt.toNat) s.offset.toInt.toNat).1 := by rw [hw]
        rw [h, hf]
        apply MemFile.readAt_writeAt hfull
        have := List.length_take_le s.length.toInt.toNat p
        have := hapart s List.mem_cons_self rfl
        omega
    have hrest := ih (fun t ht => hput t (List.mem_cons_of_mem s ht))
      (fun t ht => hapart t (List.mem_cons_of_mem s ht)) (put st s.fileIndex f)
    simp only [writeAll, hw]
    split
    · exact hkeep
    · split
      · exact hkeep
      · obtain ⟨st', k, e, hrec⟩ : ∃ st' k e,
            writeAll get put (put st s.fileIndex f) (p.drop m) rest = (st', k, e) :=
          ⟨_, _, _, rfl⟩
        have := hrest (p.drop m) (by rw [hkeep]; exact hfull)
        rw [hrec] at this
        simp only [hrec]
        exact this.trans hkeep

/-- Writing at an offset of sections keeps what file `j` reads whole at `o`, when every section
in file `j` is apart from the range read. -/
theorem writeAt_frame {ss : List Section} (hss : ∀ s ∈ ss, s.Sane)
    (hput : ∀ s ∈ ss, ∀ st f, get (put st s.fileIndex f) j = get st j ∨
      (s.fileIndex = j ∧ get (put st s.fileIndex f) j = f))
    (hapart : ∀ s ∈ ss, s.fileIndex = j →
      o + n ≤ s.offset.toInt.toNat ∨ s.offset.toInt.toNat + s.length.toInt.toNat ≤ o)
    (st : σ) (p : List UInt8) (off : Int64) (hfull : ((get st j).readAt o n).1.length = n) :
    ((get (writeAt get put st ss p off).1 j).readAt o n).1 = ((get st j).readAt o n).1 := by
  unfold writeAt
  split
  · rfl
  · rename_i parts hslice
    have hwithin := slice_within hss hslice
    apply writeAll_frame parts _ _ st p hfull
    · intro t ht
      obtain ⟨s, hs, hts⟩ := hwithin t ht
      rw [hts.1]
      exact hput s hs
    · intro t ht htj
      obtain ⟨s, hs, hts⟩ := hwithin t ht
      exact hts.apart (hapart s hs (hts.1 ▸ htj))

end

/-- A read at an offset of sections that ends with no failure read the sections of the slice
whole. -/
theorem readAt_eq_none {file : Nat → MemFile} {ss : List Section} {off : Int64} {n : Nat}
    {data : List UInt8} (h : readAt file ss off n = (data, none)) :
    ∃ parts, slice ss off (Int64.ofNat n) = .ok parts ∧ readAll file parts = (data, none) := by
  unfold readAt at h
  split at h
  · cases h
  · rename_i parts hslice
    exact ⟨parts, hslice, h⟩

end Sections

/-- A store whose files change only by `put`: replacing a file leaves the files of every other
name as they were, and the file replaced becomes the new contents, or stays as it was. -/
structure FileStore.Separate {σ : Type} (fs : FileStore σ) : Prop where
  get_put_of_ne : ∀ st n m f, n ≠ m → fs.get (fs.put st n f) m = fs.get st m
  get_put_self : ∀ st n f, fs.get (fs.put st n f) n = f ∨ fs.get (fs.put st n f) n = fs.get st n

namespace MemStore

theorem get_put (st : MemStore) (n m : List UInt8) (f : MemFile) :
    (st.put n f).get m = if n = m ∧ (st.files.find? (·.1 == m)).isSome then f else st.get m := by
  unfold get put
  rw [List.find?_map]
  -- replacing the file of `n` changes no name, so the search finds the same entry
  have hpred : ((fun e : List UInt8 × MemFile => e.1 == m) ∘
      fun e => if e.1 == n then (n, f) else e) = (·.1 == m) := by
    funext e
    by_cases he : e.1 = n
    · subst he
      simp
    · simp [he]
  rw [hpred]
  cases hfind : st.files.find? (·.1 == m) with
  | none => simp
  | some e =>
    have hm : e.1 = m := by simpa using List.find?_some hfind
    by_cases hnm : n = m
    · subst hnm
      simp [hm]
    · simp [hm, hnm, Ne.symm hnm]

/-- The store in memory replaces files by name and nothing else. -/
theorem separate : MemStore.fileStore.Separate where
  get_put_of_ne st n m f h := by
    show (st.put n f).get m = st.get m
    rw [get_put, if_neg (fun h' => h h'.1)]
  get_put_self st n f := by
    show (st.put n f).get n = f ∨ (st.put n f).get n = st.get n
    rw [get_put]
    split
    · exact .inl rfl
    · exact .inr rfl

end MemStore

end BitTorrent
