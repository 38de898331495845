import BitTorrent.Proofs.Storage.Slice

/-!
# Reading and writing a range of sections

Reading a range of sections reads the sections of its slice one after another, each from its
file; writing a range writes them one after another. The file read of a section
(`Section.read`) is whole when it returns as many bytes as the section is long
(`Section.ReadsWhole`); the file write of a section is whole when it stores every byte it is
given, with no error (`Section.WritesWhole`).

* A read of sections that all read whole gives their bytes one after another, and no error
  (`Sections.readAll_of_whole`); these are the bytes that the one-byte units of the sections
  name in their files (`Section.map_some_read`), and a range of them that reads with no error
  gives the bytes its units name (`Sections.readAll_cut_bytes`). Otherwise the read stops at the first section
  that comes short, with the bytes read up to and including it and that section's error, or an
  unexpected end of data when its file reported none or the end of data
  (`Sections.readAll_of_short`).
* A write of sections that all write whole stores every byte (`Sections.writeAll_of_whole`);
  otherwise it stops at the first one that does not, with the file's error, or a short write
  when the file stored fewer bytes without one (`Sections.writeAll_of_short`).
* A write that stores everything over sections that share no byte (`Section.Disjoint`) reads
  back as written (`Sections.readAll_writeAll`); a slice of such sections shares no byte either
  (`Sections.pairwise_disjoint_cut`).

`Sections.io_contract` puts these together for a range within sections whose total length fits
64 bits (`Sections.IoContract`). Past that bound the total wraps and every read is refused
(`Sections.wrapped_total_refuses_read`).
-/

namespace BitTorrent

/-- The error a read of sections reports at a section its file returned short: the file's
error, or an unexpected end of data when the file reported none or the end of data. -/
def IoError.ofShortSection : Option IoError → IoError
  | none => .unexpectedEof
  | some .eof => .unexpectedEof
  | some e => e

namespace Section

variable (file : Nat → MemFile)

/-- The file read of a section: the bytes its file returns for the section's range, and the
file's error. -/
def read (s : Section) : List UInt8 × Option IoError :=
  (file s.fileIndex).readAt s.offset.toInt.toNat s.length.toInt.toNat

/-- The file returns the whole of the section. -/
def ReadsWhole (s : Section) : Prop :=
  (s.read file).1.length = s.length.toInt.toNat

instance : DecidablePred (ReadsWhole file) := fun _ =>
  inferInstanceAs (Decidable (_ = _))

/-- The file stores, with no error, all of any bytes written over the section. -/
def WritesWhole (s : Section) : Prop :=
  ∀ q : List UInt8, q.length = s.length.toInt.toNat →
    ((file s.fileIndex).writeAt q s.offset.toInt.toNat).2 = (q.length, none)

/-- The byte that the one-byte section `u` names, as its file holds it. -/
def byteIn (u : Section) : Option UInt8 :=
  (file u.fileIndex).data[u.offset.toInt.toNat]?

end Section

/-- Two sections share no byte: one of them is empty, they lie in different files, or one ends
where or before the other starts. -/
def Section.Disjoint (s t : Section) : Prop :=
  s.length.toInt = 0 ∨ t.length.toInt = 0 ∨ s.fileIndex ≠ t.fileIndex ∨
    s.offset.toInt + s.length.toInt ≤ t.offset.toInt ∨
    t.offset.toInt + t.length.toInt ≤ s.offset.toInt

/-! ## One section -/

namespace MemFile

theorem length_readAt_le (f : MemFile) (o n : Nat) : (f.readAt o n).1.length ≤ n := by
  unfold readAt
  split
  · simp
  split
  · simp
  · exact List.length_take_le _ _

/-- A file write changes the data only. -/
theorem writeAt_fst (f : MemFile) (q : List UInt8) (o : Nat) :
    ∃ data, (f.writeAt q o).1 = { f with data } := by
  unfold writeAt
  split
  · exact ⟨f.data, rfl⟩
  · exact ⟨_, rfl⟩

/-- What a file write reports: nothing stored and the write failure, or as many bytes as the
bound on one write lets through. -/
theorem writeAt_snd (f : MemFile) (q : List UInt8) (o : Nat) :
    (f.writeAt q o).2 = if f.failWrite then (0, some writeFailure)
      else (if f.shortWrite > 0 then min f.shortWrite q.length else q.length, none) := by
  unfold writeAt
  split
  · rfl
  · split <;> simp

/-- A file write keeps how the file fails. -/
theorem writeAt_flags (f : MemFile) (q : List UInt8) (o : Nat) :
    (f.writeAt q o).1.failRead = f.failRead ∧ (f.writeAt q o).1.failWrite = f.failWrite ∧
      (f.writeAt q o).1.shortWrite = f.shortWrite := by
  obtain ⟨data, h⟩ := writeAt_fst f q o
  rw [h]
  exact ⟨rfl, rfl, rfl⟩

/-- Writing one file of a store keeps how every file of it fails. -/
theorem flags_update_writeAt (file : Nat → MemFile) (k j o : Nat) (q : List UInt8) :
    (Function.update file k ((file k).writeAt q o).1 j).failRead = (file j).failRead ∧
      (Function.update file k ((file k).writeAt q o).1 j).failWrite = (file j).failWrite ∧
      (Function.update file k ((file k).writeAt q o).1 j).shortWrite = (file j).shortWrite := by
  by_cases hj : j = k
  · subst hj
    rw [Function.update_self]
    exact writeAt_flags _ _ _
  · rw [Function.update_of_ne hj]
    exact ⟨rfl, rfl, rfl⟩

/-- Overwriting bytes puts them where they were written. -/
theorem take_drop_overwrite_self (data q : List UInt8) (o : Nat) :
    ((overwrite data q o).drop o).take q.length = q := by
  have hpad : ((data ++ List.replicate (o + q.length - data.length) 0).take o).length = o := by
    simp only [List.length_take, List.length_append, List.length_replicate]
    omega
  simp only [overwrite, List.append_assoc]
  rw [List.drop_append_of_le_length (by omega), List.drop_of_length_le (by omega),
    List.nil_append, List.take_left']
  rfl

/-- A file write that stores every byte reads back as written, from a file that does not fail
its reads. -/
theorem readAt_writeAt_self {f : MemFile} {q : List UInt8} {o : Nat} (hr : f.failRead = false)
    (hw : (f.writeAt q o).2 = (q.length, none)) (hq : 0 < q.length) :
    (f.writeAt q o).1.readAt o q.length = (q, none) := by
  unfold writeAt at hw ⊢
  split
  · rename_i hfail
    simp [hfail] at hw
  · rename_i hfail
    -- the bound on one write lets all of `q` through
    have hkeep : (if f.shortWrite > 0 then q.take f.shortWrite else q) = q := by
      rw [if_neg hfail] at hw
      split
      · rename_i hpos
        rw [if_pos hpos] at hw
        simp only [Prod.mk.injEq] at hw
        exact List.take_of_length_le (by simp at hw; omega)
      · rfl
    rw [hkeep]
    have hlen := length_overwrite f.data q o
    unfold readAt
    simp only [hr, Bool.false_eq_true, if_false]
    rw [if_neg (by omega), take_drop_overwrite_self, if_neg (Nat.lt_irrefl _)]

end MemFile

namespace Section

variable {file : Nat → MemFile}

theorem length_read_le (s : Section) : (s.read file).1.length ≤ s.length.toInt.toNat :=
  MemFile.length_readAt_le _ _ _

/-- A section read whole comes from a file that does not fail its reads and holds the whole
range, and the read reports no error. -/
theorem read_of_readsWhole {s : Section} (h : s.ReadsWhole file) (hpos : 0 < s.length.toInt) :
    (file s.fileIndex).failRead = false ∧
      s.offset.toInt.toNat + s.length.toInt.toNat ≤ (file s.fileIndex).data.length ∧
      s.read file = (((file s.fileIndex).data.drop s.offset.toInt.toNat).take
        s.length.toInt.toNat, none) := by
  obtain ⟨hfail, hlen, hread⟩ := MemFile.readAt_full h (by omega)
  refine ⟨hfail, hlen, Prod.ext hread ?_⟩
  unfold read MemFile.readAt
  rw [if_neg (by simp [hfail]), if_neg (by omega)]
  simp only [List.length_take, List.length_drop]
  rw [if_neg (by omega)]

/-- **A section read whole gives the bytes its units name.** -/
theorem map_some_read {s : Section} (hs : s.Sane) (h : s.ReadsWhole file) :
    (s.read file).1.map some = s.units.map (byteIn file) := by
  obtain ⟨h1, h2, h3⟩ := hs
  rcases h2.lt_or_eq with hpos | h0
  swap
  · have hn : s.length.toInt.toNat = 0 := by omega
    have hread : (s.read file).1 = [] := by
      unfold read
      rw [hn]
      exact MemFile.readAt_zero _ _
    have hunits : s.units = [] := List.eq_nil_of_length_eq_zero (by rw [length_units]; exact hn)
    rw [hread, hunits]
    rfl
  obtain ⟨-, hlen, hread⟩ := read_of_readsWhole h hpos
  rw [hread]
  apply List.ext_getElem
  · simp only [List.length_map, List.length_take, List.length_drop, length_units]
    omega
  · intro k hk1 hk2
    simp only [List.length_map, length_units] at hk2
    -- the unit at `k` sits `k` bytes past the section's offset, with no wrap
    have hoff : (s.offset + Int64.ofNat k).toInt.toNat = s.offset.toInt.toNat + k := by
      rw [Int64.toInt_add_of_lt h1 (by rw [Int64.toInt_ofNat_of_lt (by omega)]; omega)
        (by rw [Int64.toInt_ofNat_of_lt (by omega)]; omega), Int64.toInt_ofNat_of_lt (by omega)]
      omega
    simp only [units, List.getElem_map, List.getElem_range, List.getElem_take, List.getElem_drop,
      byteIn, hoff]
    rw [List.getElem?_eq_getElem (by omega)]

/-- A section writes whole exactly when its file does not fail its writes and lets a whole
section through in one write. -/
theorem writesWhole_iff {s : Section} : s.WritesWhole file ↔
    (file s.fileIndex).failWrite = false ∧
      ((file s.fileIndex).shortWrite = 0 ∨ s.length.toInt.toNat ≤ (file s.fileIndex).shortWrite) := by
  constructor
  · intro h
    have hw := h (List.replicate s.length.toInt.toNat 0) (by simp)
    rw [MemFile.writeAt_snd] at hw
    split at hw
    · simp at hw
    · rename_i hfail
      refine ⟨by simpa using hfail, ?_⟩
      split at hw
      · simp only [List.length_replicate, Prod.mk.injEq, and_true] at hw
        omega
      · omega
  · rintro ⟨hfail, hshort⟩ q hq
    rw [MemFile.writeAt_snd, if_neg (by simp [hfail])]
    split
    · simp
      omega
    · simp

instance : DecidablePred (WritesWhole file) := fun _ => decidable_of_iff _ writesWhole_iff.symm

/-- Writing one file of a store keeps which sections write whole. -/
theorem writesWhole_update {s : Section} {k o : Nat} {q : List UInt8} :
    s.WritesWhole (Function.update file k ((file k).writeAt q o).1) ↔ s.WritesWhole file := by
  obtain ⟨-, h1, h2⟩ := MemFile.flags_update_writeAt file k s.fileIndex o q
  rw [writesWhole_iff, writesWhole_iff, h1, h2]

/-- Two sections of one file that share no byte and are not empty lie one before the other. -/
theorem Disjoint.apart {s t : Section} (h : s.Disjoint t) (hs : s.Sane) (ht : t.Sane)
    (hs0 : 0 < s.length.toInt) (ht0 : 0 < t.length.toInt) (hfile : t.fileIndex = s.fileIndex) :
    s.offset.toInt.toNat + s.length.toInt.toNat ≤ t.offset.toInt.toNat ∨
      t.offset.toInt.toNat + t.length.toInt.toNat ≤ s.offset.toInt.toNat := by
  obtain ⟨hs1, hs2, -⟩ := hs
  obtain ⟨ht1, ht2, -⟩ := ht
  rcases h with h | h | h | h | h
  · omega
  · omega
  · exact absurd hfile.symm h
  · left
    omega
  · right
    omega

/-- Parts of two sections that share no byte share no byte. -/
theorem Within.disjoint {t s u s' : Section} (ht : t.Within s) (hu : u.Within s')
    (h : s.Disjoint s') : t.Disjoint u := by
  obtain ⟨hf1, ht1, ht2, ht3⟩ := ht
  obtain ⟨hf2, hu1, hu2, hu3⟩ := hu
  rcases h with h | h | h | h | h
  · exact .inl (by omega)
  · exact .inr (.inl (by omega))
  · exact .inr (.inr (.inl (by rw [hf1, hf2]; exact h)))
  · exact .inr (.inr (.inr (.inl (by omega))))
  · exact .inr (.inr (.inr (.inr (by omega))))

end Section

/-! ## Reading sections one after another -/

namespace Sections

variable {file : Nat → MemFile}

theorem readAll_cons (s : Section) (rest : List Section) :
    readAll file (s :: rest) =
      if s.ReadsWhole file then ((s.read file).1 ++ (readAll file rest).1, (readAll file rest).2)
      else ((s.read file).1, some (IoError.ofShortSection (s.read file).2)) := by
  rw [readAll]
  rcases hr : s.read file with ⟨got, err⟩
  have hfile : (file s.fileIndex).readAt s.offset.toInt.toNat s.length.toInt.toNat = (got, err) :=
    hr
  simp only [hfile, Section.ReadsWhole, hr]
  rcases readAll file rest with ⟨more, err'⟩
  by_cases hlen : got.length = s.length.toInt.toNat
  · simp [hlen]
  · simp only [hlen, beq_iff_eq, if_false]
    rcases err with _ | e
    · rfl
    · cases e <;> rfl

/-- Sections that all read whole give their bytes one after another, and no error. -/
theorem readAll_of_whole : ∀ {parts : List Section}, (∀ t ∈ parts, t.ReadsWhole file) →
    readAll file parts = (parts.flatMap fun t => (t.read file).1, none)
  | [], _ => rfl
  | t :: rest, h => by
    rw [readAll_cons, if_pos (h t List.mem_cons_self),
      readAll_of_whole fun u hu => h u (List.mem_cons_of_mem t hu)]
    rfl

/-- A read of sections stops at the first section its file returns short: the bytes of the
sections before it, what the file returned of it, and its error. -/
theorem readAll_of_short {post : List Section} {t : Section} (ht : ¬ t.ReadsWhole file) :
    ∀ {pre : List Section}, (∀ u ∈ pre, u.ReadsWhole file) →
      readAll file (pre ++ t :: post) = (pre.flatMap (fun u => (u.read file).1) ++ (t.read file).1,
        some (IoError.ofShortSection (t.read file).2))
  | [], _ => by
    rw [List.nil_append, readAll_cons, if_neg ht]
    rfl
  | u :: pre, h => by
    rw [List.cons_append, readAll_cons, if_pos (h u List.mem_cons_self),
      readAll_of_short ht fun v hv => h v (List.mem_cons_of_mem u hv)]
    simp

/-- Sections that do not all read whole have a first one that comes short. -/
theorem exists_first_short {parts : List Section} (h : ¬ ∀ t ∈ parts, t.ReadsWhole file) :
    ∃ pre t post, parts = pre ++ t :: post ∧ (∀ u ∈ pre, u.ReadsWhole file) ∧
      ¬ t.ReadsWhole file := by
  obtain ⟨t, ht, hshort⟩ := not_forall₂.1 h
  obtain ⟨b, hb⟩ : ∃ b, parts.find? (fun t => !decide (t.ReadsWhole file)) = some b :=
    Option.isSome_iff_exists.1 (List.find?_isSome.2 ⟨t, ht, by simpa using hshort⟩)
  obtain ⟨hbshort, pre, post, rfl, hpre⟩ := List.find?_eq_some_iff_append.1 hb
  exact ⟨pre, b, post, rfl, fun u hu => by simpa using hpre u hu, by simpa using hbshort⟩

/-- A read of sections reports no error exactly when every section reads whole. -/
theorem readAll_eq_none_iff {parts : List Section} :
    (readAll file parts).2 = none ↔ ∀ t ∈ parts, t.ReadsWhole file := by
  constructor
  · intro h
    by_contra hshort
    obtain ⟨pre, t, post, rfl, hpre, ht⟩ := exists_first_short hshort
    rw [readAll_of_short ht hpre] at h
    cases h
  · intro h
    rw [readAll_of_whole h]

/-- Sections that all read whole give the bytes their units name. -/
theorem map_some_flatMap_read {ss : List Section} (hsane : ∀ s ∈ ss, s.Sane)
    (hw : ∀ s ∈ ss, s.ReadsWhole file) :
    (ss.flatMap fun s => (s.read file).1).map some =
      (ss.flatMap Section.units).map (Section.byteIn file) := by
  rw [List.map_flatMap, List.map_flatMap]
  exact List.flatMap_congr fun s hs => Section.map_some_read (hsane s hs) (hw s hs)

/-- A range of sections that reads with no error gives the bytes its units name. -/
theorem readAll_cut_bytes {ss : List Section} (hsane : ∀ s ∈ ss, s.Sane) {off len : Int64}
    (hoff : 0 ≤ off.toInt) (hlen : 0 ≤ len.toInt) {data : List UInt8}
    (h : readAll file (cut ss off len) = (data, none)) :
    data.map some =
      (((ss.flatMap Section.units).drop off.toInt.toNat).take len.toInt.toNat).map
        (Section.byteIn file) := by
  have hwhole := readAll_eq_none_iff.1 (congrArg Prod.snd h)
  have hsane' : ∀ t ∈ cut ss off len, t.Sane := fun t ht => by
    obtain ⟨s, hs, hts⟩ := cut_within ss hsane off len hoff hlen t ht
    exact hts.sane (hsane s hs)
  rw [readAll_of_whole hwhole, Prod.mk.injEq] at h
  rw [← h.1, map_some_flatMap_read hsane' hwhole,
    units_cut ss (fun s hs => (hsane s hs).2.1) off len hoff hlen]


/-! ## Writing sections one after another -/

section Write

variable {σ : Type} {get : σ → Nat → MemFile} {put : σ → Nat → MemFile → σ}

/-- The first write of sections, when it stores the whole section: the rest is written from
the bytes after it, into the store with the section's file replaced. -/
theorem writeAll_cons_of_whole {st : σ} {p : List UInt8} {t : Section} {rest : List Section}
    (h : t.WritesWhole (get st)) (hp : t.length.toInt.toNat ≤ p.length) :
    writeAll get put st p (t :: rest) =
      let st' := put st t.fileIndex
        ((get st t.fileIndex).writeAt (p.take t.length.toInt.toNat) t.offset.toInt.toNat).1
      let r := writeAll get put st' (p.drop t.length.toInt.toNat) rest
      (r.1, t.length.toInt.toNat + r.2.1, r.2.2) := by
  obtain ⟨f, m, err, hw⟩ : ∃ f m err, (get st t.fileIndex).writeAt
      (p.take t.length.toInt.toNat) t.offset.toInt.toNat = (f, m, err) := ⟨_, _, _, rfl⟩
  have hwhole := h (p.take t.length.toInt.toNat) (List.length_take_of_le hp)
  rw [hw] at hwhole
  simp only [List.length_take, Prod.mk.injEq] at hwhole
  obtain ⟨rfl, rfl⟩ := hwhole
  simp only [writeAll, hw, show min t.length.toInt.toNat p.length = t.length.toInt.toNat by omega,
    Nat.lt_irrefl, if_false]

/-- The first write of sections, when it does not store the whole section, ends the write with
the file's error, or a short write when the file reported none. -/
theorem writeAll_cons_of_short {st : σ} {p : List UInt8} {t : Section} {rest : List Section}
    (h : ¬ t.WritesWhole (get st)) (hp : t.length.toInt.toNat ≤ p.length) :
    (writeAll get put st p (t :: rest)).2.2 =
      some (if (get st t.fileIndex).failWrite then MemFile.writeFailure else .shortWrite) := by
  rw [Section.writesWhole_iff] at h
  obtain ⟨f, m, err, hw⟩ : ∃ f m err, (get st t.fileIndex).writeAt
      (p.take t.length.toInt.toNat) t.offset.toInt.toNat = (f, m, err) := ⟨_, _, _, rfl⟩
  have hout := MemFile.writeAt_snd (get st t.fileIndex) (p.take t.length.toInt.toNat)
    t.offset.toInt.toNat
  rw [hw, List.length_take_of_le hp] at hout
  simp only [writeAll, hw]
  split at hout
  · rename_i hfail
    simp only [Prod.mk.injEq] at hout
    obtain ⟨rfl, rfl⟩ := hout
    simp [hfail]
  · rename_i hfail
    simp only [Bool.not_eq_true] at hfail
    simp only [hfail, true_and, not_or, not_le] at h
    -- the bound on one write cuts the section short
    have hcut : (get st t.fileIndex).shortWrite > 0 := by omega
    simp only [hcut, if_true, Prod.mk.injEq] at hout
    obtain ⟨rfl, rfl⟩ := hout
    rw [if_pos (by omega)]
    simp [hfail]


section Store

/-! A store whose file `k` becomes what was put there, and whose other files stay. -/

variable (hlaw : ∀ st k f, get (put st k f) = Function.update (get st) k f)
include hlaw

/-- Sections that all write whole, over bytes enough for them, store every byte with no
error. -/
theorem writeAll_of_whole : ∀ (parts : List Section) (st : σ) (p : List UInt8),
    (∀ t ∈ parts, t.WritesWhole (get st)) →
    (parts.map (·.length.toInt.toNat)).sum ≤ p.length →
    (writeAll get put st p parts).2 = ((parts.map (·.length.toInt.toNat)).sum, none)
  | [], _, _, _, _ => rfl
  | t :: rest, st, p, h, hp => by
    simp only [List.map_cons, List.sum_cons] at hp ⊢
    rw [writeAll_cons_of_whole (h t List.mem_cons_self) (by omega)]
    dsimp only
    rw [writeAll_of_whole rest _ (p.drop t.length.toInt.toNat)
      (fun u hu => by rw [hlaw, Section.writesWhole_update]; exact h u (List.mem_cons_of_mem t hu))
      (by rw [List.length_drop]; omega)]

/-- A write of sections stops at the first section that does not write whole, with its file's
error, or a short write when the file stored fewer bytes without one. -/
theorem writeAll_of_short {t : Section} {post : List Section} :
    ∀ (pre : List Section) (st : σ) (p : List UInt8), (∀ u ∈ pre, u.WritesWhole (get st)) →
      ¬ t.WritesWhole (get st) →
      (pre.map (·.length.toInt.toNat)).sum + t.length.toInt.toNat ≤ p.length →
      (writeAll get put st p (pre ++ t :: post)).2.2 =
        some (if (get st t.fileIndex).failWrite then MemFile.writeFailure else .shortWrite)
  | [], st, p, _, ht, hp => by
    simp only [List.map_nil, List.sum_nil, Nat.zero_add] at hp
    exact writeAll_cons_of_short ht hp
  | u :: pre, st, p, hpre, ht, hp => by
    simp only [List.map_cons, List.sum_cons] at hp
    rw [List.cons_append, writeAll_cons_of_whole (hpre u List.mem_cons_self) (by omega)]
    dsimp only
    rw [writeAll_of_short pre _ _
      (fun v hv => by rw [hlaw, Section.writesWhole_update]; exact hpre v (List.mem_cons_of_mem u hv))
      (by rw [hlaw, Section.writesWhole_update]; exact ht) (by rw [List.length_drop]; omega),
      hlaw, (MemFile.flags_update_writeAt _ _ _ _ _).2.1]

/-- A write of sections reports no error exactly when every section writes whole. -/
theorem writeAll_eq_none_iff {parts : List Section} {st : σ} {p : List UInt8}
    (hp : (parts.map (·.length.toInt.toNat)).sum ≤ p.length) :
    (writeAll get put st p parts).2.2 = none ↔ ∀ t ∈ parts, t.WritesWhole (get st) := by
  constructor
  · intro h
    by_contra hshort
    obtain ⟨t, ht, hnot⟩ := not_forall₂.1 hshort
    -- the first section that does not write whole ends the write with an error
    obtain ⟨b, hb⟩ : ∃ b, parts.find? (fun t => !decide (t.WritesWhole (get st))) = some b :=
      Option.isSome_iff_exists.1 (List.find?_isSome.2 ⟨t, ht, by simpa using hnot⟩)
    obtain ⟨hbshort, pre, post, rfl, hpre⟩ := List.find?_eq_some_iff_append.1 hb
    rw [writeAll_of_short hlaw pre st p (fun u hu => by simpa using hpre u hu) (by simpa using hbshort)
      (by simp only [List.map_append, List.map_cons, List.sum_append, List.sum_cons] at hp; omega)] at h
    cases h
  · intro h
    rw [writeAll_of_whole hlaw parts st p h hp]

theorem readAt_put_writeAt {st : σ} {t : Section} {q : List UInt8}
    (hread : (get st t.fileIndex).failRead = false) (hwhole : t.WritesWhole (get st))
    (hpos : 0 < t.length.toInt) (hq : q.length = t.length.toInt.toNat) :
    (get (put st t.fileIndex ((get st t.fileIndex).writeAt q t.offset.toInt.toNat).1)
      t.fileIndex).readAt t.offset.toInt.toNat t.length.toInt.toNat = (q, none) := by
  have hself := MemFile.readAt_writeAt_self hread (hwhole _ hq) (by omega)
  rw [hq] at hself
  rw [hlaw, Function.update_self, hself]

/-- Writing sections that share no byte with section `t` keeps what `t` reads. -/
theorem read_writeAll_apart {t : Section} {rest : List Section} (ht : t.Sane)
    (htpos : 0 < t.length.toInt) (hsane : ∀ u ∈ rest, u.Sane)
    (hpos : ∀ u ∈ rest, 0 < u.length.toInt) (hdisj : ∀ u ∈ rest, t.Disjoint u) (st : σ)
    (q : List UInt8) (hfull : ((get st t.fileIndex).readAt t.offset.toInt.toNat
      t.length.toInt.toNat).1.length = t.length.toInt.toNat) :
    ((get (writeAll get put st q rest).1 t.fileIndex).readAt t.offset.toInt.toNat
      t.length.toInt.toNat).1 =
      ((get st t.fileIndex).readAt t.offset.toInt.toNat t.length.toInt.toNat).1 :=
  writeAll_frame rest
    (fun u _ st₀ f₀ => by
      rw [hlaw]
      by_cases hu : u.fileIndex = t.fileIndex
      · exact .inr ⟨hu, by rw [hu, Function.update_self]⟩
      · exact .inl (Function.update_of_ne (Ne.symm hu) _ _))
    (fun u hu hfile => (hdisj u hu).apart ht (hsane u hu) htpos (hpos u hu) hfile) st q hfull

/-- **A write that stores every byte reads back as written**, over sections that are not
empty, share no byte and lie in files that do not fail their reads. -/
theorem readAll_writeAll : ∀ (parts : List Section) (st : σ) (p : List UInt8) {st' : σ} {m : Nat},
    (∀ t ∈ parts, t.Sane) → (∀ t ∈ parts, 0 < t.length.toInt) →
    parts.Pairwise Section.Disjoint → (∀ t ∈ parts, (get st t.fileIndex).failRead = false) →
    p.length = (parts.map (·.length.toInt.toNat)).sum →
    writeAll get put st p parts = (st', m, none) → readAll (get st') parts = (p, none)
  | [], st, p, st', m, _, _, _, _, hp, hw => by
    simp only [List.map_nil, List.sum_nil, List.length_eq_zero_iff] at hp
    simp only [writeAll, Prod.mk.injEq] at hw
    obtain ⟨rfl, -⟩ := hw
    rw [hp]
    rfl
  | t :: rest, st, p, st', m, hsane, hpos, hdisj, hread, hp, hw => by
    simp only [List.map_cons, List.sum_cons] at hp
    have hlen : t.length.toInt.toNat ≤ p.length := by omega
    -- the first section was stored whole, or the write would have failed there
    have hwhole : t.WritesWhole (get st) := by
      by_contra hshort
      have herr : (writeAll get put st p (t :: rest)).2.2 = _ := writeAll_cons_of_short hshort hlen
      rw [hw] at herr
      cases herr
    rw [writeAll_cons_of_whole hwhole hlen] at hw
    dsimp only at hw
    generalize hf : ((get st t.fileIndex).writeAt (p.take t.length.toInt.toNat)
      t.offset.toInt.toNat).1 = f at hw
    obtain ⟨st'', k, e, hr⟩ : ∃ st'' k e, writeAll get put (put st t.fileIndex f)
        (p.drop t.length.toInt.toNat) rest = (st'', k, e) := ⟨_, _, _, rfl⟩
    rw [hr] at hw
    simp only [Prod.mk.injEq] at hw
    obtain ⟨rfl, -, rfl⟩ := hw
    obtain ⟨hdisj_t, hdisj_rest⟩ := List.pairwise_cons.1 hdisj
    have hrest := readAll_writeAll rest (put st t.fileIndex f) (p.drop t.length.toInt.toNat)
      (fun u hu => hsane u (List.mem_cons_of_mem t hu)) (fun u hu => hpos u (List.mem_cons_of_mem t hu))
      hdisj_rest
      (fun u hu => by
        rw [hlaw, ← hf, (MemFile.flags_update_writeAt _ _ _ _ _).1]
        exact hread u (List.mem_cons_of_mem t hu))
      (by rw [List.length_drop]; omega) hr
    -- the first section reads its bytes back after their write, and the rest of the write,
    -- sharing no byte with it, keeps them
    have hq : (p.take t.length.toInt.toNat).length = t.length.toInt.toNat :=
      List.length_take_of_le hlen
    have hback := readAt_put_writeAt hlaw (hread t List.mem_cons_self) hwhole
      (hpos t List.mem_cons_self) hq
    rw [hf] at hback
    have hkeep := read_writeAll_apart hlaw (hsane t List.mem_cons_self) (hpos t List.mem_cons_self)
      (fun u hu => hsane u (List.mem_cons_of_mem t hu)) (fun u hu => hpos u (List.mem_cons_of_mem t hu))
      hdisj_t (put st t.fileIndex f) (p.drop t.length.toInt.toNat) (by rw [hback]; exact hq)
    rw [hr, hback] at hkeep
    have hread_t : (t.read (get st'')).1 = p.take t.length.toInt.toNat := hkeep
    rw [readAll_cons, if_pos (by rw [Section.ReadsWhole, hread_t]; exact hq), hread_t, hrest]
    simp

end Store

end Write


/-! ## A range within the sections -/

/-- A slice of sections that share no byte shares no byte. -/
theorem pairwise_disjoint_cut : ∀ (ss : List Section), (∀ s ∈ ss, s.Sane) →
    ss.Pairwise Section.Disjoint → ∀ off len : Int64, 0 ≤ off.toInt → 0 ≤ len.toInt →
      (cut ss off len).Pairwise Section.Disjoint
  | [], _, _, _, _, _, _ => by simp [cut]
  | s :: rest, hss, hpw, off, len, hoff, hlen => by
    have hs := hss s List.mem_cons_self
    have hrest : ∀ t ∈ rest, t.Sane := fun t ht => hss t (List.mem_cons_of_mem s ht)
    obtain ⟨hs_rest, hpw_rest⟩ := List.pairwise_cons.1 hpw
    rcases cut_cons_cases s rest len hoff hs.2.1 with
      ⟨-, hcut⟩ | ⟨-, hge, hcut⟩ | ⟨-, hlt, n, hn, hcut⟩ <;> rw [hcut]
    · exact List.Pairwise.nil
    · exact pairwise_disjoint_cut rest hrest hpw_rest _ len
        (by rw [Int64.toInt_sub_of_nonneg hoff hs.2.1]; omega) hlen
    · -- the first part lies within `s`, which shares no byte with the rest
      have hlen' : 0 ≤ (len - n).toInt := by
        rw [Int64.toInt_sub_of_nonneg hlen (by omega)]
        omega
      have hfirst : ({ s with offset := s.offset + off, length := n } : Section).Within s := by
        have hadd := Int64.toInt_add_of_lt hs.1 hoff (by have := hs.2.2; omega)
        exact ⟨rfl, show 0 ≤ n.toInt by omega, show s.offset.toInt ≤ (s.offset + off).toInt by omega,
          show (s.offset + off).toInt + n.toInt ≤ s.offset.toInt + s.length.toInt by omega⟩
      refine List.pairwise_cons.2 ⟨fun u hu => ?_,
        pairwise_disjoint_cut rest hrest hpw_rest 0 (len - n) (by simp) hlen'⟩
      obtain ⟨v, hv, huv⟩ := cut_within rest hrest 0 (len - n) (by simp) hlen' u hu
      exact hfirst.disjoint huv (hs_rest v hv)

/-- A range within sections whose total length fits 64 bits slices to its cut. -/
theorem slice_of_within {ss : List Section} (hss : ∀ s ∈ ss, 0 ≤ s.length.toInt)
    (htotal : (ss.map (·.length.toInt)).sum < 2 ^ 63) {off : Int64} {n : Nat}
    (hoff : 0 ≤ off.toInt) (hin : off.toInt + n ≤ (ss.map (·.length.toInt)).sum) :
    slice ss off (Int64.ofNat n) = .ok (cut ss off (Int64.ofNat n)) := by
  have hn : (Int64.ofNat n).toInt = n := Int64.toInt_ofNat_of_lt (by omega)
  apply slice_eq_ok hoff (by omega)
  rw [Int64.toInt_add_of_lt hoff (by omega) (by omega), hn, length_toInt hss htotal]
  exact hin

/-- Writes `p` at `off` of sections whose files are kept by their index. -/
def writeFiles (files : Nat → MemFile) (ss : List Section) (p : List UInt8) (off : Int64) :
    (Nat → MemFile) × Nat × Option IoError :=
  writeAt (fun fs => fs) Function.update files ss p off

/-- The contract of reading and writing the bytes of `p` at `off` of sections `ss` in files
`files`, stated over the sections of the range, those of its slice:

* a read reports no error exactly when every section of the range reads whole, and then it
  gives the bytes that the range names in the files; otherwise it stops at the first section
  that comes short, with fewer bytes than asked: those of the sections before and what the file
  returned of that one, and that section's error, or an unexpected end of data when its file
  reported none or the end of data;
* a write reports no error exactly when every section of the range writes whole, and then it
  stores every byte; otherwise it stops at the first section that does not, with its file's
  error, or a short write when the file stored fewer bytes without one;
* after a write that reports no error, a read of the range from files that do not fail their
  reads gives back what was written. -/
structure IoContract (files : Nat → MemFile) (ss : List Section) (off : Int64)
    (p : List UInt8) : Prop where
  read_ok_iff : (readAt files ss off p.length).2 = none ↔
    ∀ t ∈ cut ss off (Int64.ofNat p.length), t.ReadsWhole files
  read_bytes : (readAt files ss off p.length).2 = none →
    (readAt files ss off p.length).1.map some =
      (((ss.flatMap Section.units).drop off.toInt.toNat).take p.length).map (Section.byteIn files)
  read_short : ∀ pre t post, cut ss off (Int64.ofNat p.length) = pre ++ t :: post →
    (∀ u ∈ pre, u.ReadsWhole files) → ¬ t.ReadsWhole files →
    readAt files ss off p.length =
        (pre.flatMap (fun u => (u.read files).1) ++ (t.read files).1,
          some (IoError.ofShortSection (t.read files).2)) ∧
      (pre.flatMap (fun u => (u.read files).1) ++ (t.read files).1).length < p.length
  write_ok_iff : (writeFiles files ss p off).2.2 = none ↔
    ∀ t ∈ cut ss off (Int64.ofNat p.length), t.WritesWhole files
  write_count : (writeFiles files ss p off).2.2 = none → (writeFiles files ss p off).2.1 = p.length
  write_short : ∀ pre t post, cut ss off (Int64.ofNat p.length) = pre ++ t :: post →
    (∀ u ∈ pre, u.WritesWhole files) → ¬ t.WritesWhole files →
    (writeFiles files ss p off).2.2 =
      some (if (files t.fileIndex).failWrite then MemFile.writeFailure else .shortWrite)
  round_trip : (writeFiles files ss p off).2.2 = none →
    (∀ t ∈ cut ss off (Int64.ofNat p.length), (files t.fileIndex).failRead = false) →
    readAt (writeFiles files ss p off).1 ss off p.length = (p, none)

/-- **Reading and writing a range of sections keeps the contract**, for sections that are byte
ranges of files sharing no byte, whose total length fits 64 bits, and a range within them. -/
theorem io_contract {files : Nat → MemFile} {ss : List Section} (hsane : ∀ s ∈ ss, s.Sane)
    (hdisj : ss.Pairwise Section.Disjoint) (htotal : (ss.map (·.length.toInt)).sum < 2 ^ 63)
    {off : Int64} {p : List UInt8} (hoff : 0 ≤ off.toInt)
    (hin : off.toInt + p.length ≤ (ss.map (·.length.toInt)).sum) : IoContract files ss off p := by
  have hnonneg : ∀ s ∈ ss, 0 ≤ s.length.toInt := fun s hs => (hsane s hs).2.1
  have hn : (Int64.ofNat p.length).toInt = p.length := Int64.toInt_ofNat_of_lt (by omega)
  have hslice := slice_of_within hnonneg htotal hoff hin
  -- the sections of the range: sane, not empty, sharing no byte, as long as `p` in all
  have hpsane : ∀ t ∈ cut ss off (Int64.ofNat p.length), t.Sane := fun t ht => by
    obtain ⟨s, hs, hw⟩ := slice_within hsane hslice t ht
    exact hw.sane (hsane s hs)
  have hppos := length_pos_of_mem_cut ss hnonneg off (Int64.ofNat p.length) hoff (by omega)
  have hpdisj := pairwise_disjoint_cut ss hsane hdisj off (Int64.ofNat p.length) hoff (by omega)
  have hpsum : ((cut ss off (Int64.ofNat p.length)).map (·.length.toInt.toNat)).sum = p.length := by
    have hsum := ((slice_selects_range hnonneg htotal (by omega)).2 _ hslice).2.1
    rw [← List.natCast_sum_map_toNat _ _ fun t ht => (hppos t ht).le, hn] at hsum
    exact_mod_cast hsum
  have hread : ∀ fs, readAt fs ss off p.length = readAll fs (cut ss off (Int64.ofNat p.length)) :=
    fun fs => by rw [readAt, hslice]
  have hwrite : writeFiles files ss p off =
      writeAll (fun fs => fs) Function.update files p (cut ss off (Int64.ofNat p.length)) := by
    rw [writeFiles, writeAt, hslice]
  have hlaw : ∀ (st : Nat → MemFile) k f,
      (fun fs => fs) (Function.update st k f) = Function.update ((fun fs => fs) st) k f :=
    fun _ _ _ => rfl
  refine ⟨?_, ?_, ?_, ?_, ?_, ?_, ?_⟩
  · rw [hread]
    exact readAll_eq_none_iff
  · intro h
    rw [hread] at h ⊢
    have hbytes := readAll_cut_bytes hsane hoff (by omega)
      (Prod.ext rfl h : readAll files (cut ss off (Int64.ofNat p.length)) = (_, none))
    rwa [hn, Int.toNat_natCast] at hbytes
  · intro pre t post hsplit hpre ht
    rw [hread, hsplit, readAll_of_short ht hpre]
    refine ⟨rfl, ?_⟩
    -- the sections before read whole, and this one comes short
    have hlen_pre : (pre.flatMap fun u => (u.read files).1).length =
        (pre.map (·.length.toInt.toNat)).sum := by
      rw [List.length_flatMap]
      exact congrArg List.sum (List.map_congr_left hpre)
    have hshort : (t.read files).1.length < t.length.toInt.toNat :=
      lt_of_le_of_ne t.length_read_le ht
    rw [hsplit, List.map_append, List.map_cons, List.sum_append, List.sum_cons] at hpsum
    rw [List.length_append, hlen_pre]
    omega
  · rw [hwrite]
    exact writeAll_eq_none_iff hlaw hpsum.le
  · intro h
    rw [hwrite] at h ⊢
    rw [writeAll_of_whole hlaw _ files p ((writeAll_eq_none_iff hlaw hpsum.le).1 h) hpsum.le, hpsum]
  · intro pre t post hsplit hpre ht
    rw [hwrite, hsplit]
    rw [hsplit, List.map_append, List.map_cons, List.sum_append, List.sum_cons] at hpsum
    exact writeAll_of_short hlaw pre files p hpre ht (by omega)
  · intro h hfail
    rw [hwrite] at h ⊢
    obtain ⟨files', m, e, hw⟩ : ∃ files' m e, writeAll (fun fs => fs) Function.update files p
        (cut ss off (Int64.ofNat p.length)) = (files', m, e) := ⟨_, _, _, rfl⟩
    rw [hw] at h ⊢
    subst h
    rw [hread]
    exact readAll_writeAll hlaw _ files p hpsane hppos hpdisj hfail hpsum.symm hw

/-- Four files, as the sections below cut them: two bytes of the first, the one byte of the
second, none of the third and two of the fourth. -/
def fourFiles : Nat → MemFile
  | 0 => { data := [0x61, 0x73, 0x64, 0x66] }
  | 1 => { data := [0x61] }
  | 2 => { data := [] }
  | _ => { data := [0x71, 0x77, 0x65, 0x72, 0x74, 0x79] }

def fourSections : List Section :=
  [⟨0, [], 2, 2⟩, ⟨1, [], 0, 1⟩, ⟨2, [], 0, 0⟩, ⟨3, [], 0, 2⟩]

theorem contract_of_four_files :
    (∀ s ∈ fourSections, s.Sane) ∧ fourSections.Pairwise Section.Disjoint ∧
      (fourSections.map (·.length.toInt)).sum < 2 ^ 63 ∧ 0 ≤ (0 : Int64).toInt ∧
      (0 : Int64).toInt + [0x31, 0x32, 0x33, 0x34, 0x35].length ≤
        (fourSections.map (·.length.toInt)).sum ∧
      IoContract fourFiles fourSections 0 [0x31, 0x32, 0x33, 0x34, 0x35] := by
  have hsane : ∀ s ∈ fourSections, s.Sane := by
    simp [fourSections, Section.Sane]
  have hdisj : fourSections.Pairwise Section.Disjoint := by
    simp [fourSections, Section.Disjoint]
  have htotal : (fourSections.map (·.length.toInt)).sum < 2 ^ 63 := by decide
  have hin : (0 : Int64).toInt + [0x31, 0x32, 0x33, 0x34, 0x35].length ≤
      (fourSections.map (·.length.toInt)).sum := by decide
  exact ⟨hsane, hdisj, htotal, by decide, hin, io_contract hsane hdisj htotal (by decide) hin⟩

example : readAt fourFiles fourSections 0 5 = ([0x64, 0x66, 0x61, 0x71, 0x77], none) := by decide

/-- Three sections of `2 ^ 62` bytes add up past `2 ^ 63 - 1`: their 64-bit total wraps below
zero, and a read of the first byte is refused, though that byte lies within the first section
and its file holds it. -/
theorem wrapped_total_refuses_read :
    let ss : List Section := [⟨0, [], 0, 4611686018427387904⟩, ⟨1, [], 0, 4611686018427387904⟩,
      ⟨2, [], 0, 4611686018427387904⟩]
    let files : Nat → MemFile := fun k => if k = 0 then { data := [0x61] } else { data := [] }
    (∀ s ∈ ss, s.Sane) ∧ ss.Pairwise Section.Disjoint ∧ 0 ≤ (0 : Int64).toInt ∧
      (0 : Int64).toInt + [0x61].length ≤ (ss.map (·.length.toInt)).sum ∧
      readAt files ss 0 1 = ([], some .outOfRange) ∧ ¬ IoContract files ss 0 [0x61] := by
  intro ss files
  have hread : readAt files ss 0 1 = ([], some .outOfRange) := by decide
  refine ⟨by simp [ss, Section.Sane], by simp [ss, Section.Disjoint], by decide, by decide, hread,
    fun h => ?_⟩
  -- the one section of the range reads whole, so the contract wants no error
  have hwhole : ∀ t ∈ cut ss 0 (Int64.ofNat [0x61].length), t.ReadsWhole files := by decide
  have := h.read_ok_iff.2 hwhole
  rw [show [(0x61 : UInt8)].length = 1 from rfl, hread] at this
  cases this

end Sections

end BitTorrent
