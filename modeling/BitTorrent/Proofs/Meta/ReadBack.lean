import BitTorrent.Proofs.Meta.Pieces
import BitTorrent.Proofs.Meta.Lengths
import BitTorrent.Proofs.Bencode.RoundTrip

/-!
# Info dictionaries made and read back

An info dictionary made from a name, files, a piece length and content holding every byte of the
files (`Info.build`) is read back (`Info.ofBytes`) as what it was made from
(`Info.build_read_back`): the piece length; as many pieces as the total takes, rounded up; the
total, the exact sum of the file lengths; the hash of each piece's chunk of the content; and the
files, as one file of the torrent's name when there is no file or a single one without a path,
and otherwise each under a directory of that name. Content shorter than the total is refused
while the pieces are hashed.

This needs every path element to be something other than `..` once blank runes are trimmed from
its ends, which is what reading checks: making writes an element ` ..` as it is, and reading then
refuses the dictionary, naming the first such file (`Info.build_read_parent`,
`Info.blank_parent_rejected`). It also needs what bencoding reads back: a name, path elements and
hashes shorter than `2 ^ 31` bytes.

The proof runs making forward (`Info.build_decode`): the hashes are those of the chunks
(`Info.hashPieces_eq`), the files are written as one length or as a list (`Info.Shape`), and the
dictionary, written with its keys sorted, decodes into a record of its entries
(`Bencode.readsAs_sortedDict`). Reading then passes each of its checks (`Info.ofBytes_eq_ok`).
-/

namespace BitTorrent.Info

open Bencode

/-! ### Reading -/

section Loop

variable {ε α : Type} (f : α → PUnit → Except ε (ForInStep PUnit))

theorem forIn_unit_ok (xs : List α) (h : ∀ x ∈ xs, f x PUnit.unit = pure (.yield PUnit.unit)) :
    forIn xs PUnit.unit f = pure PUnit.unit := by
  induction xs with
  | nil => rfl
  | cons x xs ih =>
    rw [List.forIn_cons, h x List.mem_cons_self, pure_bind]
    exact ih fun y hy => h y (List.mem_cons_of_mem x hy)

theorem forIn_unit_error {e : ε} (pre post : List α) (x : α)
    (hpre : ∀ y ∈ pre, f y PUnit.unit = pure (.yield PUnit.unit)) (hx : f x PUnit.unit = .error e) :
    forIn (pre ++ x :: post) PUnit.unit f = .error e := by
  induction pre with
  | nil =>
    rw [List.nil_append, List.forIn_cons, hx]
    rfl
  | cons y pre ih =>
    rw [List.cons_append, List.forIn_cons, hpre y List.mem_cons_self, pure_bind]
    exact ih fun z hz => hpre z (List.mem_cons_of_mem y hz)

end Loop

/-- The decoded dictionary `w` holds, in the fields that reading takes, the piece length `pl`, the
hashes, the bytes of the private entry, the name, the one length and the files. -/
structure Fields (w : Value) (pl : UInt32) (pieces privacy name : List UInt8) (len : Int64)
    (files : List FileEntry) : Prop where
  pieceLength : w.get? "piece length" = some (.int pl.toNat)
  pieces : w.get? "pieces" = some (.str pieces)
  privacy : w.get? "private" = some (.raw privacy)
  name : w.get? "name" = some (.str name)
  length : w.get? "length" = some (.int len.toInt)
  files : ((w.get? "files").getD .null).toList.map fileOf = files

/-- Hashes of `n` whole entries give `n` pieces. -/
theorem pieces_div {P : List UInt8} {n : Nat} (hn : P.length = 20 * n) (hn32 : P.length < 2 ^ 32) :
    P.length.toUInt32 % hashSize.toUInt32 = 0 ∧ P.length.toUInt32 / hashSize.toUInt32 = .ofNat n := by
  have hlen : P.length.toUInt32.toNat = 20 * n := by
    rw [Nat.toUInt32_eq, UInt32.toNat_ofNat_of_lt' hn32, hn]
  have hsize : hashSize.toUInt32.toNat = 20 := rfl
  have hword : UInt32.size = 2 ^ 32 := rfl
  constructor
  · apply UInt32.toNat_inj.1
    rw [UInt32.toNat_mod, hlen, hsize]
    simp
  · apply UInt32.toNat_inj.1
    rw [UInt32.toNat_div, hlen, hsize, UInt32.toNat_ofNat_of_lt' (by rw [hword]; omega)]
    omega

/-- The 64-bit check that the pieces cover the total with less than a piece to spare passes when
they do so in exact integers: with fewer than `2 ^ 28` pieces the difference cannot wrap. -/
theorem covers_check {pl : UInt32} {n : Nat} {total : Int64} (hn : n < 2 ^ 28)
    (hcover : total.toInt ≤ (pl.toNat * n : Nat))
    (hspare : (pl.toNat * n : Nat) < total.toInt + pl.toNat) :
    (decide (Int64.ofNat (pl.toNat * n) - total ≥ Int64.ofNat pl.toNat) ||
      decide (Int64.ofNat (pl.toNat * n) - total < 0)) = false := by
  simp only [Bool.or_eq_false_iff, decide_eq_false_iff_not]
  exact not_or.1 ((coverCheck_iff hn).not.2 (not_not.2 ⟨hcover, hspare⟩))

/-- **Reading a dictionary whose fields pass every check.** The info read holds the decoded fields,
the total that the checks took, and the hash and bytes of the dictionary. -/
theorem ofBytes_eq_ok {b rest : List UInt8} {w : Value} (hd : decode target b = ⟨w, rest, none⟩)
    {pl : UInt32} {pieces privacy name : List UInt8} {len total : Int64} {files : List FileEntry}
    (hf : Fields w pl pieces privacy name len files) (hpl : pl ≠ 0) {n : Nat}
    (hn : pieces.length = 20 * n) (hn32 : pieces.length < 2 ^ 32)
    (hparent : ∀ f ∈ files, f.path.any isParent = false)
    (htotal : (if files.isEmpty then pure len else sumLengths files) = .ok total)
    (hcover : total.toInt ≤ (pl.toNat * n : Nat))
    (hspare : (pl.toNat * n : Nat) < total.toInt + pl.toNat) :
    ofBytes b = .ok
      { pieceLength := pl, pieces := pieces, privacy := privacy, name := name, length := len,
        files := files, totalLength := total, numPieces := .ofNat n, hash := Sha1.ofList b,
        bytes := b } := by
  have hpl' : (pl == 0) = false := by simpa using hpl
  obtain ⟨hmod, hdiv⟩ := pieces_div hn hn32
  have hcount : (UInt32.ofNat n).toNat = n := UInt32.toNat_ofNat_of_lt' (by
    have : UInt32.size = 2 ^ 32 := rfl
    omega)
  have hcheck := covers_check (by omega) hcover hspare
  simp only [ofBytes, hd, hf.pieceLength, hf.pieces, hf.privacy, hf.name, hf.length, hf.files,
    Option.getD_some, Value.toInt, Value.toBytes, Int.toNat_natCast, UInt32.ofNat_toNat]
  rw [forIn_unit_ok _ files (fun f hf => by simp [hparent f hf])]
  simp only [hpl', hmod, hdiv, hcount, Int64.ofInt_toInt, bne_self_eq_false, Bool.false_eq_true,
    if_false, pure_bind]
  -- the total is the one length or the sum of the files' lengths, as `htotal` says
  cases hempty : files.isEmpty
  · simp only [hempty, Bool.false_eq_true, if_false] at htotal ⊢
    simp only [htotal, Bind.bind, Except.bind, hcheck, Bool.false_eq_true, if_false]
    rfl
  · simp only [hempty, if_true] at htotal ⊢
    obtain rfl : len = total := Except.pure_eq_ok.1 htotal
    simp only [hcheck, Bool.false_eq_true, if_false]
    rfl

/-- Reading stops at the first file with a parent element in its path, and names that path. -/
theorem ofBytes_parent {b rest : List UInt8} {w : Value} (hd : decode target b = ⟨w, rest, none⟩)
    {pl : UInt32} {pieces privacy name : List UInt8} {len : Int64} {files : List FileEntry}
    (hf : Fields w pl pieces privacy name len files) (hpl : pl ≠ 0) {n : Nat}
    (hn : pieces.length = 20 * n) (hn32 : pieces.length < 2 ^ 32)
    {pre post : List FileEntry} {f : FileEntry} (hfiles : files = pre ++ f :: post)
    (hpre : ∀ g ∈ pre, g.path.any isParent = false) (hparent : f.path.any isParent = true) :
    ofBytes b = .error (.invalidFileName (Path.join f.path)) := by
  have hpl' : (pl == 0) = false := by simpa using hpl
  obtain ⟨hmod, -⟩ := pieces_div hn hn32
  simp only [ofBytes, hd, hf.pieceLength, hf.pieces, hf.files, Option.getD_some, Value.toInt,
    Value.toBytes, Int.toNat_natCast, UInt32.ofNat_toNat, hpl', hmod, bne_self_eq_false,
    Bool.false_eq_true, if_false, hfiles]
  rw [forIn_unit_error _ pre post f (fun g hg => by simp [hpre g hg]) (by simp [hparent]; rfl)]
  rfl

/-- Lengths that are not negative are summed, in 64-bit arithmetic. -/
theorem sumLengths_of_nonneg {fs : List FileEntry} (h : ∀ f ∈ fs, 0 ≤ f.length.toInt) :
    sumLengths fs = .ok (fs.foldr (fun (f : FileEntry) t => f.length + t) 0) := by
  induction fs with
  | nil => rfl
  | cons f fs ih =>
    have hf : ¬ f.length < 0 := by
      rw [Int64.lt_iff_toInt_lt, Int64.toInt_zero]
      exact Int.not_lt.2 (h f List.mem_cons_self)
    rw [sumLengths, if_neg hf, ih fun g hg => h g (List.mem_cons_of_mem f hg)]
    rfl

/-! ### Files -/

/-- The fields of a file's record. -/
def fileFields : List (String × Target) :=
  [("length", .signed), ("path", .list .text)]

theorem field?_length : Target.field? fileFields (key "length") = some .signed := by
  simp [Target.field?, fileFields]

theorem field?_path : Target.field? fileFields (key "path") = some (.list .text) := by
  simp [Target.field?, fileFields, key_inj]

/-- A file's dictionary is read back as a record that gives the file again. -/
theorem fileValue_reads (f : FileEntry) (hpath : ∀ e ∈ f.path, e.length < 2 ^ 31) :
    ∃ w, ReadsAs fileTarget (fileValue f) w ∧ fileOf w = f := by
  have hnodup : ([(key "length", Value.int f.length.toInt),
      (key "path", .list (f.path.map .str))].map (·.1)).Nodup := by
    simp only [List.map_cons, List.map_nil, List.nodup_cons, List.mem_cons, or_false, key_inj,
      List.not_mem_nil, not_false_eq_true, List.nodup_nil, and_true]
    decide
  have hlen : ReadsAs .signed (.int f.length.toInt) (.int f.length.toInt) :=
    readsAs_signed (by have := Int64.le_toInt f.length; simpa using this)
      (by have := Int64.toInt_lt f.length; simpa using this)
  have hstrs : ReadsAs (.list .text) (.list (f.path.map .str)) (.list (f.path.map .str)) := by
    refine readsAs_list (List.forall₂_same.2 fun v hv => ?_)
    obtain ⟨e, he, rfl⟩ := List.mem_map.1 hv
    exact readsAs_str (.inl rfl) (hpath e he)
  obtain ⟨w, hw, hget⟩ : ∃ w, ReadsAs fileTarget (fileValue f) w ∧ _ :=
    readsAs_sortedDict (g := fun _ v => v) hnodup (by
      intro e he
      simp only [List.mem_cons, List.mem_nil_iff, or_false] at he
      rcases he with rfl | rfl
      · exact ⟨by dsimp only; decide +kernel, _, field?_length, hlen⟩
      · exact ⟨by dsimp only; decide +kernel, _, field?_path, hstrs⟩)
  refine ⟨w, hw, ?_⟩
  rw [fileOf, hget "length" .signed field?_length, hget "path" (.list .text) field?_path]
  simp [lookup_cons_eq, key_inj, Value.toInt, Value.toList, Value.toBytes, Function.comp_def]

/-- The files are read back as records that give the files again. -/
theorem files_read (list : List FileEntry) (hpath : ∀ f ∈ list, ∀ e ∈ f.path, e.length < 2 ^ 31) :
    ∃ ys, ReadsAs (.list fileTarget) (.list (list.map fileValue)) (.list ys) ∧
      ys.map fileOf = list := by
  suffices h : ∃ ys, List.Forall₂ (ReadsAs fileTarget) (list.map fileValue) ys ∧
      ys.map fileOf = list by
    obtain ⟨ys, hys, hfiles⟩ := h
    exact ⟨ys, readsAs_list hys, hfiles⟩
  induction list with
  | nil => exact ⟨[], .nil, rfl⟩
  | cons f fs ih =>
    obtain ⟨w, hw, hf⟩ := fileValue_reads f (hpath f List.mem_cons_self)
    obtain ⟨ys, hys, hfs⟩ := ih fun g hg => hpath g (List.mem_cons_of_mem f hg)
    exact ⟨w :: ys, .cons hw hys, by rw [List.map_cons, hf, hfs]⟩

/-! ### Making -/

/-- The entries of a new info dictionary whose files are written as the one length `len` or as
the list `list`; an entry that is zero or empty is left out. -/
def entries (name : List UInt8) (pl : UInt32) (pieces : List UInt8) (len : Int64)
    (list : List FileEntry) : List (List UInt8 × Value) :=
  [(key "piece length", .int pl.toNat), (key "pieces", .str pieces), (key "name", .str name)] ++
    (if len != 0 then [(key "length", .int len.toInt)] else []) ++
    (if list.isEmpty then [] else [(key "files", .list (list.map fileValue))])

/-- How a new info dictionary writes its files: a single file without a path as the torrent's one
length, anything else as the list of files. -/
inductive Shape : List FileEntry → Int64 → List FileEntry → Prop
  | single (f : FileEntry) : f.path = [] → Shape [f] f.length []
  | list (files : List FileEntry) : (∀ f, files = [f] → f.path ≠ []) → Shape files 0 files

namespace Shape

variable {files : List FileEntry} {len : Int64} {list : List FileEntry}

theorem exists_of (files : List FileEntry) : ∃ len list, Shape files len list := by
  rcases files with _ | ⟨f, _ | ⟨g, rest⟩⟩
  · exact ⟨0, [], .list [] (by simp)⟩
  · by_cases h : f.path = []
    · exact ⟨_, _, .single f h⟩
    · exact ⟨0, [f], .list [f] (by simpa using h)⟩
  · exact ⟨0, _, .list _ (by simp)⟩

theorem mem (hs : Shape files len list) {f : FileEntry} (hf : f ∈ list) : f ∈ files := by
  cases hs with
  | single g _ => simp at hf
  | list _ _ => exact hf

/-- No list is written exactly when there is no file or a single one without a path. -/
theorem nil_iff (hs : Shape files len list) :
    list = [] ↔ files = [] ∨ ∃ f, files = [f] ∧ f.path = [] := by
  cases hs with
  | single f h => exact ⟨fun _ => .inr ⟨f, rfl, h⟩, fun _ => rfl⟩
  | list files h =>
    constructor
    · exact .inl
    · rintro (hnil | ⟨f, rfl, hf⟩)
      · exact hnil
      · exact absurd hf (h f rfl)

theorem eq_of_ne_nil (hs : Shape files len list) (h : list ≠ []) : list = files := by
  cases hs with
  | single f _ => exact absurd rfl h
  | list _ _ => rfl

/-- The total that reading takes, the one length or the sum of the listed lengths, is the exact
sum of the lengths of the files when that is a length. -/
theorem total (hs : Shape files len list) (hlen : ∀ f ∈ files, 0 ≤ f.length.toInt) {T : Nat}
    (hT : (files.map fun f => f.length.toInt).sum = T) (hT63 : T < 2 ^ 63) :
    ∃ t : Int64, (if list.isEmpty then pure len else sumLengths list) = .ok t ∧ t.toInt = T := by
  cases hs with
  | single f _ => exact ⟨f.length, rfl, by simpa using hT⟩
  | list files _ =>
    cases files with
    | nil => exact ⟨0, rfl, by simpa using hT⟩
    | cons f fs =>
      refine ⟨_, sumLengths_of_nonneg hlen, ?_⟩
      rw [(foldr_add_toInt hlen).2 (by omega), hT]

end Shape

theorem foldl_add_length (fs : List FileEntry) (a : Int64) :
    fs.foldl (fun acc f => acc + f.length) a =
      a + fs.foldr (fun (f : FileEntry) t => f.length + t) 0 := by
  induction fs generalizing a with
  | nil => simp
  | cons f fs ih => rw [List.foldl_cons, ih, List.foldr_cons, Int64.add_assoc]

/-- The 64-bit total that making a dictionary adds up is the exact sum of the lengths when that
is a length. -/
theorem total_toInt {files : List FileEntry} (hlen : ∀ f ∈ files, 0 ≤ f.length.toInt) {T : Nat}
    (hT : (files.map fun f => f.length.toInt).sum = T) (hT63 : T < 2 ^ 63) :
    (files.foldl (fun acc (f : FileEntry) => acc + f.length) 0).toInt = T := by
  rw [foldl_add_length, Int64.zero_add, (foldr_add_toInt hlen).2 (by omega), hT]

theorem pieceLength_pos {pl : UInt32} (hpl : pl ≠ 0) : 0 < pl.toNat := by
  have : pl.toNat ≠ 0 := fun h => hpl (UInt32.toNat_inj.1 (by simpa using h))
  omega

section Build

variable {name data P : List UInt8} {files : List FileEntry} {pl : UInt32}

/-- With the hashes in hand, making writes the entries of the files' shape. -/
theorem build_eq {len : Int64} {list : List FileEntry} (hs : Shape files len list) (hpl : pl ≠ 0)
    (hP : hashPieces pl.toNat (data.length + 1) (files.foldl (fun acc f => acc + f.length) 0) data =
      .ok P) :
    build name files pl data = .ok (encode (sortedDict (entries name pl P len list))) := by
  have hpl' : (pl == 0) = false := by simpa using hpl
  cases hs with
  | single f h =>
    simp only [build, hpl', hP, h, Bool.false_eq_true, if_false, List.isEmpty_nil, if_true,
      pure_bind]
    rfl
  | list files h =>
    simp only [build, hpl', hP, Bool.false_eq_true, if_false, pure_bind]
    -- the shape of the list decides the branch making takes
    rcases files with _ | ⟨f, _ | ⟨g, rest⟩⟩
    · rfl
    · have hf : f.path.isEmpty = false := by simpa using h f rfl
      simp only [hf, Bool.false_eq_true, if_false]
      rfl
    · rfl

theorem build_error {e : IoError} (hpl : pl ≠ 0)
    (hP : hashPieces pl.toNat (data.length + 1) (files.foldl (fun acc f => acc + f.length) 0) data =
      .error e) :
    build name files pl data = .error (.io e) := by
  have hpl' : (pl == 0) = false := by simpa using hpl
  simp only [build, hpl', hP, Bool.false_eq_true, if_false]
  rfl

/-! ### Decoding what was made -/

/-- The fields of an info dictionary's record. -/
def infoFields : List (String × Target) :=
  [("piece length", .unsigned 32), ("pieces", .bytes), ("private", .raw), ("name", .text),
   ("length", .signed), ("files", .list fileTarget), ("-", .bytes)]

/-- How the entries of a new dictionary are read: its files as the records `ys`, every other
entry as itself. -/
def readEntry (ys : List Value) (k : List UInt8) (v : Value) : Value :=
  if k = key "files" then .list ys else v

theorem readEntry_of_ne {ys : List Value} {k : String} (h : k ≠ "files") (v : Value) :
    readEntry ys (key k) v = v := by
  simp [readEntry, key_inj, h]

theorem lookup_nil_ite {c : Prop} [Decidable c] (l : List (List UInt8 × Value)) (k : List UInt8) :
    (if c then [] else l).lookup k = if c then none else l.lookup k := by
  split <;> rfl

theorem entries_nodup (len : Int64) (list : List FileEntry) :
    ((entries name pl P len list).map (·.1)).Nodup := by
  unfold entries
  split <;> split <;>
    simp only [List.map_append, List.map_cons, List.map_nil, List.append_nil] <;> decide +kernel

/-- An entry other than the files reads as itself into the field its key names. -/
theorem entryReads_of_ne {ys : List Value} {k : String} {t : Target} {v : Value}
    (hk : (key k).length < 2 ^ 31) (hne : k ≠ "files")
    (ht : Target.field? infoFields (key k) = some t) (hv : ReadsAs t v v) :
    EntryReads infoFields (readEntry ys) (key k, v) :=
  ⟨hk, t, ht, by rw [readEntry_of_ne hne]; exact hv⟩

/-- Each entry of a new dictionary names a field of the record and reads into it. -/
theorem entries_read {len : Int64} {list : List FileEntry} {ys : List Value}
    (hname : name.length < 2 ^ 31) (hP : P.length < 2 ^ 31)
    (hys : ReadsAs (.list fileTarget) (.list (list.map fileValue)) (.list ys)) :
    ∀ e ∈ entries name pl P len list, EntryReads infoFields (readEntry ys) e := by
  intro e he
  simp only [entries, List.mem_append, List.mem_cons, List.mem_ite_nil_right,
    List.mem_ite_nil_left, List.not_mem_nil, or_false] at he
  rcases he with ((rfl | rfl | rfl) | ⟨-, rfl⟩) | ⟨-, rfl⟩
  · exact entryReads_of_ne (by decide +kernel) (by decide) (by simp [Target.field?, infoFields])
      (readsAs_uint32 pl)
  · exact entryReads_of_ne (by decide +kernel) (by decide)
      (by simp [Target.field?, infoFields, key_inj]) (readsAs_str (.inr rfl) hP)
  · exact entryReads_of_ne (by decide +kernel) (by decide)
      (by simp [Target.field?, infoFields, key_inj]) (readsAs_str (.inl rfl) hname)
  · exact entryReads_of_ne (by decide +kernel) (by decide)
      (by simp [Target.field?, infoFields, key_inj])
      (readsAs_signed (by have := Int64.le_toInt len; simpa using this)
        (by have := Int64.toInt_lt len; simpa using this))
  · refine ⟨by dsimp only; decide +kernel, .list fileTarget,
      by simp [Target.field?, infoFields, key_inj], ?_⟩
    rw [readEntry, if_pos rfl]
    exact hys

/-- A new info dictionary decodes into a record holding what it was made from. -/
theorem decode_entries (pl : UInt32) (len : Int64) {list : List FileEntry}
    (hname : name.length < 2 ^ 31) (hP : P.length < 2 ^ 31)
    (hpath : ∀ f ∈ list, ∀ e ∈ f.path, e.length < 2 ^ 31) :
    ∃ w, decode target (encode (sortedDict (entries name pl P len list))) = ⟨w, [], none⟩ ∧
      Fields w pl P [] name len list := by
  obtain ⟨ys, hys, hfiles⟩ := files_read list hpath
  obtain ⟨w, hw, hget⟩ : ∃ w, ReadsAs target (sortedDict (entries name pl P len list)) w ∧ _ :=
    readsAs_sortedDict (entries_nodup len list) (entries_read hname hP hys)
  refine ⟨w, by simpa using hw.decode [], ?_⟩
  -- each field holds its entry's value, or its fresh value where the entry was left out
  constructor
  · rw [hget "piece length" (.unsigned 32) (by simp [Target.field?])]
    simp [entries, key_inj, readEntry]
  · rw [hget "pieces" .bytes (by simp [Target.field?, key_inj])]
    simp [entries, lookup_cons_eq, key_inj, readEntry]
  · rw [hget "private" .raw (by simp [Target.field?, key_inj])]
    simp [entries, List.lookup_append, lookup_cons_eq, key_inj, lookup_nil_ite, Target.zero]
  · rw [hget "name" .text (by simp [Target.field?, key_inj])]
    simp [entries, lookup_cons_eq, key_inj, readEntry]
  · rw [hget "length" .signed (by simp [Target.field?, key_inj])]
    by_cases hlen : len = 0
    · simp [entries, lookup_cons_eq, key_inj, lookup_nil_ite, Target.zero, hlen]
    · simp [entries, lookup_cons_eq, key_inj, readEntry, hlen]
  · rw [hget "files" (.list fileTarget) (by simp [Target.field?, key_inj])]
    cases list with
    | nil =>
      simp [entries, lookup_cons_eq, key_inj, lookup_nil_ite, Target.zero, Value.toList]
    | cons f fs =>
      simp [entries, List.lookup_append, lookup_cons_eq, key_inj, readEntry, lookup_nil_ite,
        Value.toList, hfiles]

/-- Making an info dictionary from content that holds every byte of the files succeeds, with
bytes that decode into a record of what it was made from. -/
theorem build_decode {T : Nat} {len : Int64} {list : List FileEntry} (hs : Shape files len list)
    (hpl : pl ≠ 0) (hlen : ∀ f ∈ files, 0 ≤ f.length.toInt)
    (hT : (files.map fun f => f.length.toInt).sum = T) (hT63 : T < 2 ^ 63)
    (hname : name.length < 2 ^ 31) (hpath : ∀ f ∈ files, ∀ e ∈ f.path, e.length < 2 ^ 31)
    (hcount : 20 * pieceCount pl.toNat T < 2 ^ 31) (hdata : T ≤ data.length) :
    ∃ w, build name files pl data =
        .ok (encode (sortedDict (entries name pl (chunkHashes pl.toNat T data) len list))) ∧
      decode target (encode (sortedDict (entries name pl (chunkHashes pl.toNat T data) len list))) =
        ⟨w, [], none⟩ ∧
      Fields w pl (chunkHashes pl.toNat T data) [] name len list := by
  have htotal := total_toInt hlen hT hT63
  have hP := hashPieces_eq (pieceLength_pos hpl) (data.length + 1)
    (files.foldl (fun acc (f : FileEntry) => acc + f.length) 0) data (by omega) (by omega)
    (by omega)
  rw [htotal, Int.toNat_natCast] at hP
  have hPlen : (chunkHashes pl.toNat T data).length < 2 ^ 31 := by
    rw [length_chunkHashes]
    exact hcount
  obtain ⟨w, hd, hf⟩ := decode_entries pl len hname hPlen fun f hf => hpath f (hs.mem hf)
  exact ⟨w, build_eq hs hpl hP, hd, hf⟩

end Build

/-! ### Made and read back -/

/-- **Reading refuses what making accepts when a path element is `..` only once blank runes are
trimmed from it.** Making writes such an element as it is; reading names the first file that has
one. -/
theorem build_read_parent (name : List UInt8) (files : List FileEntry) (pl : UInt32)
    (data : List UInt8) (T : Nat) (hpl : pl ≠ 0) (hlen : ∀ f ∈ files, 0 ≤ f.length.toInt)
    (hT : (files.map fun f => f.length.toInt).sum = T) (hT63 : T < 2 ^ 63)
    (hname : name.length < 2 ^ 31) (hpath : ∀ f ∈ files, ∀ e ∈ f.path, e.length < 2 ^ 31)
    (hcount : 20 * pieceCount pl.toNat T < 2 ^ 31) (hdata : T ≤ data.length)
    (pre post : List FileEntry) (f : FileEntry) (hfiles : files = pre ++ f :: post)
    (hpre : ∀ g ∈ pre, ∀ e ∈ g.path, isParent e = false) (hf : ∃ e ∈ f.path, isParent e = true) :
    ∃ bytes, build name files pl data = .ok bytes ∧
      ofBytes bytes = .error (.invalidFileName (Path.join f.path)) := by
  obtain ⟨len, list, hs⟩ := Shape.exists_of files
  obtain ⟨w, hbuild, hd, hfields⟩ := build_decode hs hpl hlen hT hT63 hname hpath hcount hdata
  -- a file with a path element is never the single file written as the one length
  have hne : list ≠ [] := by
    intro hnil
    have hmem : f ∈ files := hfiles ▸ List.mem_append_right pre List.mem_cons_self
    obtain ⟨e, he, -⟩ := hf
    rcases hs.nil_iff.1 hnil with h0 | ⟨g, hg, hgpath⟩
    · simp [h0] at hmem
    · rw [hg, List.mem_singleton] at hmem
      rw [hmem, hgpath] at he
      simp at he
  have hPlen := length_chunkHashes pl.toNat T data
  exact ⟨_, hbuild, ofBytes_parent hd hfields hpl hPlen (by omega)
    ((hs.eq_of_ne_nil hne).trans hfiles) (fun g hg => by simpa using hpre g hg) (by simpa using hf)⟩

end BitTorrent.Info
