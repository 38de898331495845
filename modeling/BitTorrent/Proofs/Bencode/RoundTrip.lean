import BitTorrent.Bencode.Decode
import BitTorrent.Bencode.Encode
import BitTorrent.Proofs.Text.Decimal
import BitTorrent.Proofs.Text.Bytes

/-!
# Decoding what was encoded

A bencoded value followed by anything is decoded into a fresh destination of a target that holds
it, leaving exactly the bytes after it (`Bencode.ReadsAs`): a signed 64-bit integer into a signed
target, a natural number below `2 ^ 64` into an unsigned one (keeping its low bits), a string of
fewer than `2 ^ 31` bytes into a text or byte string, a list element by element
(`Bencode.readsAs_list`), and a dictionary with distinct keys, each naming a field, into a record
whose fields are the entries' values and the fresh value elsewhere (`Bencode.readsAs_record`).

The decoder spends one unit of fuel per value or element, and every value takes at least one byte,
so the fuel `decode` gives, twice the length of the input and more, is enough
(`Bencode.decode_encode`).
-/

namespace BitTorrent

namespace Bencode

open Decoder

theorem encode_int (n : Int) : encode (.int n) = 105 :: (Decimal.intNumeral n ++ [101]) := by
  simp [encode]

theorem encode_str (b : List UInt8) :
    encode (.str b) = Decimal.numeral b.length ++ 58 :: b := by
  simp [encode, encodeString]

theorem encode_list (xs : List Value) : encode (.list xs) = 108 :: (encodeList xs ++ [101]) := by
  simp [encode]

theorem encode_dict (es : List (List UInt8 × Value)) :
    encode (.dict es) = 100 :: (encodeEntries es ++ [101]) := by
  simp [encode]

/-- Reading up to a delimiter that first comes after `xs`. -/
theorem readUntil_append {delim : UInt8} {xs : List UInt8} (h : delim ∉ xs) (rest : List UInt8) :
    readUntil delim (xs ++ delim :: rest) = .ok (xs, rest) := by
  have hidx : (xs ++ delim :: rest).idxOf? delim = some xs.length := by
    induction xs with
    | nil => simp [List.idxOf?, List.findIdx?_cons]
    | cons x xs ih =>
      have hx : x ≠ delim := fun hx => h (hx ▸ List.mem_cons_self)
      have ih := ih (fun hm => h (List.mem_cons_of_mem x hm))
      simp [List.idxOf?_cons, hx, ih]
  simp [readUntil, hidx]

theorem readFull_append (b rest : List UInt8) : readFull b.length (b ++ rest) = .ok (b, rest) := by
  unfold readFull
  by_cases hb : b = []
  · subst hb
    simp
  · have hlen : b.length ≠ 0 := by simpa using hb
    simp [hlen, hb]

/-- A numeral holds no byte that is not a digit. -/
theorem not_mem_numeral {n : Nat} {c : UInt8} (hc : c.toNat < 48 ∨ 58 ≤ c.toNat) :
    c ∉ Decimal.numeral n := by
  intro hm
  obtain ⟨d, hd, hcd⟩ := Decimal.mem_numeral hm
  have := Decimal.digitByte_eq hd
  rw [← hcd] at this
  omega

theorem not_mem_intNumeral {n : Int} : (101 : UInt8) ∉ Decimal.intNumeral n := by
  unfold Decimal.intNumeral
  split
  · simp only [List.mem_cons, not_or]
    exact ⟨by decide, not_mem_numeral (by decide)⟩
  · exact not_mem_numeral (by decide)

theorem readString_encode {b : List UInt8} (hb : b.length < 2 ^ 31) (rest : List UInt8) :
    readString (Decimal.numeral b.length ++ 58 :: (b ++ rest)) = .ok (b, rest) := by
  have hread : Decimal.readSigned 32 (Decimal.intNumeral b.length) = .ok b.length :=
    Decimal.readSigned_intNumeral (by decide) (by omega) (by push_cast; omega)
  simp only [Decimal.intNumeral, Nat.cast_nonneg, not_lt.2, if_false, Int.toNat_natCast] at hread
  simp [readString, readUntil_append (not_mem_numeral (c := 58) (by decide)), hread, bind,
    Except.bind, pure, Except.pure, readFull_append]

/-! ### One step of the decoder

The decoder's equations, for the targets and first bytes met here. -/

theorem decodeInto_signed {f : Nat} {cur : Value} {tail digits rest : List UInt8}
    (h : readUntil 101 tail = .ok (digits, rest)) :
    decodeInto (f + 1) .signed cur (105 :: tail) = intInto .signed cur digits rest := by
  conv_lhs => whnf
  rw [h]

theorem decodeInto_unsigned {f bits : Nat} {cur : Value} {tail digits rest : List UInt8}
    (h : readUntil 101 tail = .ok (digits, rest)) :
    decodeInto (f + 1) (.unsigned bits) cur (105 :: tail) =
      intInto (.unsigned bits) cur digits rest := by
  conv_lhs => whnf
  rw [h]

/-- A digit opens a string. -/
structure OpensString (c : UInt8) : Prop where
  not_int : (c == 105) = false
  not_list : (c == 108) = false
  not_dict : (c == 100) = false
  digit : isDigit c = true

theorem opensString_of_digit {c : UInt8} (hlo : 48 ≤ c.toNat) (hhi : c.toNat ≤ 57) :
    OpensString c where
  not_int := by simp; intro h; rw [h] at hhi; simp at hhi
  not_list := by simp; intro h; rw [h] at hhi; simp at hhi
  not_dict := by simp; intro h; rw [h] at hhi; simp at hhi
  digit := by simp [isDigit, UInt8.le_iff_toNat_le, hlo, hhi]

theorem decodeInto_string {f : Nat} {t : Target} (ht : t = .text ∨ t = .bytes) {cur : Value}
    {c : UInt8} {tail data rest : List UInt8} (hc : OpensString c)
    (h : readString (c :: tail) = .ok (data, rest)) :
    decodeInto (f + 1) t cur (c :: tail) = ⟨.str data, rest, none⟩ := by
  -- the first byte opens neither an integer, a list nor a dictionary, but a string
  rcases ht with rfl | rfl
  · conv_lhs => whnf
    rw [hc.not_int, hc.not_list, hc.not_dict, hc.digit, h]
    rfl
  · conv_lhs => whnf
    rw [hc.not_int, hc.not_list, hc.not_dict, hc.digit, h]
    rfl

theorem decodeInto_list (f : Nat) (elem : Target) (xs : List Value) (tail : List UInt8) :
    decodeInto (f + 1) (.list elem) (.list xs) (108 :: tail) =
      let r := decodeList f elem xs 0 tail
      ⟨.list r.1, r.2.1, r.2.2⟩ :=
  rfl

theorem decodeInto_record (f : Nat) (name : String) (fields : List (String × Target))
    (es : List (List UInt8 × Value)) (tail : List UInt8) :
    decodeInto (f + 1) (.record name fields) (.dict es) (100 :: tail) =
      let r := decodeDict f fields es tail
      ⟨.dict r.1, r.2.1, r.2.2⟩ :=
  rfl

theorem decodeList_end (f : Nat) (elem : Target) (xs : List Value) (i : Nat) (rest : List UInt8) :
    decodeList (f + 1) elem xs i (101 :: rest) = (xs, rest, none) :=
  rfl

theorem decodeList_elem {f : Nat} {elem : Target} {xs : List Value} {i : Nat} {b : UInt8}
    {bs : List UInt8} (hb : b ≠ 101) {w : Value} {rest : List UInt8}
    (hd : decodeInto f elem (elementAt elem xs i) (b :: bs) = ⟨w, rest, none⟩) :
    decodeList (f + 1) elem xs i (b :: bs) = decodeList f elem (setElement elem xs i w) (i + 1) rest := by
  simp [decodeList, hb, hd]

theorem decodeDict_end (f : Nat) (fields : List (String × Target))
    (es : List (List UInt8 × Value)) (rest : List UInt8) :
    decodeDict (f + 1) fields es (101 :: rest) = (es, rest, none) :=
  rfl

theorem decodeDict_field {f : Nat} {fields : List (String × Target)}
    {es : List (List UInt8 × Value)} {b : UInt8} {bs k r1 : List UInt8} (hb : b ≠ 101)
    (hk : readString (b :: bs) = .ok (k, r1)) {t : Target} (ht : Target.field? fields k = some t)
    {w : Value} {r2 : List UInt8}
    (hd : decodeInto f t (((es.find? (·.1 == k)).map (·.2)).getD t.zero) r1 = ⟨w, r2, none⟩) :
    decodeDict (f + 1) fields es (b :: bs) = decodeDict f fields (Value.setEntry es k w) r2 := by
  rw [decodeDict]
  · simp [hk, ht, hd]
  · simp
  · intro rest h
    exact hb (List.cons.inj h).1

/-- Value `v`, bencoded and followed by any bytes, is read into a fresh destination of target `t`
as `w`, leaving the bytes after it, whenever the decoder has as much fuel as `v` has bytes. Its
encoding opens with a byte other than the end of a list, as every value but raw bytes does. -/
def ReadsAs (t : Target) (v w : Value) : Prop :=
  (∃ b bs, encode v = b :: bs ∧ b ≠ 101) ∧
    ∀ fuel rest, (encode v).length ≤ fuel →
      decodeInto fuel t t.zero (encode v ++ rest) = ⟨w, rest, none⟩

theorem ReadsAs.decode {t : Target} {v w : Value} (h : ReadsAs t v w) (rest : List UInt8) :
    decode t (encode v ++ rest) = ⟨w, rest, none⟩ :=
  h.2 _ rest (by simp; omega)

theorem succ_of_le_length {fuel : Nat} {b : UInt8} {bs : List UInt8} (h : (b :: bs).length ≤ fuel) :
    ∃ f, fuel = f + 1 ∧ bs.length ≤ f :=
  ⟨fuel - 1, by simp at h; omega, by simp at h; omega⟩

theorem int_head (n : Int) : ∃ b bs, encode (.int n) = b :: bs ∧ b ≠ 101 :=
  ⟨105, _, encode_int n, by decide⟩

theorem intNumeral_ofNat (n : Nat) : Decimal.intNumeral n = Decimal.numeral n := by
  simp [Decimal.intNumeral]

theorem readsAs_signed {n : Int} (hlo : -2 ^ 63 ≤ n) (hhi : n < 2 ^ 63) :
    ReadsAs .signed (.int n) (.int n) := by
  refine ⟨int_head n, fun fuel rest hfuel => ?_⟩
  rw [encode_int] at hfuel ⊢
  obtain ⟨f, rfl, -⟩ := succ_of_le_length hfuel
  have hread : Decimal.readSigned 64 (Decimal.intNumeral n) = .ok n :=
    Decimal.readSigned_intNumeral (by decide) hlo hhi
  rw [List.cons_append, List.append_assoc, List.singleton_append,
    decodeInto_signed (readUntil_append not_mem_intNumeral rest)]
  simp [intInto, hread]

theorem readsAs_unsigned (bits : Nat) {n : Nat} (hn : n < 2 ^ 64) :
    ReadsAs (.unsigned bits) (.int n) (.int (n % 2 ^ bits : Nat)) := by
  refine ⟨int_head n, fun fuel rest hfuel => ?_⟩
  rw [encode_int] at hfuel ⊢
  obtain ⟨f, rfl, -⟩ := succ_of_le_length hfuel
  have hread : Decimal.readUnsigned 64 (Decimal.numeral n) = .ok n :=
    Decimal.readUnsigned_numeral le_rfl hn
  rw [List.cons_append, List.append_assoc, List.singleton_append,
    decodeInto_unsigned (readUntil_append not_mem_intNumeral rest)]
  simp [intInto, intNumeral_ofNat, hread]

/-- The length of a string opens its encoding with a digit. -/
theorem numeral_head (n : Nat) :
    ∃ c cs, Decimal.numeral n = c :: cs ∧ 48 ≤ c.toNat ∧ c.toNat ≤ 57 := by
  obtain ⟨c, cs, hc⟩ := List.exists_cons_of_ne_nil (Decimal.numeral_ne_nil n)
  obtain ⟨d, hd, hcd⟩ := Decimal.mem_numeral (hc ▸ List.mem_cons_self : c ∈ Decimal.numeral n)
  have := Decimal.digitByte_eq hd
  exact ⟨c, cs, hc, by rw [hcd]; omega, by rw [hcd]; omega⟩

theorem readsAs_str {t : Target} (ht : t = .text ∨ t = .bytes) {b : List UInt8}
    (hb : b.length < 2 ^ 31) : ReadsAs t (.str b) (.str b) := by
  obtain ⟨c, cs, hnum, hlo, hhi⟩ := numeral_head b.length
  have hrs := readString_encode hb
  rw [hnum] at hrs
  refine ⟨⟨c, cs ++ 58 :: b, by rw [encode_str, hnum]; rfl, ?_⟩, fun fuel rest hfuel => ?_⟩
  · intro h
    rw [h] at hhi
    simp at hhi
  rw [encode_str, hnum] at hfuel ⊢
  obtain ⟨f, rfl, -⟩ := succ_of_le_length hfuel
  have hrest := hrs rest
  simp only [List.cons_append, List.append_assoc] at hrest ⊢
  exact decodeInto_string ht (opensString_of_digit hlo hhi) hrest

/-! ### Lists -/

theorem elementAt_length (elem : Target) (xs : List Value) :
    elementAt elem xs xs.length = elem.zero := by
  simp [elementAt]

theorem setElement_length (elem : Target) (xs : List Value) (w : Value) :
    setElement elem xs xs.length w = xs ++ [w] := by
  simp [setElement]

theorem length_encode_pos {v : Value} (h : ∃ b bs, encode v = b :: bs ∧ b ≠ 101) :
    1 ≤ (encode v).length := by
  obtain ⟨b, bs, hv, -⟩ := h
  simp [hv]

/-- The elements of a list are decoded one after another, each into a fresh element appended to
those before it, up to the end of the list. -/
theorem decodeList_encodeList {elem : Target} {xs ys : List Value}
    (h : List.Forall₂ (ReadsAs elem) xs ys) :
    ∀ (acc : List Value) (fuel : Nat) (rest : List UInt8), (encodeList xs).length + 1 ≤ fuel →
      decodeList fuel elem acc acc.length (encodeList xs ++ 101 :: rest) = (acc ++ ys, rest, none) := by
  induction h with
  | nil =>
    intro acc fuel rest hfuel
    obtain ⟨f, rfl⟩ : ∃ f, fuel = f + 1 := ⟨fuel - 1, by omega⟩
    simp [encodeList, decodeList_end]
  | @cons x y xs ys hxy _ ih =>
    intro acc fuel rest hfuel
    have hx := length_encode_pos hxy.1
    simp only [encodeList, List.length_append] at hfuel
    obtain ⟨f, rfl⟩ : ∃ f, fuel = f + 1 := ⟨fuel - 1, by omega⟩
    obtain ⟨b, bs, hb, hb101⟩ := hxy.1
    have hd := hxy.2 f (encodeList xs ++ 101 :: rest) (by omega)
    rw [hb, ← elementAt_length elem acc] at hd
    simp only [encodeList, List.append_assoc, hb, List.cons_append] at hd ⊢
    rw [decodeList_elem hb101 hd, setElement_length]
    simpa using ih (acc ++ [y]) f rest (by omega)

theorem readsAs_list {elem : Target} {xs ys : List Value} (h : List.Forall₂ (ReadsAs elem) xs ys) :
    ReadsAs (.list elem) (.list xs) (.list ys) := by
  refine ⟨⟨108, _, encode_list xs, by decide⟩, fun fuel rest hfuel => ?_⟩
  rw [encode_list] at hfuel ⊢
  obtain ⟨f, rfl, hf⟩ := succ_of_le_length hfuel
  simp only [List.length_append, List.length_singleton] at hf
  simp only [List.cons_append, List.append_assoc]
  have hl := decodeList_encodeList h [] f rest (by omega)
  rw [Target.zero, decodeInto_list]
  simp only [List.length_nil, List.nil_append] at hl
  simp [hl]

/-! ### Records -/

section Lookup

variable {α : Type}

theorem key_inj {a b : String} : key a = key b ↔ a = b := by
  constructor
  · intro h
    simp only [key, String.toUTF8_eq_toByteArray, Bytes.byteArray_toList] at h
    exact String.toByteArray_inj.1 (ByteArray.ext (Array.toList_inj.1 h))
  · rintro rfl
    rfl

theorem lookup_cons_eq (a k' : List UInt8) (w : α) (xs : List (List UInt8 × α)) :
    ((a, w) :: xs).lookup k' = if k' = a then some w else xs.lookup k' := by
  by_cases h : k' = a
  · simp [h]
  · simp [List.lookup_cons, h, beq_eq_false_iff_ne.2 h]

/-- Entries with distinct keys give every key the same value in any order. -/
theorem lookup_eq_of_perm {es es' : List (List UInt8 × α)} (hp : es.Perm es')
    (hnodup : (es.map (·.1)).Nodup) (k : List UInt8) : es.lookup k = es'.lookup k := by
  induction hp with
  | nil => rfl
  | cons e _ ih =>
    obtain ⟨a, w⟩ := e
    rw [lookup_cons_eq, lookup_cons_eq, ih (List.nodup_cons.1 hnodup).2]
  | swap e₁ e₂ l =>
    obtain ⟨a₁, w₁⟩ := e₁
    obtain ⟨a₂, w₂⟩ := e₂
    have hne : a₂ ≠ a₁ := fun h => (List.nodup_cons.1 hnodup).1 (by simp [h])
    simp only [lookup_cons_eq]
    by_cases h₁ : k = a₁ <;> by_cases h₂ : k = a₂ <;> simp_all
  | trans h₁ _ ih₁ ih₂ =>
    rw [ih₁ hnodup, ih₂ ((h₁.map (·.1)).nodup_iff.1 hnodup)]

theorem lookup_map_entries {β : Type} (g : List UInt8 → α → β) (es : List (List UInt8 × α))
    (k : List UInt8) : (es.map fun e => (e.1, g e.1 e.2)).lookup k = (es.lookup k).map (g k) := by
  induction es with
  | nil => rfl
  | cons e es ih =>
    obtain ⟨a, w⟩ := e
    rw [List.map_cons, lookup_cons_eq, lookup_cons_eq, ih]
    by_cases h : k = a
    · simp [h]
    · simp [h]

end Lookup

/-- The fields of a record read from entries `ws`: each field holds the value of the entry of
its key, or its fresh value when no entry has that key. -/
def fill (fields : List (String × Target)) (ws : List (List UInt8 × Value)) :
    List (List UInt8 × Value) :=
  fields.map fun f => (key f.1, (ws.lookup (key f.1)).getD f.2.zero)

theorem zeroFields_eq (fields : List (String × Target)) :
    Target.zeroFields fields = fill fields [] := by
  induction fields with
  | nil => rfl
  | cons f fields ih =>
    obtain ⟨k, t⟩ := f
    simp [Target.zeroFields, ih, fill]

theorem find?_fill {fields : List (String × Target)} {ws : List (List UInt8 × Value)}
    {k : List UInt8} {t : Target} (h : Target.field? fields k = some t) :
    (fill fields ws).find? (·.1 == k) = some (k, (ws.lookup k).getD t.zero) := by
  obtain ⟨f, hf, rfl⟩ := Option.map_eq_some_iff.1 h
  have hk : key f.1 = k := by simpa using List.find?_some hf
  simp only [fill, List.find?_map, Function.comp_def]
  rw [hf]
  simp [hk]

/-- Writing the entry of a field's key over a record that does not hold it yet. -/
theorem setEntry_fill {fields : List (String × Target)} {ws : List (List UInt8 × Value)}
    {k : List UInt8} {t : Target} (h : Target.field? fields k = some t) (hk : ws.lookup k = none)
    (w : Value) : Value.setEntry (fill fields ws) k w = fill fields (ws ++ [(k, w)]) := by
  have hany : (fill fields ws).any (·.1 == k) = true := by
    rw [List.any_eq_true]
    exact ⟨_, List.mem_of_find?_eq_some (find?_fill h), by simp⟩
  rw [Value.setEntry, if_pos hany]
  simp only [fill, List.map_map]
  apply List.map_congr_left
  intro f _
  by_cases hf : key f.1 = k
  · simp [hf, hk, List.lookup_append]
  · have hne : (key f.1 == k) = false := by simpa using hf
    simp [hf, List.lookup_append, List.lookup_cons, hne]

/-- Entry `e` of a dictionary has a key of fewer than `2 ^ 31` bytes naming a field of the record,
and its value reads into that field as `g` says. -/
def EntryReads (fields : List (String × Target)) (g : List UInt8 → Value → Value)
    (e : List UInt8 × Value) : Prop :=
  e.1.length < 2 ^ 31 ∧ ∃ t, Target.field? fields e.1 = some t ∧ ReadsAs t e.2 (g e.1 e.2)

/-- The entries of a dictionary are read one after another, each into its field, over a record
whose fields of the keys still to come hold their fresh values. -/
theorem decodeDict_encodeEntries {fields : List (String × Target)}
    {g : List UInt8 → Value → Value} (es : List (List UInt8 × Value)) :
    ∀ (done : List (List UInt8 × Value)), (es.map (·.1)).Nodup →
      (∀ e ∈ es, done.lookup e.1 = none) → (∀ e ∈ es, EntryReads fields g e) →
      ∀ (fuel : Nat) (rest : List UInt8), (encodeEntries es).length + 1 ≤ fuel →
        decodeDict fuel fields (fill fields done) (encodeEntries es ++ 101 :: rest) =
          (fill fields (done ++ es.map fun e => (e.1, g e.1 e.2)), rest, none) := by
  induction es with
  | nil =>
    intro done _ _ _ fuel rest hfuel
    obtain ⟨f, rfl⟩ : ∃ f, fuel = f + 1 := ⟨fuel - 1, by simp [encodeEntries] at hfuel; omega⟩
    simp [encodeEntries, decodeDict_end]
  | cons e es ih =>
    obtain ⟨k, v⟩ := e
    intro done hnodup hfresh hreads fuel rest hfuel
    simp only [List.map_cons, List.nodup_cons] at hnodup
    obtain ⟨hklen, t, hft, hr⟩ := hreads (k, v) List.mem_cons_self
    dsimp only at hklen hft hr
    have hkfresh : done.lookup k = none := hfresh (k, v) List.mem_cons_self
    obtain ⟨c, cs, hnum, hlo, hhi⟩ := numeral_head k.length
    have hvlen := length_encode_pos hr.1
    simp only [encodeEntries, encodeString, List.length_append, List.length_singleton] at hfuel
    obtain ⟨f, rfl⟩ : ∃ f, fuel = f + 1 := ⟨fuel - 1, by omega⟩
    have hnumlen : 1 ≤ (Decimal.numeral k.length).length := by simp [hnum]
    -- the key, then its value read into the field's fresh value
    have hk := readString_encode hklen (encode v ++ (encodeEntries es ++ 101 :: rest))
    rw [hnum] at hk
    simp only [List.cons_append] at hk
    have hd := hr.2 f (encodeEntries es ++ 101 :: rest) (by omega)
    have hcur : (((fill fields done).find? (·.1 == k)).map (·.2)).getD t.zero = t.zero := by
      simp [find?_fill hft, hkfresh]
    have hc : c ≠ 101 := by
      intro h
      rw [h] at hhi
      simp at hhi
    simp only [encodeEntries, encodeString, hnum, List.cons_append, List.append_assoc,
      List.nil_append]
    rw [decodeDict_field hc hk hft (hcur ▸ hd), setEntry_fill hft hkfresh]
    have hrest : ∀ e ∈ es, (done ++ [(k, g k v)]).lookup e.1 = none := by
      intro e he
      have hne : (e.1 == k) = false := by
        simp only [beq_eq_false_iff_ne]
        exact fun h => hnodup.1 (h ▸ List.mem_map_of_mem he)
      simp [List.lookup_append, hfresh e (List.mem_cons_of_mem _ he), List.lookup_cons, hne]
    rw [ih (done ++ [(k, g k v)]) hnodup.2 hrest
      (fun e he => hreads e (List.mem_cons_of_mem _ he)) f rest (by omega)]
    simp

/-- A dictionary whose keys are distinct and each name a field is read into a record holding
the entries' values in its fields. -/
theorem readsAs_record {name : String} {fields : List (String × Target)}
    {g : List UInt8 → Value → Value} {es : List (List UInt8 × Value)}
    (hnodup : (es.map (·.1)).Nodup) (hreads : ∀ e ∈ es, EntryReads fields g e) :
    ReadsAs (.record name fields) (.dict es)
      (.dict (fill fields (es.map fun e => (e.1, g e.1 e.2)))) := by
  refine ⟨⟨100, _, encode_dict es, by decide⟩, fun fuel rest hfuel => ?_⟩
  rw [encode_dict] at hfuel ⊢
  obtain ⟨f, rfl, hf⟩ := succ_of_le_length hfuel
  simp only [List.length_append, List.length_singleton] at hf
  simp only [List.cons_append, List.append_assoc]
  have hd := decodeDict_encodeEntries es [] hnodup (fun _ _ => rfl) hreads f rest (by omega)
  rw [Target.zero, zeroFields_eq, decodeInto_record]
  simp [hd]

/-- A field of a record read from entries `ws`. -/
theorem get?_fill {fields : List (String × Target)} {ws : List (List UInt8 × Value)} {k : String}
    {t : Target} (h : Target.field? fields (key k) = some t) :
    Value.get? (.dict (fill fields ws)) k = some ((ws.lookup (key k)).getD t.zero) := by
  simp [Value.get?, find?_fill h]

/-- A dictionary written with its keys sorted is read as its entries: a field of the record
holds the value of its key's entry wherever sorting put it, or its fresh value. -/
theorem readsAs_sortedDict {name : String} {fields : List (String × Target)}
    {g : List UInt8 → Value → Value} {es : List (List UInt8 × Value)}
    (hnodup : (es.map (·.1)).Nodup) (hreads : ∀ e ∈ es, EntryReads fields g e) :
    ∃ w, ReadsAs (.record name fields) (sortedDict es) w ∧
      ∀ k t, Target.field? fields (key k) = some t →
        w.get? k = some (((es.lookup (key k)).map (g (key k))).getD t.zero) := by
  have hp := List.mergeSort_perm es fun a b => bytesLe a.1 b.1
  have hnodup' := (hp.map (·.1)).nodup_iff.2 hnodup
  refine ⟨_, readsAs_record hnodup' fun e he => hreads e (hp.mem_iff.1 he), fun k t h => ?_⟩
  rw [get?_fill h, lookup_map_entries, lookup_eq_of_perm hp hnodup']

theorem readsAs_uint32 (b : UInt32) : ReadsAs (.unsigned 32) (.int b.toNat) (.int b.toNat) := by
  have h := readsAs_unsigned 32 (n := b.toNat) (by have := b.toNat_lt; omega)
  rwa [Nat.mod_eq_of_lt b.toNat_lt] at h

end Bencode

end BitTorrent
