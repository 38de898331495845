import BitTorrent.Proofs.Bencode.RoundTrip

/-!
# Raw values

A raw target keeps the exact bytes of one value: the decoder skips the value, checking its form
only, and stores what it passed over. This module says what skipping consumes.

A successful skip consumed a prefix of its input that is one whole value on its own: skipped
again with as much fuel as it has bytes, and followed by anything else, it is consumed the same
(`Bencode.skip_eq_ok`). Every value that the decoder reads into some target is such a value
(`Bencode.skip_of_decodeInto`, `Bencode.ReadsAs.isValue`), and a value whose encoding is exactly
one bencoded value (`Bencode.IsValue`) reads as raw bytes, its encoding, wherever it stands
(`Bencode.IsValue.readsAs`).
-/

namespace BitTorrent

namespace Bencode

open Decoder

/-! ### Reading up to a delimiter and reading a string -/

theorem readUntil_cons (delim b : UInt8) (bs : List UInt8) :
    readUntil delim (b :: bs) =
      if b = delim then .ok ([], bs) else (fun r => (b :: r.1, r.2)) <$> readUntil delim bs := by
  by_cases hb : b = delim
  · simp [readUntil, List.idxOf?_cons, hb]
  · have hbeq : (b == delim) = false := by simpa using hb
    simp only [readUntil, List.idxOf?_cons, hbeq, Bool.false_eq_true, if_false, hb]
    cases bs.idxOf? delim <;> rfl

/-- What reading up to a delimiter answers: the bytes before its first occurrence and those after
it. -/
theorem readUntil_eq_ok {delim : UInt8} {bs xs rest : List UInt8}
    (h : readUntil delim bs = .ok (xs, rest)) : delim ∉ xs ∧ bs = xs ++ delim :: rest := by
  induction bs generalizing xs with
  | nil => simp [readUntil] at h
  | cons b bs ih =>
    rw [readUntil_cons] at h
    by_cases hb : b = delim
    · simp only [hb, if_true, Except.ok.injEq, Prod.mk.injEq] at h
      obtain ⟨rfl, rfl⟩ := h
      simp [hb]
    · simp only [hb, if_false] at h
      cases hr : readUntil delim bs with
      | error e => simp [hr, Functor.map, Except.map] at h
      | ok r =>
        obtain ⟨ys, rest'⟩ := r
        simp only [hr, Functor.map, Except.map, Except.ok.injEq, Prod.mk.injEq] at h
        obtain ⟨rfl, rfl⟩ := h
        obtain ⟨hys, rfl⟩ := ih hr
        exact ⟨by simp [Ne.symm hb, hys], rfl⟩

theorem readFull_eq_ok {n : Nat} {bs data rest : List UInt8}
    (h : readFull n bs = .ok (data, rest)) : data.length = n ∧ bs = data ++ rest := by
  unfold readFull at h
  split_ifs at h with h0 hempty hshort
  · simp only [Except.ok.injEq, Prod.mk.injEq] at h
    obtain ⟨rfl, rfl⟩ := h
    simp_all
  · simp only [Except.ok.injEq, Prod.mk.injEq] at h
    obtain ⟨rfl, rfl⟩ := h
    simp only [List.take_append_drop, and_true]
    simp only [List.length_take]
    omega

/-- A string read from the front of the input was written at the front, and reads the same
whatever follows it. -/
theorem readString_eq_ok {bs data rest : List UInt8} (h : readString bs = .ok (data, rest)) :
    ∃ p, bs = p ++ rest ∧ p ≠ [] ∧ ∀ s, readString (p ++ s) = .ok (data, s) := by
  unfold readString at h
  cases hu : readUntil 58 bs with
  | error e => simp [hu, bind, Except.bind] at h
  | ok r =>
    obtain ⟨text, r1⟩ := r
    obtain ⟨h58, rfl⟩ := readUntil_eq_ok hu
    cases hn : Decimal.readSigned 32 text with
    | error e => simp [hu, hn, bind, Except.bind, throw, throwThe, MonadExceptOf.throw] at h
    | ok n =>
      by_cases hneg : n < 0
      · simp [hu, hn, hneg, bind, Except.bind, pure, Except.pure, throw, throwThe,
          MonadExceptOf.throw] at h
      · simp only [hu, hn, hneg, bind, Except.bind, pure, Except.pure, if_false] at h
        obtain ⟨hlen, rfl⟩ := readFull_eq_ok h
        refine ⟨text ++ 58 :: data, by simp, by simp, fun s => ?_⟩
        have hs : text ++ 58 :: data ++ s = text ++ 58 :: (data ++ s) := by simp
        have hfull : readFull n.toNat (data ++ s) = .ok (data, s) := hlen ▸ readFull_append data s
        simp [readString, hs, readUntil_append h58, hn, hneg, bind, Except.bind, pure,
          Except.pure, hfull]

/-! ### What skipping consumes -/

/-- `p` is one whole item for the reader `run`: given as much fuel as `p` has bytes, `run` reads
`p` and leaves whatever follows it. -/
def Consumes (run : Nat → List UInt8 → Except DecodeError (List UInt8)) (p : List UInt8) : Prop :=
  p ≠ [] ∧ ∀ fuel s, p.length ≤ fuel → run fuel (p ++ s) = .ok s

theorem skip_succ_cons (f : Nat) (b : UInt8) (tail : List UInt8) :
    skip (f + 1) (b :: tail) =
      if b == 105 then (·.2) <$> readUntil 101 tail
      else if b == 108 then skip.skipList f tail
      else if b == 100 then skip.skipDict f tail
      else if isDigit b then (·.2) <$> readString (b :: tail)
      else .error .invalidInput := by
  rw [skip]

theorem skipList_succ_end (f : Nat) (rest : List UInt8) :
    skip.skipList (f + 1) (101 :: rest) = .ok rest := by
  rw [skip.skipList]

theorem skipList_succ_cons {f : Nat} {b : UInt8} (tail : List UInt8) (hb : b ≠ 101) :
    skip.skipList (f + 1) (b :: tail) = (do skip.skipList f (← skip f (b :: tail))) := by
  rw [skip.skipList]
  · simp
  · intro rest hr
    exact hb (List.cons.inj hr).1

theorem skipDict_succ_end (f : Nat) (rest : List UInt8) :
    skip.skipDict (f + 1) (101 :: rest) = .ok rest := by
  rw [skip.skipDict]

theorem skipDict_succ_cons {f : Nat} {b : UInt8} (tail : List UInt8) (hb : b ≠ 101) :
    skip.skipDict (f + 1) (b :: tail) = (do
      let (_, rest) ← readString (b :: tail)
      skip.skipDict f (← skip f rest)) := by
  rw [skip.skipDict]
  · simp
  · intro rest hr
    exact hb (List.cons.inj hr).1

/-- A value never starts with the byte that ends a list or a dictionary. -/
theorem Consumes.head_ne {p : List UInt8} (h : Consumes skip p) :
    ∃ b q, p = b :: q ∧ b ≠ 101 := by
  obtain ⟨hne, hrun⟩ := h
  obtain ⟨b, q, rfl⟩ := List.exists_cons_of_ne_nil hne
  refine ⟨b, q, rfl, fun hb => ?_⟩
  have hskip := hrun (q.length + 1) [] (by simp)
  rw [hb, List.cons_append, skip_succ_cons] at hskip
  simp [isDigit] at hskip

theorem exists_of_bind_eq_ok {α β : Type} {x : Except DecodeError α} {g : α → Except DecodeError β} {b : β}
    (h : (x >>= g) = .ok b) : ∃ a, x = .ok a ∧ g a = .ok b := by
  cases x with
  | error e => exact absurd h (by simp [bind, Except.bind])
  | ok a => exact ⟨a, rfl, h⟩

theorem exists_of_map_eq_ok {α β : Type} {x : Except DecodeError α} {g : α → β} {b : β}
    (h : g <$> x = .ok b) : ∃ a, x = .ok a ∧ g a = b := by
  cases x with
  | error e => exact absurd h (by simp [Functor.map, Except.map])
  | ok a => exact ⟨a, rfl, by simpa [Functor.map, Except.map] using h⟩

/-- The fuel for two consumed parts is enough for each, since each part takes at least one byte. -/
theorem fuel_of_append {f : Nat} {p q : List UInt8} (hp : p ≠ []) (hq : q ≠ [])
    (h : (p ++ q).length ≤ f + 1) : p.length ≤ f ∧ q.length ≤ f := by
  have := List.length_pos_of_ne_nil hp
  have := List.length_pos_of_ne_nil hq
  simp only [List.length_append] at h
  omega

theorem succ_of_consumes {p : List UInt8} {fuel : Nat} (hp : p ≠ []) (h : p.length ≤ fuel) :
    ∃ f, fuel = f + 1 := by
  have := List.length_pos_of_ne_nil hp
  exact ⟨fuel - 1, by omega⟩

/-- Bytes take at least one unit of fuel, so a reader consumes them when it does with fuel of the
form `f + 1`. -/
theorem Consumes.of_succ {run : Nat → List UInt8 → Except DecodeError (List UInt8)}
    {p : List UInt8} (hp : p ≠ [])
    (h : ∀ f s, p.length ≤ f + 1 → run (f + 1) (p ++ s) = .ok s) : Consumes run p := by
  refine ⟨hp, fun fuel s hfuel => ?_⟩
  obtain ⟨f, rfl⟩ := succ_of_consumes hp hfuel
  exact h f s hfuel

/-- Input that is neither empty nor the end of a list or dictionary starts with another byte. -/
theorem exists_cons_ne_end {bs : List UInt8} (hnil : bs ≠ []) (hend : ∀ tail, bs ≠ 101 :: tail) :
    ∃ b tail, bs = b :: tail ∧ b ≠ 101 := by
  obtain ⟨b, tail, rfl⟩ := List.exists_cons_of_ne_nil hnil
  exact ⟨b, tail, rfl, fun hb => hend tail (by rw [hb])⟩

/-! One lemma for each form a skip accepts. -/

theorem consumes_int {digits : List UInt8} (h : (101 : UInt8) ∉ digits) :
    Consumes skip (105 :: (digits ++ [101])) := by
  apply Consumes.of_succ (List.cons_ne_nil _ _)
  intro f s _
  simp [skip_succ_cons, readUntil_append h, Functor.map, Except.map]

theorem consumes_list {p : List UInt8} (hp : Consumes skip.skipList p) :
    Consumes skip (108 :: p) := by
  apply Consumes.of_succ (List.cons_ne_nil _ _)
  intro f s hfuel
  simp only [List.length_cons, Nat.add_le_add_iff_right] at hfuel
  simp [skip_succ_cons, hp.2 f s hfuel]

theorem consumes_dict {p : List UInt8} (hp : Consumes skip.skipDict p) :
    Consumes skip (100 :: p) := by
  apply Consumes.of_succ (List.cons_ne_nil _ _)
  intro f s hfuel
  simp only [List.length_cons, Nat.add_le_add_iff_right] at hfuel
  simp [skip_succ_cons, hp.2 f s hfuel]

theorem consumes_string {c : UInt8} {q data : List UInt8} (hc : OpensString c)
    (hread : ∀ s, readString (c :: q ++ s) = .ok (data, s)) : Consumes skip (c :: q) := by
  apply Consumes.of_succ (List.cons_ne_nil _ _)
  intro f s _
  have hs := hread s
  simp only [List.cons_append] at hs ⊢
  simp [skip_succ_cons, hc.not_int, hc.not_list, hc.not_dict, hc.digit, hs, Functor.map,
    Except.map]

theorem consumes_listEnd : Consumes skip.skipList [101] :=
  Consumes.of_succ (List.cons_ne_nil _ _) fun f s _ => skipList_succ_end f s

theorem consumes_dictEnd : Consumes skip.skipDict [101] :=
  Consumes.of_succ (List.cons_ne_nil _ _) fun f s _ => skipDict_succ_end f s

/-- An element, then the rest of the list. -/
theorem Consumes.listElem {p q : List UInt8} (hp : Consumes skip p)
    (hq : Consumes skip.skipList q) : Consumes skip.skipList (p ++ q) := by
  obtain ⟨c, p', rfl, hc⟩ := hp.head_ne
  apply Consumes.of_succ (by simp)
  intro f s hfuel
  obtain ⟨hpf, hqf⟩ := fuel_of_append hp.1 hq.1 hfuel
  have hv := hp.2 f (q ++ s) hpf
  simp only [List.cons_append, List.append_assoc] at hv ⊢
  rw [skipList_succ_cons _ hc, hv]
  exact hq.2 f s hqf

/-- A key, its value, then the rest of the dictionary. -/
theorem Consumes.dictEntry {c : UInt8} {k pk pv pd : List UInt8} (hc : c ≠ 101)
    (hk : ∀ s, readString (c :: pk ++ s) = .ok (k, s)) (hv : Consumes skip pv)
    (hd : Consumes skip.skipDict pd) : Consumes skip.skipDict (c :: pk ++ pv ++ pd) := by
  apply Consumes.of_succ (by simp)
  intro f s hfuel
  -- the key takes at least one byte, so the value and the rest each have their fuel
  have hlen : pv.length ≤ f ∧ pd.length ≤ f := by
    have := List.length_pos_of_ne_nil hv.1
    have := List.length_pos_of_ne_nil hd.1
    simp only [List.length_append, List.length_cons] at hfuel
    omega
  have hks := hk (pv ++ pd ++ s)
  simp only [List.cons_append, List.append_assoc] at hks ⊢
  rw [skipDict_succ_cons _ hc, hks]
  simp only [bind, Except.bind]
  rw [hv.2 f (pd ++ s) hlen.1]
  exact hd.2 f s hlen.2

/-- **What a skip consumes.** A successful skip of a value, of the elements of a list up to its
end, or of the entries of a dictionary up to its end, consumed a prefix of its input that the same
reader consumes whole with as much fuel as it has bytes, before anything else. -/
theorem skip_consumes (fuel : Nat) :
    (∀ bs r, skip fuel bs = .ok r → ∃ p, bs = p ++ r ∧ Consumes skip p) ∧
    (∀ bs r, skip.skipList fuel bs = .ok r → ∃ p, bs = p ++ r ∧ Consumes skip.skipList p) ∧
    (∀ bs r, skip.skipDict fuel bs = .ok r → ∃ p, bs = p ++ r ∧ Consumes skip.skipDict p) := by
  induction fuel with
  | zero => exact ⟨fun _ _ h => by simp [skip] at h, fun _ _ h => by simp [skip.skipList] at h,
      fun _ _ h => by simp [skip.skipDict] at h⟩
  | succ f ih =>
    obtain ⟨ihv, ihl, ihd⟩ := ih
    refine ⟨fun bs r h => ?_, fun bs r h => ?_, fun bs r h => ?_⟩
    · -- a value: its first byte says which kind
      obtain _ | ⟨b, tail⟩ := bs
      · simp [skip] at h
      rw [skip_succ_cons] at h
      split_ifs at h with h105 h108 h100 hdig
      · obtain ⟨⟨digits, rest⟩, hu, hr⟩ := exists_of_map_eq_ok h
        obtain ⟨h101, rfl⟩ := readUntil_eq_ok hu
        obtain rfl : rest = r := hr
        obtain rfl : b = 105 := by simpa using h105
        exact ⟨_, by simp, consumes_int h101⟩
      · obtain ⟨p, rfl, hp⟩ := ihl tail r h
        obtain rfl : b = 108 := by simpa using h108
        exact ⟨_, rfl, consumes_list hp⟩
      · obtain ⟨p, rfl, hp⟩ := ihd tail r h
        obtain rfl : b = 100 := by simpa using h100
        exact ⟨_, rfl, consumes_dict hp⟩
      · obtain ⟨⟨data, rest⟩, hrs, hr⟩ := exists_of_map_eq_ok h
        obtain rfl : rest = r := hr
        obtain ⟨p, hbp, hp, hread⟩ := readString_eq_ok hrs
        obtain ⟨c, q, rfl⟩ := List.exists_cons_of_ne_nil hp
        obtain ⟨rfl, rfl⟩ : b = c ∧ tail = q ++ rest := by simpa using hbp
        have hc : OpensString b := ⟨by simpa using h105, by simpa using h108, by simpa using h100,
          hdig⟩
        exact ⟨_, by simp, consumes_string hc hread⟩
    · -- the elements of a list, up to its end
      obtain _ | ⟨b, tail⟩ := bs
      · simp [skip.skipList] at h
      by_cases hb : b = 101
      · subst hb
        rw [skipList_succ_end] at h
        cases h
        exact ⟨[101], rfl, consumes_listEnd⟩
      rw [skipList_succ_cons _ hb] at h
      obtain ⟨r1, h1, h2⟩ := exists_of_bind_eq_ok h
      obtain ⟨p, hbp, hp⟩ := ihv _ _ h1
      obtain ⟨q, rfl, hq⟩ := ihl _ _ h2
      exact ⟨p ++ q, by simp [hbp], hp.listElem hq⟩
    · -- the entries of a dictionary, up to its end
      obtain _ | ⟨b, tail⟩ := bs
      · simp [skip.skipDict] at h
      by_cases hb : b = 101
      · subst hb
        rw [skipDict_succ_end] at h
        cases h
        exact ⟨[101], rfl, consumes_dictEnd⟩
      rw [skipDict_succ_cons _ hb] at h
      obtain ⟨⟨k, r1⟩, hk, h'⟩ := exists_of_bind_eq_ok h
      obtain ⟨r2, h1, h2⟩ := exists_of_bind_eq_ok h'
      obtain ⟨pk, hbk, hpk, hread⟩ := readString_eq_ok hk
      obtain ⟨c, q, rfl⟩ := List.exists_cons_of_ne_nil hpk
      obtain ⟨rfl, rfl⟩ : b = c ∧ tail = q ++ r1 := by simpa using hbk
      obtain ⟨pv, rfl, hv⟩ := ihv _ _ h1
      obtain ⟨pd, rfl, hd⟩ := ihd _ _ h2
      exact ⟨b :: q ++ pv ++ pd, by simp, Consumes.dictEntry hb hread hv hd⟩

/-! ### Values read into a target are skipped the same -/

theorem rest_intInto (t : Target) (cur : Value) (digits rest : List UInt8) :
    (intInto t cur digits rest).rest = rest := by
  unfold intInto
  split <;> simp only <;> (try split) <;> rfl

theorem rest_stringInto (t : Target) (cur : Value) (data rest : List UInt8) :
    (stringInto t cur data rest).rest = rest := by
  unfold stringInto
  split <;> rfl

/-- **Reading into a target reads one value.** Where the decoder reads a value, an element list
or a dictionary into any target without error, skipping with the same fuel succeeds and stops
where the decoder stopped. -/
theorem skip_of_decodeInto (fuel : Nat) :
    (∀ t cur bs, (decodeInto fuel t cur bs).error = none →
      skip fuel bs = .ok (decodeInto fuel t cur bs).rest) ∧
    (∀ elem xs i bs, (decodeList fuel elem xs i bs).2.2 = none →
      skip.skipList fuel bs = .ok (decodeList fuel elem xs i bs).2.1) ∧
    (∀ fields es bs, (decodeDict fuel fields es bs).2.2 = none →
      skip.skipDict fuel bs = .ok (decodeDict fuel fields es bs).2.1) ∧
    (∀ es bs, (decodeMap fuel es bs).2.2 = none →
      skip.skipDict fuel bs = .ok (decodeMap fuel es bs).2.1) := by
  induction fuel with
  | zero =>
    refine ⟨fun _ _ _ h => ?_, fun _ _ _ _ h => ?_, fun _ _ _ h => ?_, fun _ _ h => ?_⟩
    · rw [decodeInto.eq_def] at h
      simp at h
    · rw [decodeList.eq_def] at h
      simp at h
    · rw [decodeDict.eq_def] at h
      simp at h
    · rw [decodeMap.eq_def] at h
      simp at h
  | succ f ih =>
    obtain ⟨ihv, ihl, ihd, ihm⟩ := ih
    refine ⟨fun t cur bs h => ?_, fun elem xs i bs h => ?_, fun fields es bs h => ?_,
      fun es bs h => ?_⟩
    · generalize hd : decodeInto (f + 1) t cur bs = d at h ⊢
      rw [decodeInto.eq_def] at hd
      simp only at hd
      split at hd
      · -- raw bytes are skipped
        split at hd
        · subst hd
          assumption
        · subst hd
          cases h
      obtain _ | ⟨b, tail⟩ := bs
      · subst hd
        cases h
      simp only at hd
      rw [skip_succ_cons]
      split_ifs at hd ⊢ with h105 h108 h100 hdig
      · split at hd
        · rename_i digits rest hu
          subst hd
          simp [hu, rest_intInto, Functor.map, Except.map]
        · subst hd
          cases h
      · split at hd
        all_goals subst hd
        · exact ihl _ _ _ _ h
        · exact ihl _ _ _ _ h
        · exact ihl _ _ _ _ h
        · cases h
      · split at hd
        all_goals subst hd
        · exact ihd _ _ _ h
        · exact ihd _ _ _ h
        · exact ihm _ _ h
        · cases h
      · split at hd
        · rename_i data rest hrs
          subst hd
          simp [hrs, rest_stringInto, Functor.map, Except.map]
        · subst hd
          cases h
      · subst hd
        cases h
    · -- the elements of a list, each read into its element
      generalize hd : decodeList (f + 1) elem xs i bs = r at h ⊢
      rw [decodeList.eq_def] at hd
      simp only at hd
      split at hd
      · subst hd
        cases h
      · subst hd
        exact skipList_succ_end f _
      rename_i hnil hend
      obtain ⟨b, tail, rfl, hb⟩ := exists_cons_ne_end hnil hend
      split at hd
      · subst hd
        cases h
      · rename_i herr
        subst hd
        rw [skipList_succ_cons _ hb, ihv _ _ _ herr]
        exact ihl _ _ _ _ h
    · -- the entries of a dictionary, each value read into its field or dropped
      generalize hd : decodeDict (f + 1) fields es bs = r at h ⊢
      rw [decodeDict.eq_def] at hd
      simp only at hd
      split at hd
      · subst hd
        cases h
      · subst hd
        exact skipDict_succ_end f _
      rename_i hnil hend
      obtain ⟨b, tail, rfl, hb⟩ := exists_cons_ne_end hnil hend
      rw [skipDict_succ_cons _ hb]
      split at hd
      · subst hd
        cases h
      rename_i k rest hk
      simp only [hk, bind, Except.bind]
      split at hd
      all_goals split at hd
      all_goals subst hd
      · cases h
      · rename_i herr
        rw [ihv _ _ _ herr]
        exact ihd _ _ _ h
      · cases h
      · rename_i herr
        rw [ihv _ _ _ herr]
        exact ihd _ _ _ h
    · -- the entries of a dynamic dictionary
      generalize hd : decodeMap (f + 1) es bs = r at h ⊢
      rw [decodeMap.eq_def] at hd
      simp only at hd
      split at hd
      · subst hd
        cases h
      · subst hd
        exact skipDict_succ_end f _
      rename_i hnil hend
      obtain ⟨b, tail, rfl, hb⟩ := exists_cons_ne_end hnil hend
      rw [skipDict_succ_cons _ hb]
      split at hd
      · subst hd
        cases h
      rename_i k rest hk
      simp only [hk, bind, Except.bind]
      split at hd
      all_goals subst hd
      · cases h
      · rename_i herr
        rw [ihv _ _ _ herr]
        exact ihm _ _ h

/-! ### Raw values -/

theorem skip_eq_ok {fuel : Nat} {bs r : List UInt8} (h : skip fuel bs = .ok r) :
    ∃ p, bs = p ++ r ∧ Consumes skip p :=
  (skip_consumes fuel).1 bs r h

theorem decodeInto_raw {f : Nat} {cur : Value} {bs r : List UInt8} (h : skip (f + 1) bs = .ok r) :
    decodeInto (f + 1) .raw cur bs = ⟨.raw (bs.take (bs.length - r.length)), r, none⟩ := by
  rw [decodeInto.eq_def]
  simp only [h]

/-- Bytes that a skip consumes whole read as raw bytes wherever they stand. -/
theorem readsAs_raw {p : List UInt8} (hp : Consumes skip p) : ReadsAs .raw (.raw p) (.raw p) := by
  obtain ⟨b, q, hbq, hb⟩ := hp.head_ne
  refine ⟨⟨b, q, hbq, hb⟩, fun fuel rest hfuel => ?_⟩
  simp only [encode] at hfuel ⊢
  obtain ⟨f, rfl⟩ := succ_of_consumes hp.1 hfuel
  rw [Target.zero, decodeInto_raw (hp.2 _ rest hfuel)]
  simp

/-- `p` is exactly one bencoded value: skipping a value of it leaves nothing. -/
def IsValue (p : List UInt8) : Prop :=
  ∃ fuel, skip fuel p = .ok []

theorem IsValue.consumes {p : List UInt8} (h : IsValue p) : Consumes skip p := by
  obtain ⟨fuel, hs⟩ := h
  obtain ⟨q, hq, hc⟩ := skip_eq_ok hs
  rw [List.append_nil] at hq
  exact hq ▸ hc

theorem IsValue.ne_nil {p : List UInt8} (h : IsValue p) : p ≠ [] :=
  h.consumes.1

/-- **What reads into a target is one value.** -/
theorem ReadsAs.isValue {t : Target} {v w : Value} (h : ReadsAs t v w) : IsValue (encode v) := by
  have hd := h.2 (encode v).length [] le_rfl
  have hs := (skip_of_decodeInto _).1 _ _ _ (by rw [hd])
  rw [hd, List.append_nil] at hs
  exact ⟨_, hs⟩

/-- A value whose encoding is one bencoded value reads as raw bytes, its encoding, wherever it
stands. -/
theorem IsValue.readsAs {v : Value} (h : IsValue (encode v)) : ReadsAs .raw v (.raw (encode v)) :=
  readsAs_raw h.consumes

end Bencode

end BitTorrent
