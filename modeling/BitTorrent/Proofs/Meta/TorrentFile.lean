import BitTorrent.Meta.Torrent
import BitTorrent.Proofs.Bencode.Raw

/-!
# Torrent files written and read back

A torrent file is a dictionary that holds the info dictionary under "info", as its exact bytes,
and the trackers under "announce" or "announce-list". Main statement
(`MetaInfo.written_torrent_read_back`): for every info dictionary `b` that is one bencoded value
and that reading accepts as `i`, and every list `T` of tracker tiers whose URLs bencoding reads
back (shorter than `2 ^ 31` bytes),

* the torrent file written from `b` and `T` (`MetaInfo.encode`) is read with info `i` and the
  trackers `MetaInfo.supportedTiers T`;
* whatever well-formed values stand under "announce" and "announce-list", reading succeeds with
  info `i`: the tracker entries never make reading fail;
* a single URL under "announce" is read as the same tier as the URL alone under "announce-list";
* `MetaInfo.supportedTiers T` keeps, in order, the URLs of each tier whose scheme is http, https
  or udp, and drops the tiers left with none (`MetaInfo.supportedTiers_spec`).

The proof reads the file as a record of raw fields (`MetaInfo.decode_fileWith`): every entry is
one value that a skip consumes whole (`Bencode.IsValue`), so each field holds the exact bytes of
its entry. Reading then decodes the info dictionary from its bytes and the tiers from the bytes
of the tracker entries (`MetaInfo.ofBytes_of_decode`).
-/

namespace BitTorrent

namespace MetaInfo

open Bencode

/-! ### Keeping the supported trackers -/

/-- The schemes of the trackers the client speaks. -/
theorem supported_iff (url : List UInt8) :
    supported url = true ↔ ∃ s ∈ ["http://", "https://", "udp://"], key s <+: url := by
  simp [supported, List.isPrefixOf_iff_prefix]

/-- The supported trackers of each tier, in order, without the tiers left empty: a sublist of the
filtered tiers, with no empty tier, holding every supported URL of the tiers in order. -/
theorem supportedTiers_spec (T : List (List (List UInt8))) :
    List.Sublist (supportedTiers T) (T.map (·.filter supported)) ∧
      (∀ t ∈ supportedTiers T, t ≠ []) ∧
      (supportedTiers T).flatten = T.flatten.filter supported := by
  refine ⟨List.filter_sublist, fun t ht => ?_, ?_⟩
  · simpa [supportedTiers] using (List.mem_filter.1 ht).2
  · -- dropping empty tiers does not change the URLs
    rw [supportedTiers, List.flatten_filter_not_isEmpty, List.filter_flatten]

/-! ### Reading a torrent file -/

/-- The fields of a torrent file's record, each kept as raw bytes. -/
def fileFields : List (String × Target) :=
  [("info", .raw), ("announce", .raw), ("announce-list", .raw)]

/-- Reading a torrent file whose record holds under "info" the bytes of a dictionary that reading
accepts, and the bytes `l` and `a` under "announce-list" and "announce": the info read from the
dictionary, and the supported tiers of the tracker entries. -/
theorem ofBytes_of_decode {f b l a rest : List UInt8} {w : Value} {i : Info}
    (hd : decode target f = ⟨w, rest, none⟩) (hinfo : w.get? "info" = some (.raw b))
    (hl : w.get? "announce-list" = some (.raw l)) (ha : w.get? "announce" = some (.raw a))
    (hb : b ≠ []) (hi : Info.ofBytes b = .ok i) :
    ofBytes f = .ok ⟨i, supportedTiers (tiers l a)⟩ := by
  have hb' : b.isEmpty = false := by simpa using hb
  simp [ofBytes, hd, hinfo, hl, ha, Value.toBytes, hb', hi, pure, Except.pure, bind, Except.bind]

/-- A torrent file with the info dictionary `b` and the entries `es` beside it, written with its
keys sorted. -/
def fileWith (b : List UInt8) (es : List (List UInt8 × Value)) : List UInt8 :=
  Bencode.encode (sortedDict ((key "info", .raw b) :: es))

/-- The bytes of the entry keyed `k`, empty when there is none. -/
def entryBytes (es : List (List UInt8 × Value)) (k : String) : List UInt8 :=
  ((es.lookup (key k)).map Bencode.encode).getD []

/-- Tracker entries of a torrent file: distinct keys, each "announce" or "announce-list", and each
value one well-formed bencoded value, of whatever kind. -/
structure TrackerEntries (es : List (List UInt8 × Value)) : Prop where
  nodup : (es.map (·.1)).Nodup
  keys : ∀ e ∈ es, e.1 = key "announce" ∨ e.1 = key "announce-list"
  values : ∀ e ∈ es, IsValue (Bencode.encode e.2)

theorem field?_fileFields {k : String} (hk : k ∈ ["info", "announce", "announce-list"]) :
    Target.field? fileFields (key k) = some .raw := by
  simp only [List.mem_cons, List.not_mem_nil, or_false] at hk
  rcases hk with rfl | rfl | rfl <;> simp [Target.field?, fileFields, key_inj]

/-- The field of an entry read as raw bytes. -/
theorem raw_getD (o : Option Value) :
    ((o.map fun v => Value.raw (Bencode.encode v)).getD Target.raw.zero) = .raw ((o.map Bencode.encode).getD []) := by
  cases o <;> rfl

/-- **A torrent file is read as a record of raw fields**: the info dictionary's exact bytes under
"info", and the bytes of each tracker entry under its key, empty where there is none. -/
theorem decode_fileWith {b : List UInt8} {es : List (List UInt8 × Value)} (hb : IsValue b)
    (hes : TrackerEntries es) :
    ∃ w, decode target (fileWith b es) = ⟨w, [], none⟩ ∧ w.get? "info" = some (.raw b) ∧
      w.get? "announce-list" = some (.raw (entryBytes es "announce-list")) ∧
      w.get? "announce" = some (.raw (entryBytes es "announce")) := by
  -- the info key is none of the tracker keys
  have hinfo : ∀ e ∈ es, e.1 ≠ key "info" := by
    intro e he
    rcases hes.keys e he with h | h <;> rw [h] <;> decide +kernel
  have hnodup : (((key "info", Value.raw b) :: es).map (·.1)).Nodup := by
    refine List.nodup_cons.2 ⟨fun hm => ?_, hes.nodup⟩
    obtain ⟨e, he, hk⟩ := List.mem_map.1 hm
    exact hinfo e he hk
  have hreads : ∀ e ∈ (key "info", Value.raw b) :: es,
      EntryReads fileFields (fun _ v => .raw (Bencode.encode v)) e := by
    intro e he
    rcases List.mem_cons.1 he with rfl | he
    · exact ⟨by dsimp only; decide +kernel, .raw, field?_fileFields (by simp), IsValue.readsAs hb⟩
    · refine ⟨?_, .raw, ?_, IsValue.readsAs (hes.values e he)⟩
      · rcases hes.keys e he with h | h <;> rw [h] <;> decide +kernel
      · rcases hes.keys e he with h | h <;> rw [h] <;> exact field?_fileFields (by simp)
  obtain ⟨w, hw, hget⟩ : ∃ w, ReadsAs target (sortedDict ((key "info", .raw b) :: es)) w ∧ _ :=
    readsAs_sortedDict hnodup hreads
  refine ⟨w, by simpa [fileWith] using hw.decode [], ?_, ?_, ?_⟩
  · rw [hget "info" .raw (field?_fileFields (by simp))]
    simp [Bencode.encode]
  · rw [hget "announce-list" .raw (field?_fileFields (by simp)), lookup_cons_eq,
      if_neg (by decide +kernel), raw_getD]
    rfl
  · rw [hget "announce" .raw (field?_fileFields (by simp)), lookup_cons_eq,
      if_neg (by decide +kernel), raw_getD]
    rfl

/-- **Reading a torrent file.** With an info dictionary that is one value and that reading
accepts, and tracker entries of any kind, reading succeeds: the info read from the dictionary, and
the supported tiers of the tracker entries. -/
theorem ofBytes_fileWith {b : List UInt8} {i : Info} {es : List (List UInt8 × Value)}
    (hi : Info.ofBytes b = .ok i) (hb : IsValue b) (hes : TrackerEntries es) :
    ofBytes (fileWith b es) =
      .ok ⟨i, supportedTiers (tiers (entryBytes es "announce-list") (entryBytes es "announce"))⟩ := by
  obtain ⟨w, hd, hinfo, hl, ha⟩ := decode_fileWith hb hes
  exact ofBytes_of_decode hd hinfo hl ha hb.ne_nil hi

theorem trackerEntries_nil : TrackerEntries [] :=
  ⟨List.nodup_nil, fun _ h => absurd h List.not_mem_nil, fun _ h => absurd h List.not_mem_nil⟩

theorem trackerEntries_single {k : List UInt8} {v : Value}
    (hk : k = key "announce" ∨ k = key "announce-list") (hv : IsValue (Bencode.encode v)) :
    TrackerEntries [(k, v)] :=
  ⟨List.nodup_singleton _, fun e he => by rw [List.mem_singleton.1 he]; exact hk,
    fun e he => by rw [List.mem_singleton.1 he]; exact hv⟩

theorem entryBytes_nil (k : String) : entryBytes [] k = [] :=
  rfl

theorem entryBytes_single (k k' : String) (v : Value) :
    entryBytes [(key k, v)] k' = if k' = k then Bencode.encode v else [] := by
  by_cases h : k' = k
  · simp [entryBytes, h]
  · simp [entryBytes, lookup_cons_eq, key_inj, h]

/-! ### The tiers of the tracker entries -/

/-- Tiers of URLs as a bencoded list of lists of strings. -/
def tiersValue (T : List (List (List UInt8))) : Value :=
  .list (T.map fun t => .list (t.map .str))

theorem readsAs_tiersValue {T : List (List (List UInt8))}
    (hT : ∀ t ∈ T, ∀ u ∈ t, u.length < 2 ^ 31) :
    ReadsAs (.list (.list .text)) (tiersValue T) (tiersValue T) := by
  refine readsAs_list (List.forall₂_same.2 fun v hv => ?_)
  obtain ⟨t, ht, rfl⟩ := List.mem_map.1 hv
  refine readsAs_list (List.forall₂_same.2 fun x hx => ?_)
  obtain ⟨u, hu, rfl⟩ := List.mem_map.1 hx
  exact readsAs_str (.inl rfl) (hT t ht u hu)

theorem isValue_tiersValue {T : List (List (List UInt8))}
    (hT : ∀ t ∈ T, ∀ u ∈ t, u.length < 2 ^ 31) : IsValue (Bencode.encode (tiersValue T)) :=
  (readsAs_tiersValue hT).isValue

theorem isValue_str {u : List UInt8} (hu : u.length < 2 ^ 31) : IsValue (Bencode.encode (.str u)) :=
  (readsAs_str (t := .text) (.inl rfl) hu).isValue

/-- Tiers written as a list are read back from the list, whatever stands under "announce". -/
theorem tiers_tiersValue {T : List (List (List UInt8))}
    (hT : ∀ t ∈ T, ∀ u ∈ t, u.length < 2 ^ 31) (a : List UInt8) :
    tiers (Bencode.encode (tiersValue T)) a = T := by
  have hd := (readsAs_tiersValue hT).decode []
  rw [List.append_nil] at hd
  have hne : (Bencode.encode (tiersValue T)).isEmpty = false := by simp [tiersValue, encode_list]
  unfold tiers tiersOf
  rw [if_pos (by simp [hne]), hd]
  simp [tiersValue, Value.toList, Value.toBytes, Function.comp_def]

/-- One URL written under "announce" is read back as a tier of its own. -/
theorem tiers_announce {u : List UInt8} (hu : u.length < 2 ^ 31) :
    tiers [] (Bencode.encode (.str u)) = [[u]] := by
  have hd := (readsAs_str (t := .text) (.inl rfl) hu).decode []
  rw [List.append_nil] at hd
  have hne : (Bencode.encode (.str u)).isEmpty = false := by simp [encode_str]
  simp [tiers, hne, hd, Value.toBytes]

/-! ### The torrent file written -/

theorem encode_nil (b : List UInt8) : MetaInfo.encode b [] = fileWith b [] :=
  rfl

theorem encode_single (b u : List UInt8) :
    MetaInfo.encode b [[u]] =
      fileWith b (if u.isEmpty then [] else [(key "announce", .str u)]) := by
  simp only [MetaInfo.encode, fileWith, List.append_nil]

theorem encode_tiers (b : List UInt8) {T : List (List (List UInt8))} (h0 : T ≠ [])
    (h1 : ∀ u, T ≠ [[u]]) : MetaInfo.encode b T = fileWith b [(key "announce-list", tiersValue T)] := by
  unfold MetaInfo.encode fileWith
  split
  · exact absurd rfl (h1 _)
  · split
    · exact absurd rfl (h1 _)
    · exact absurd rfl h0
    · rfl

/-! ### Written and read back -/

/-- The torrent file written from an info dictionary and tracker tiers is read back with the info
read from the dictionary and the supported trackers of the tiers. -/
theorem ofBytes_encode {b : List UInt8} {i : Info} {T : List (List (List UInt8))}
    (hi : Info.ofBytes b = .ok i) (hb : IsValue b) (hT : ∀ t ∈ T, ∀ u ∈ t, u.length < 2 ^ 31) :
    ofBytes (MetaInfo.encode b T) = .ok ⟨i, supportedTiers T⟩ := by
  by_cases h0 : T = []
  · subst h0
    rw [encode_nil, ofBytes_fileWith hi hb trackerEntries_nil]
    rfl
  by_cases h1 : ∃ u, T = [[u]]
  · obtain ⟨u, rfl⟩ := h1
    have hu : u.length < 2 ^ 31 := hT [u] (List.mem_singleton_self _) u (List.mem_singleton_self _)
    rw [encode_single]
    by_cases he : u.isEmpty
    · -- an empty URL is left out, and it is no tracker anyway
      obtain rfl : u = [] := List.isEmpty_iff.1 he
      rw [if_pos he, ofBytes_fileWith hi hb trackerEntries_nil]
      have hnone : supported [] = false := by decide +kernel
      simp [entryBytes_nil, tiers, supportedTiers, hnone]
    · rw [if_neg he, ofBytes_fileWith hi hb (trackerEntries_single (.inl rfl) (isValue_str hu)),
        entryBytes_single, entryBytes_single, if_neg (by decide), if_pos rfl, tiers_announce hu]
  · have h1' : ∀ u, T ≠ [[u]] := fun u hu => h1 ⟨u, hu⟩
    rw [encode_tiers b h0 h1',
      ofBytes_fileWith hi hb (trackerEntries_single (.inr rfl) (isValue_tiersValue hT)),
      entryBytes_single, if_pos rfl, tiers_tiersValue hT]

/-- A single URL under "announce" is read as the same tier as the URL alone under
"announce-list". -/
theorem announce_reads_as_list {b : List UInt8} {i : Info} (hi : Info.ofBytes b = .ok i)
    (hb : IsValue b) {u : List UInt8} (hu : u.length < 2 ^ 31) :
    ofBytes (fileWith b [(key "announce", .str u)]) =
      ofBytes (fileWith b [(key "announce-list", tiersValue [[u]])]) := by
  have hT : ∀ t ∈ [[u]], ∀ x ∈ t, x.length < 2 ^ 31 := by simpa using hu
  rw [ofBytes_fileWith hi hb (trackerEntries_single (.inl rfl) (isValue_str hu)),
    ofBytes_fileWith hi hb (trackerEntries_single (.inr rfl) (isValue_tiersValue hT)),
    entryBytes_single, entryBytes_single, entryBytes_single, entryBytes_single, if_neg (by decide),
    if_pos rfl, if_pos rfl, tiers_announce hu, tiers_tiersValue hT]

/-- **Torrent files written and read back.** For an info dictionary `b` that is one bencoded value
and that reading accepts as `i`, and tracker tiers `T` whose URLs bencoding reads back: the torrent
file written from them is read with info `i` and the supported tiers of `T`, which keep, in order,
the http, https and udp URLs of each tier and drop the tiers left empty; a single URL under
"announce" reads as the same tier under "announce-list"; and with tracker entries of any kind,
reading succeeds with info `i`. -/
theorem written_torrent_read_back {b : List UInt8} {i : Info} (hi : Info.ofBytes b = .ok i)
    (hb : IsValue b) {T : List (List (List UInt8))} (hT : ∀ t ∈ T, ∀ u ∈ t, u.length < 2 ^ 31) :
    ofBytes (MetaInfo.encode b T) = .ok ⟨i, supportedTiers T⟩ ∧
      (List.Sublist (supportedTiers T) (T.map (·.filter supported)) ∧
        (∀ t ∈ supportedTiers T, t ≠ []) ∧
        (supportedTiers T).flatten = T.flatten.filter supported) ∧
      (∀ url, supported url = true ↔ ∃ s ∈ ["http://", "https://", "udp://"], key s <+: url) ∧
      (∀ u : List UInt8, u.length < 2 ^ 31 →
        ofBytes (fileWith b [(key "announce", .str u)]) =
          ofBytes (fileWith b [(key "announce-list", tiersValue [[u]])])) ∧
      (∀ es, TrackerEntries es → ofBytes (fileWith b es) =
        .ok ⟨i, supportedTiers (tiers (entryBytes es "announce-list") (entryBytes es "announce"))⟩) :=
  ⟨ofBytes_encode hi hb hT, supportedTiers_spec T, supported_iff,
    fun _ hu => announce_reads_as_list hi hb hu, fun _ hes => ofBytes_fileWith hi hb hes⟩

/-- The info dictionary of a single file of three bytes, in one piece of four. -/
def threeBytes : List UInt8 :=
  "d6:lengthi3e4:name1:a12:piece lengthi4e6:pieces20:".toUTF8.toList ++ List.replicate 20 0 ++
    "e".toUTF8.toList

/-- A torrent file of that dictionary with an http and an ftp tracker in its first tier, an ftp
tracker alone in the second and a udp tracker in the third is read with the http and the udp
tracker, each in a tier of its own. -/
theorem three_tiers_read_back : ∃ i, Info.ofBytes threeBytes = .ok i ∧ IsValue threeBytes ∧
    ofBytes (MetaInfo.encode threeBytes
      [[key "http://t/a", key "ftp://t/b"], [key "ftp://t/c"], [key "udp://t/d"]]) =
      .ok ⟨i, [[key "http://t/a"], [key "udp://t/d"]]⟩ := by
  have hok : (Info.ofBytes threeBytes).toOption.isSome = true := by decide +kernel
  obtain ⟨i, hi⟩ : ∃ i, Info.ofBytes threeBytes = .ok i := by
    cases h : Info.ofBytes threeBytes with
    | error e => rw [h] at hok; cases hok
    | ok i => exact ⟨i, rfl⟩
  have hb : IsValue threeBytes := ⟨100, by decide +kernel⟩
  have hread := (written_torrent_read_back hi hb (T :=
    [[key "http://t/a", key "ftp://t/b"], [key "ftp://t/c"], [key "udp://t/d"]])
    (by decide +kernel)).1
  have hkept : supportedTiers
      [[key "http://t/a", key "ftp://t/b"], [key "ftp://t/c"], [key "udp://t/d"]] =
      [[key "http://t/a"], [key "udp://t/d"]] := by
    decide +kernel
  exact ⟨i, hi, hb, hkept ▸ hread⟩

end MetaInfo

end BitTorrent
