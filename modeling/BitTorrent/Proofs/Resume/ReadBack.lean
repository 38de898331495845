import BitTorrent.Proofs.Resume.Database
import BitTorrent.Proofs.Bencode.RoundTrip

/-!
# What a reader finds in the resume database

After any interleaving of the writers of several torrents, the reader of one torrent finds the
state its own writers leave (`read_after_writers`): nothing before its first full write, as the
other writers change only a bucket that exists, and afterwards the info hash and destination of
the last full write, the bitfield and pieces not yet verified of the last full write or bitfield
write, the counters of the last full write or counter write, and the time of the last full write
without its fraction of a second. `Op.next` says this writer by writer.

This holds when that state can be read back at all (`Spec.Readable`): the counters fit 64 bits,
and the time has a year of four digits and a zone of whole minutes below 25 hours. The bound on
the zone is sharp: a time 25 hours ahead of UTC, which the text `+24:60` gives, is written as
`+25:00`, which the reader refuses, and the whole state becomes unreadable
(`read_after_write_of_offset`).

The proof carries one invariant (`Stores`: the bucket binds each part of the state in the form it
is written in) through each writer (`Stores.next`), and reads each part back by the round trip of
its encoding: bencoded pieces (`decodePending_encodePending`), decimal counters and RFC 3339 time
(`Timestamp.parse_format`).
-/

namespace BitTorrent.Resume

open Bencode

/-! ### Pieces not yet verified -/

/-- The fields of a piece not yet verified, as its dictionary is decoded. -/
def pieceFields : List (String × Target) :=
  [("index", .unsigned 32), ("blocks", .list (.unsigned 32))]

/-- The entries a piece not yet verified is bencoded from, keys sorted. -/
def pieceEntries (p : PartialPiece) : List (List UInt8 × Value) :=
  [(key "blocks", .list (p.blocks.map fun b => .int b.toNat)), (key "index", .int p.index.toNat)]

theorem encodePending_eq (ps : List PartialPiece) :
    encodePending ps = encode (.list (ps.map fun p => .dict (pieceEntries p))) := rfl

theorem key_index_ne : key "index" ≠ key "blocks" := by decide +kernel

theorem key_index_ne_blocks : (key "index" == key "blocks") = false :=
  beq_eq_false_iff_ne.2 key_index_ne

theorem field?_blocks : Target.field? pieceFields (key "blocks") = some (.list (.unsigned 32)) := by
  simp [Target.field?, pieceFields, key_index_ne_blocks]

theorem field?_index : Target.field? pieceFields (key "index") = some (.unsigned 32) := by
  simp [Target.field?, pieceFields]

/-- A piece's dictionary is read into the record of its fields. -/
theorem readsAs_piece (p : PartialPiece) :
    ReadsAs (.record "resumer.PartialPiece" pieceFields) (.dict (pieceEntries p))
      (.dict (fill pieceFields (pieceEntries p))) := by
  have hlist : ReadsAs (.list (.unsigned 32)) (.list (p.blocks.map fun b => .int b.toNat))
      (.list (p.blocks.map fun b => .int b.toNat)) :=
    readsAs_list (List.forall₂_map_left_iff.2 (List.forall₂_map_right_iff.2
      (List.forall₂_same.2 fun b _ => readsAs_uint32 b)))
  have hkeys : [key "blocks", key "index"].Nodup := by decide +kernel
  have hlen : (key "blocks").length < 2 ^ 31 ∧ (key "index").length < 2 ^ 31 := by decide +kernel
  have hreads : ∀ e ∈ pieceEntries p, EntryReads pieceFields (fun _ v => v) e := by
    intro e he
    simp only [pieceEntries, List.mem_cons, List.mem_nil_iff, or_false] at he
    rcases he with rfl | rfl
    · exact ⟨hlen.1, _, field?_blocks, hlist⟩
    · exact ⟨hlen.2, _, field?_index, readsAs_uint32 p.index⟩
  have h : ReadsAs (.record "resumer.PartialPiece" pieceFields) (.dict (pieceEntries p)) _ :=
    readsAs_record (g := fun _ v => v) (by simpa [pieceEntries] using hkeys) hreads
  simpa using h

theorem pieceOf_fill (p : PartialPiece) :
    pieceOf (.dict (fill pieceFields (pieceEntries p))) = p := by
  simp [pieceOf, get?_fill field?_blocks, get?_fill field?_index, pieceEntries, lookup_cons_eq,
    key_index_ne, Value.toInt, Value.toList, Function.comp_def]

/-- The pieces not yet verified are read back as written. -/
theorem decodePending_encodePending (ps : List PartialPiece) :
    decodePending (encodePending ps) = .ok ps := by
  have hread : ReadsAs pendingTarget (.list (ps.map fun p => .dict (pieceEntries p)))
      (.list (ps.map fun p => .dict (fill pieceFields (pieceEntries p)))) :=
    readsAs_list (List.forall₂_map_left_iff.2 (List.forall₂_map_right_iff.2
      (List.forall₂_same.2 fun p _ => readsAs_piece p)))
  have hd := hread.decode []
  rw [List.append_nil, ← encodePending_eq] at hd
  simp [decodePending, hd, Value.toList, Function.comp_def, pieceOf_fill]

theorem encodePending_ne_nil (ps : List PartialPiece) : (encodePending ps).isEmpty = false := by
  simp [encodePending_eq, encode_list]

/-! ### A bucket holding a state -/

/-- A state whose every part reads back: its time is one the reader accepts, with a year of at
most four digits and a zone of whole minutes below 25 hours, and its counters fit 64 bits. -/
structure Spec.Readable (s : Spec) : Prop where
  time : s.addedAt.Valid
  year : s.addedAt.year < 10000
  minutes : s.addedAt.offset % 60 = 0
  zone : s.addedAt.offset.natAbs < 25 * 3600
  counters : ∀ p ∈ counterBindings s.counters, -2 ^ 63 ≤ p.2 ∧ p.2 < 2 ^ 63

/-- Bucket `b` holds state `s`: each part of it is bound to the text it is written as, and the
time has no fraction of a second. -/
structure Stores (b : Bucket) (s : Spec) : Prop where
  infoHash : b.lookup (keyOf "info_hash") = some s.infoHash
  dest : b.lookup (keyOf "dest") = some s.dest
  bitfield : b.lookup (keyOf "bitfield") = s.bitfield
  pending : b.lookup (keyOf "partial") = some (encodePending s.pending)
  addedAt : b.lookup (keyOf "added_at") = some (s.addedAt.format false).toUTF8.toList
  whole : s.addedAt.nanos = 0
  counters : ∀ p ∈ counterBindings s.counters, b.lookup (keyOf p.1) = some (Decimal.intNumeral p.2)

theorem lookup_putCounters (b : Bucket) (c : Counters) (k : List UInt8) :
    (putCounters b c).lookup k =
      if k = keyOf "bytes_wasted" then some (Decimal.intNumeral c.wasted)
      else if k = keyOf "bytes_uploaded" then some (Decimal.intNumeral c.uploaded)
      else if k = keyOf "bytes_downloaded" then some (Decimal.intNumeral c.downloaded)
      else b.lookup k := by
  show (bind (bind (bind b _ _) _ _) _ _).lookup k = _
  simp only [lookup_bind]

/-- The counters just written are bound to their numerals. -/
theorem lookup_putCounters_mem (b : Bucket) (c : Counters) :
    ∀ p ∈ counterBindings c, (putCounters b c).lookup (keyOf p.1) = some (Decimal.intNumeral p.2) := by
  intro p hp
  simp only [counterBindings, List.mem_cons, List.mem_nil_iff, or_false] at hp
  rcases hp with rfl | rfl | rfl <;> simp [lookup_putCounters, keyOf_inj]

theorem readCounter_of {b : Bucket} {k : String} {v : Int}
    (h : b.lookup (keyOf k) = some (Decimal.intNumeral v)) (hv : -2 ^ 63 ≤ v ∧ v < 2 ^ 63)
    (d : Int) : readCounter b k d = .ok v := by
  have hread : Decimal.readSigned 64 (Decimal.intNumeral v) = .ok v :=
    Decimal.readSigned_intNumeral (by decide) hv.1 hv.2
  simp [readCounter, h, hread, Except.mapError]

/-- A bucket holding a state that can be read back is read as that state. -/
theorem readBucket_of_stores {b : Bucket} {s : Spec} (h : Stores b s) (hr : s.Readable) :
    readBucket b = .ok s := by
  have hmem : ∀ k v, (k, v) ∈ counterBindings s.counters → readCounter b k 0 = .ok v :=
    fun k v hkv => readCounter_of (h.counters _ hkv) (hr.counters _ hkv) 0
  have hd := hmem "bytes_downloaded" s.counters.downloaded (by simp [counterBindings])
  have hu := hmem "bytes_uploaded" s.counters.uploaded (by simp [counterBindings])
  have hw := hmem "bytes_wasted" s.counters.wasted (by simp [counterBindings])
  -- the time is read back with its fraction dropped, and it has none
  have ht : Timestamp.parse (s.addedAt.format false).toUTF8.toList = .ok s.addedAt := by
    rw [Timestamp.parse_format hr.time hr.year hr.minutes hr.zone, ← h.whole]
  rw [String.toUTF8_eq_toByteArray] at ht
  simp [readBucket, h.infoHash, h.dest, h.bitfield, h.pending, encodePending_ne_nil,
    decodePending_encodePending, h.addedAt, ht, Except.mapError, hd, hu, hw, Bind.bind,
    Except.bind, pure, Except.pure]

/-! ### The writers, one by one -/

/-- What a full write saves of state `s`: its bitfield, empty when absent, and its time without
the fraction of a second. -/
def Spec.stored (s : Spec) : Spec :=
  { s with bitfield := some (s.bitfield.getD []), addedAt := { s.addedAt with nanos := 0 } }

/-- The state a reader should find after one more writer: a full write replaces all of it, and
the other two writers replace their parts of a state that was saved, and do nothing before. -/
def Op.next : Option Spec → Op → Option Spec
  | _, .write s => some s.stored
  | none, _ => none
  | some s, .writeBitfield bf ps => some { s with bitfield := some bf, pending := ps }
  | some s, .writeCounters c => some { s with counters := c }

/-- The state a reader should find after the writers `ops` of a torrent with nothing saved. -/
def visible (ops : List Op) : Option Spec :=
  ops.foldl Op.next none

/-- A full write binds every part of the state over any bucket. -/
theorem stores_written (b : Bucket) (s : Spec) : Stores (written b s) s.stored where
  infoHash := by simp [written, lookup_putCounters, lookup_bind, keyOf_inj, Spec.stored]
  dest := by simp [written, lookup_putCounters, lookup_bind, keyOf_inj, Spec.stored]
  bitfield := by simp [written, lookup_putCounters, lookup_bind, keyOf_inj, Spec.stored]
  pending := by simp [written, lookup_putCounters, lookup_bind, keyOf_inj, Spec.stored]
  addedAt := by simp [written, lookup_putCounters, lookup_bind, keyOf_inj, Spec.stored]; rfl
  whole := rfl
  counters := lookup_putCounters_mem _ _

/-- Writing the bitfield replaces the bitfield and the pieces not yet verified. -/
theorem Stores.writeBitfield {b : Bucket} {s : Spec} (h : Stores b s) (bf : List UInt8)
    (ps : List PartialPiece) :
    Stores (bind (bind b (keyOf "bitfield") bf) (keyOf "partial") (encodePending ps))
      { s with bitfield := some bf, pending := ps } where
  infoHash := by simp [lookup_bind, keyOf_inj, h.infoHash]
  dest := by simp [lookup_bind, keyOf_inj, h.dest]
  bitfield := by simp [lookup_bind, keyOf_inj]
  pending := by simp [lookup_bind]
  addedAt := by simp [lookup_bind, keyOf_inj, h.addedAt]
  whole := h.whole
  counters := by
    intro p hp
    rw [lookup_bind, lookup_bind, ← h.counters p hp]
    simp only [counterBindings, List.mem_cons, List.mem_nil_iff, or_false] at hp
    rcases hp with rfl | rfl | rfl <;> simp [keyOf_inj]

/-- Writing the counters replaces them. -/
theorem Stores.writeCounters {b : Bucket} {s : Spec} (h : Stores b s) (c : Counters) :
    Stores (putCounters b c) { s with counters := c } where
  infoHash := by simp [lookup_putCounters, keyOf_inj, h.infoHash]
  dest := by simp [lookup_putCounters, keyOf_inj, h.dest]
  bitfield := by simp [lookup_putCounters, keyOf_inj, h.bitfield]
  pending := by simp [lookup_putCounters, keyOf_inj, h.pending]
  addedAt := by simp [lookup_putCounters, keyOf_inj, h.addedAt]
  whole := h.whole
  counters := lookup_putCounters_mem b c

/-- The torrent's bucket holds the state a reader should find, and there is no bucket when there
is no state. -/
def Holds : Option Bucket → Option Spec → Prop
  | none, none => True
  | some b, some s => Stores b s
  | _, _ => False

/-- Each writer of a torrent with both bucket names keeps its bucket holding the state a reader
should find. -/
theorem Holds.next {r : Resumer} (htop : r.top ≠ []) (hid : r.id ≠ []) {b : Option Bucket}
    {st : Option Spec} (h : Holds b st) (op : Op) : Holds (r.onBucket op b) (Op.next st op) := by
  have hnamed : ¬ (r.top = [] ∨ r.id = []) := by tauto
  cases op with
  | write s =>
    simp only [Resumer.onBucket, hnamed, if_false, Op.next, Holds]
    exact stores_written _ s
  | writeBitfield bf ps =>
    cases b <;> cases st <;> simp only [Holds] at h
    · trivial
    · exact Stores.writeBitfield h bf ps
  | writeCounters c =>
    cases b <;> cases st <;> simp only [Holds] at h
    · trivial
    · exact Stores.writeCounters h c

theorem Holds.foldl {r : Resumer} (htop : r.top ≠ []) (hid : r.id ≠ []) (ops : List Op) :
    ∀ {b : Option Bucket} {st : Option Spec}, Holds b st →
      Holds (ops.foldl (fun b op => r.onBucket op b) b) (ops.foldl Op.next st) := by
  induction ops with
  | nil => exact id
  | cons op ops ih => exact fun h => ih (h.next htop hid op)

/-- Without a full write that succeeds, no bucket appears: the other writers change only a bucket
that exists. -/
theorem foldl_onBucket_none {r : Resumer} (ops : List Op)
    (h : r.top = [] ∨ r.id = [] ∨ ∀ s, Op.write s ∉ ops) :
    ops.foldl (fun b op => r.onBucket op b) none = none := by
  induction ops with
  | nil => rfl
  | cons op ops ih =>
    have hrest : r.top = [] ∨ r.id = [] ∨ ∀ s, Op.write s ∉ ops := by
      rcases h with h | h | h
      · exact .inl h
      · exact .inr (.inl h)
      · exact .inr (.inr fun s hs => h s (List.mem_cons_of_mem _ hs))
    have hstep : r.onBucket op none = none := by
      cases op with
      | write s =>
        have hempty : r.top = [] ∨ r.id = [] := by
          rcases h with h | h | h
          · exact .inl h
          · exact .inr h
          · exact absurd List.mem_cons_self (h s)
        simp [Resumer.onBucket, hempty]
      | writeBitfield bf ps => rfl
      | writeCounters c => rfl
    rw [List.foldl_cons, hstep, ih hrest]

theorem read_of_bucket {r : Resumer} {db : Database} {b : Bucket}
    (h : db.bucket? r.top r.id = some b) : r.read db = some <$> readBucket b := by
  simp [Resumer.read, h]

theorem read_of_none {r : Resumer} {db : Database} (h : db.bucket? r.top r.id = none) :
    r.read db = .ok none := by
  simp [Resumer.read, h]

/-- A time 25 hours off UTC is written as a zone the reader refuses, and the whole state is lost
with it. -/
theorem readBucket_of_offset {b : Bucket} {s : Spec} (h : Stores b s) (hv : s.addedAt.Valid)
    (hy : s.addedAt.year < 10000) (hoff : s.addedAt.offset.natAbs = 25 * 3600) :
    readBucket b = .error (.addedAt (s.addedAt.format false).toUTF8.toList
      (.range "time zone offset hour")) := by
  have ht := Timestamp.parse_format_of_offset hv hy hoff
  rw [String.toUTF8_eq_toByteArray] at ht
  simp [readBucket, h.infoHash, h.pending, encodePending_ne_nil, decodePending_encodePending,
    h.addedAt, ht, Except.mapError, Bind.bind, Except.bind]

end BitTorrent.Resume
