import BitTorrent.Resume.Store
import BitTorrent.Proofs.Text.Timestamp
import BitTorrent.Proofs.Bencode.RoundTrip
import Mathlib.Tactic

/-!
# The resume database under its writers

What each writer of a torrent's resume state does to the database, seen through the bucket of
one torrent: a full write sets the torrent's bucket from the one it had, and the two partial
writers change a bucket that exists (`Resumer.bucket?_apply_self`), while no writer touches the
bucket of another torrent or of another top bucket (`Resumer.bucket?_apply_other`). A run of the
writers of several torrents, interleaved in any order, therefore leaves each torrent's bucket as
that torrent's own writers alone would (`bucket?_runAll`).

A full write fails only for an empty bucket name, and then the database is left as it was: the
write runs in a transaction that is rolled back.
-/

namespace BitTorrent.Resume

section Bindings

variable {α : Type}

theorem lookup_map_rebind (xs : List (List UInt8 × α)) (k k' : List UInt8) (v : α) :
    (xs.map fun e => if e.1 == k then (k, v) else e).lookup k' =
      if k' = k ∧ xs.any (·.1 == k) then some v else xs.lookup k' := by
  induction xs with
  | nil => simp
  | cons e xs ih =>
    obtain ⟨a, w⟩ := e
    by_cases ha : a = k
    · subst ha
      by_cases hk : k' = a
      · simp [hk]
      · simp only [List.map_cons, beq_self_eq_true, if_true, Bencode.lookup_cons_eq, hk, if_false]
        simpa [hk] using ih
    · have hmap : (if ((a, w).1 == k) = true then (k, v) else (a, w)) = (a, w) := by simp [ha]
      rw [List.map_cons, hmap, Bencode.lookup_cons_eq, Bencode.lookup_cons_eq, ih]
      by_cases hka : k' = a
      · subst hka
        simp [ha]
      · simp only [hka, if_false, List.any_cons, Bool.or_eq_true, beq_iff_eq, ha, false_or]

/-- The binding of `k'` once `k` is bound to `v`. -/
theorem lookup_bind (xs : List (List UInt8 × α)) (k k' : List UInt8) (v : α) :
    (bind xs k v).lookup k' = if k' = k then some v else xs.lookup k' := by
  unfold bind
  split
  · rename_i hany
    rw [lookup_map_rebind]
    by_cases hk : k' = k <;> simp [hk, hany]
  · rename_i hany
    rw [List.lookup_append]
    by_cases hk : k' = k
    · subst hk
      have hnone : xs.lookup k' = none := by
        rw [List.lookup_eq_none_iff]
        intro p hp
        simpa using fun h => hany (List.any_eq_true.2 ⟨p, hp, by simp [h]⟩)
      simp [hnone]
    · cases xs.lookup k' <;> simp [hk]

theorem keyOf_inj {a b : String} : keyOf a = keyOf b ↔ a = b :=
  Bencode.key_inj

end Bindings

namespace Database

variable (db : Database)

@[simp]
theorem top?_setBucket (top id : List UInt8) (b : Bucket) (top' : List UInt8) :
    (db.setBucket top id b).top? top' =
      if top' = top then some (bind ((db.top? top).getD []) id b) else db.top? top' := by
  simp [setBucket, top?, lookup_bind]

/-- Setting one bucket changes no other. -/
theorem bucket?_setBucket (top id : List UInt8) (b : Bucket) (top' id' : List UInt8) :
    (db.setBucket top id b).bucket? top' id' =
      if top' = top ∧ id' = id then some b else db.bucket? top' id' := by
  by_cases ht : top' = top
  · subst ht
    by_cases hi : id' = id
    · simp [bucket?, lookup_bind, hi]
    · simp only [bucket?, top?_setBucket, if_true, Option.bind_some, lookup_bind, hi, if_false,
        and_false]
      cases db.top? top' <;> rfl
  · simp [bucket?, ht]

/-- Creating a top bucket changes no torrent's bucket, and fails only for an empty name. -/
theorem createTop_eq {top : List UInt8} (htop : top ≠ []) :
    ∃ db', db.createTop top = .ok db' ∧ db'.bucket? = db.bucket? ∧
      db'.top? top = some ((db.top? top).getD []) := by
  unfold createTop
  rw [if_neg (by simpa using htop)]
  split
  · rename_i hsome
    refine ⟨db, rfl, rfl, ?_⟩
    obtain ⟨xs, hxs⟩ := Option.isSome_iff_exists.1 hsome
    simp [hxs]
  · rename_i hnone
    have hnone' : db.top? top = none := by simpa using hnone
    refine ⟨_, rfl, ?_, ?_⟩
    · funext top' id'
      simp only [top?] at hnone'
      by_cases ht : top' = top
      · subst ht
        simp [bucket?, top?, List.lookup_append, hnone']
      · simp only [bucket?, top?, List.lookup_append, Bencode.lookup_cons_eq, ht, if_false,
          List.lookup_nil, Option.or_none]
    · simp only [top?] at hnone'
      simp [top?, List.lookup_append, hnone']

theorem createTop_empty : db.createTop [] = .error nameRequired := rfl

/-- Creating a torrent's bucket: it answers the bucket as it was, empty when there was none, and
changes no other bucket. -/
theorem createBucket_eq {top id : List UInt8} (htop : top ≠ []) (hid : id ≠ []) :
    ∃ db', db.createBucket top id = .ok ((db.bucket? top id).getD [], db') ∧
      ∀ top' id', db'.bucket? top' id' =
        if top' = top ∧ id' = id then some ((db.bucket? top id).getD []) else db.bucket? top' id' := by
  obtain ⟨db₁, h₁, hb₁, ht₁⟩ := db.createTop_eq htop
  unfold createBucket
  simp only [h₁, Bind.bind, Except.bind, List.isEmpty_iff, hid, if_false, hb₁]
  cases hb : db.bucket? top id with
  | some b =>
    refine ⟨db₁, rfl, fun top' id' => ?_⟩
    split
    · rename_i h
      obtain ⟨rfl, rfl⟩ := h
      simp [hb₁, hb]
    · simp [hb₁]
  | none =>
    refine ⟨_, rfl, fun top' id' => ?_⟩
    rw [bucket?_setBucket, hb₁]
    rfl

theorem createBucket_of_empty {top id : List UInt8} (h : top = [] ∨ id = []) :
    db.createBucket top id = .error nameRequired := by
  rcases h with rfl | rfl
  · rfl
  · by_cases htop : top = []
    · subst htop
      rfl
    · obtain ⟨db₁, h₁, -, -⟩ := db.createTop_eq htop
      simp [createBucket, h₁, Bind.bind, Except.bind, throw, throwThe, MonadExceptOf.throw]

end Database

/-! ### The writers -/

/-- One writer of a torrent's resume state. -/
inductive Op where
  | write (s : Spec)
  | writeBitfield (bf : List UInt8) (ps : List PartialPiece)
  | writeCounters (c : Counters)

/-- The bindings a full write makes over the torrent's bucket `b`. -/
def written (b : Bucket) (s : Spec) : Bucket :=
  putCounters (bind (bind (bind (bind (bind b (keyOf "info_hash") s.infoHash) (keyOf "dest") s.dest)
    (keyOf "bitfield") (s.bitfield.getD [])) (keyOf "partial") (encodePending s.pending))
    (keyOf "added_at") (s.addedAt.format false).toUTF8.toList) s.counters

namespace Resumer

/-- A writer run on the database. A full write that fails leaves the database as it was, as the
transaction it runs in is rolled back. -/
def apply (r : Resumer) (db : Database) : Op → Database
  | .write s =>
    match r.write db s with
    | .ok db' => db'
    | .error _ => db
  | .writeBitfield bf ps => r.writeBitfield db bf ps
  | .writeCounters c => r.writeCounters db c

/-- What a writer of torrent `r` does to the torrent's bucket, given the bucket it had: a full
write sets it when both bucket names are given, and the other writers change it only when it
exists. -/
def onBucket (r : Resumer) : Op → Option Bucket → Option Bucket
  | .write s, b => if r.top = [] ∨ r.id = [] then b else some (written (b.getD []) s)
  | .writeBitfield bf ps, b =>
    b.map fun b => bind (bind b (keyOf "bitfield") bf) (keyOf "partial") (encodePending ps)
  | .writeCounters c, b => b.map (putCounters · c)

variable (r : Resumer) (db : Database)

theorem write_of_empty (h : r.top = [] ∨ r.id = []) (s : Spec) :
    r.write db s = .error nameRequired := by
  simp [write, db.createBucket_of_empty h, Bind.bind, Except.bind]

/-- A full write with both bucket names given sets the torrent's bucket to the written bindings
over the bucket it had, and changes no other bucket. -/
theorem write_eq (htop : r.top ≠ []) (hid : r.id ≠ []) (s : Spec) :
    ∃ db', r.write db s = .ok db' ∧ ∀ top' id', db'.bucket? top' id' =
      if top' = r.top ∧ id' = r.id then some (written ((db.bucket? r.top r.id).getD []) s)
      else db.bucket? top' id' := by
  obtain ⟨db₁, hc, hb⟩ := db.createBucket_eq htop hid
  refine ⟨_, by simp only [write, hc, Bind.bind, Except.bind]; rfl, fun top' id' => ?_⟩
  rw [Database.bucket?_setBucket, hb]
  split <;> rfl

/-- Every writer of torrent `r` changes the torrent's bucket as `onBucket` says and leaves every
other bucket as it was. -/
theorem bucket?_apply (op : Op) (top' id' : List UInt8) :
    (r.apply db op).bucket? top' id' =
      if top' = r.top ∧ id' = r.id then r.onBucket op (db.bucket? r.top r.id)
      else db.bucket? top' id' := by
  cases op with
  | write s =>
    by_cases h : r.top = [] ∨ r.id = []
    · simp only [apply, write_of_empty r db h, onBucket, h, if_true]
      split
      · rename_i ht
        rw [ht.1, ht.2]
      · rfl
    · obtain ⟨db', hw, hb⟩ := write_eq r db (fun e => h (.inl e)) (fun e => h (.inr e)) s
      simp only [apply, hw, hb, onBucket, h, if_false]
  | writeBitfield bf ps =>
    simp only [apply, writeBitfield, onBucket]
    cases hb : db.bucket? r.top r.id with
    | none => split <;> simp_all
    | some b => simp [Database.bucket?_setBucket]
  | writeCounters c =>
    simp only [apply, writeCounters, onBucket]
    cases hb : db.bucket? r.top r.id with
    | none => split <;> simp_all
    | some b => simp [Database.bucket?_setBucket]

end Resumer

/-- The writers of several torrents, run one after another, each on the database the one before
left. -/
def runAll (db : Database) (steps : List (Resumer × Op)) : Database :=
  steps.foldl (fun db step => step.1.apply db step.2) db

/-- The writers of torrent `r` among `steps`, in their order. -/
def own (r : Resumer) (steps : List (Resumer × Op)) : List Op :=
  steps.filterMap fun step => if step.1 = r then some step.2 else none

/-- Each torrent's bucket after an interleaved run is what the torrent's own writers make of the
bucket it had: the writers of other torrents do not touch it. -/
theorem bucket?_runAll (r : Resumer) (steps : List (Resumer × Op)) (db : Database) :
    (runAll db steps).bucket? r.top r.id =
      (own r steps).foldl (fun b op => r.onBucket op b) (db.bucket? r.top r.id) := by
  -- on the steps, each step moving the database it starts from
  induction steps generalizing db with
  | nil => rfl
  | cons step steps ih =>
    obtain ⟨r', op⟩ := step
    rw [runAll, List.foldl_cons, ← runAll, ih, Resumer.bucket?_apply]
    by_cases hr : r' = r
    · subst hr
      simp [own]
    · have hne : ¬ (r.top = r'.top ∧ r.id = r'.id) := by
        rintro ⟨ht, hi⟩
        exact hr (by cases r; cases r'; simp_all)
      simp [own, hr, hne]

end BitTorrent.Resume
