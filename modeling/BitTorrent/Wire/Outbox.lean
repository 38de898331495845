import BitTorrent.Wire.Message

/-!
# The outgoing queue

Messages to a peer wait in a queue and are written in order. A block to upload waits as a
request together with where its data comes from; the data is read only when the block is about
to be written, and a block whose data cannot be read stops the writer. Queued blocks can be
withdrawn before they are written: a cancel removes the first queued block of that request, and
queueing a choke drops every queued block. The queue keeps a count of its blocks, raised as a
block is queued and lowered as one leaves by any way; when the number of queued blocks is
bounded, a block that finds the count at the bound is dropped.
-/

namespace BitTorrent

/-- Where the data of a block to upload is read from. -/
inductive BlockSource where
  /-- The bytes of the piece. -/
  | bytes (data : List UInt8)
  /-- A source whose reads fail. -/
  | failing
  deriving Repr, Inhabited

namespace BlockSource

/-- The `len` bytes at `begin`, when the source has all of them. -/
def read (src : BlockSource) (begin len : Nat) : Option (List UInt8) :=
  match src with
  | .bytes data =>
    let got := (data.drop begin).take len
    if got.length == len then some got else none
  | .failing => none

end BlockSource

/-- An item of the outgoing queue. -/
inductive Outgoing where
  | message (m : Message)
  /-- A block to upload: the request it answers and its data's source. -/
  | block (r : Request) (src : BlockSource)
  deriving Repr, Inhabited

namespace Outgoing

/-- Whether the item is a block to upload. -/
def isBlock : Outgoing → Bool
  | .block _ _ => true
  | .message _ => false

/-- Whether the item is the block of request `r`. -/
def answers (r : Outgoing) (q : Request) : Bool :=
  match r with
  | .block r' _ => r' == q
  | .message _ => false

/-- The message to write: a block becomes a piece message once its data is read. -/
def toMessage? : Outgoing → Option Message
  | .message m => some m
  | .block r src =>
    (src.read r.begin.toNat r.length.toNat).map (.piece r.index r.begin ·)

end Outgoing

/-- The queue of items not yet written, with the count of queued blocks kept beside it. -/
structure Outbox where
  queue : List Outgoing := []
  /-- The number of queued blocks, counted up as a block is queued and down as one leaves. -/
  queuedBlocks : Int := 0
  /-- The most blocks the queue holds; zero or less for no bound. -/
  maxBlocks : Int := 0
  deriving Repr, Inhabited

namespace Outbox

/-- The number of queued blocks. -/
def blockCount (ob : Outbox) : Nat :=
  ob.queue.countP (·.isBlock)

/-- Takes out the item at position `i`, counting it out when it is a block. Every item that
leaves the queue leaves through here. -/
def removeAt (ob : Outbox) (i : Nat) : Outbox :=
  { ob with
    queue := ob.queue.eraseIdx i
    queuedBlocks := if ob.queue[i]?.any (·.isBlock) then ob.queuedBlocks - 1 else ob.queuedBlocks }

/-- Walks the items `rest`, which stand from position `k` of the queue on, and takes out each
block among them. -/
def dropBlocksFrom (ob : Outbox) (k : Nat) : List Outgoing → Outbox
  | [] => ob
  | o :: rest =>
    if o.isBlock then (ob.removeAt k).dropBlocksFrom k rest
    else ob.dropBlocksFrom (k + 1) rest

/-- Takes out every queued block. -/
def dropBlocks (ob : Outbox) : Outbox :=
  ob.dropBlocksFrom 0 ob.queue

/-- Queues an item. A choke first drops the queued blocks; a block finding the queue full is
dropped. -/
def push (ob : Outbox) (o : Outgoing) : Outbox :=
  match o with
  | .message .choke =>
    let ob := ob.dropBlocks
    { ob with queue := ob.queue ++ [o] }
  | .block _ _ =>
    if ob.maxBlocks > 0 && ob.queuedBlocks ≥ ob.maxBlocks then ob
    else { ob with queue := ob.queue ++ [o], queuedBlocks := ob.queuedBlocks + 1 }
  | .message _ => { ob with queue := ob.queue ++ [o] }

/-- Removes the first queued block of request `r`. -/
def cancel (ob : Outbox) (r : Request) : Outbox :=
  match ob.queue.findIdx? (·.answers r) with
  | some i => ob.removeAt i
  | none => ob

/-- Takes the next item to write. -/
def take? (ob : Outbox) : Option (Outgoing × Outbox) :=
  match ob.queue with
  | [] => none
  | o :: _ => some (o, ob.removeAt 0)

theorem queue_removeAt (ob : Outbox) (i : Nat) : (ob.removeAt i).queue = ob.queue.eraseIdx i :=
  rfl

theorem queue_dropBlocksFrom : ∀ (ob : Outbox) (kept rest : List Outgoing),
    ob.queue = kept ++ rest →
      (ob.dropBlocksFrom kept.length rest).queue = kept ++ rest.filter (!·.isBlock)
  | _, kept, [], _ => by simp [dropBlocksFrom, *]
  | ob, kept, o :: rest, h => by
    unfold dropBlocksFrom
    split
    · rename_i hb
      have hq : (ob.removeAt kept.length).queue = kept ++ rest := by
        rw [queue_removeAt, h, List.eraseIdx_append_of_length_le (Nat.le_refl _), Nat.sub_self,
          List.eraseIdx_cons_zero]
      rw [queue_dropBlocksFrom _ kept rest hq, List.filter_cons, hb]
      rfl
    · rename_i hb
      have hq : ob.queue = (kept ++ [o]) ++ rest := by simp [h]
      have hlen : kept.length + 1 = (kept ++ [o]).length := by simp
      rw [hlen, queue_dropBlocksFrom _ _ rest hq, List.filter_cons]
      simp [hb]

theorem queue_dropBlocks (ob : Outbox) : ob.dropBlocks.queue = ob.queue.filter (!·.isBlock) :=
  queue_dropBlocksFrom ob [] ob.queue rfl

end Outbox

/-- What writing a queue out produced: the frames in order, the blocks uploaded, and whether
the writer stopped on a block whose data could not be read. -/
structure Written where
  frames : List (List UInt8) := []
  uploaded : List Request := []
  stopped : Bool := false
  deriving Repr

/-- Writes the queued items in order until the queue is empty or a block cannot be read. -/
def Outbox.writeAll : List Outgoing → Written
  | [] => {}
  | o :: rest =>
    match o.toMessage? with
    | none => { stopped := true }
    | some m =>
      let w := writeAll rest
      { w with frames := m.frame :: w.frames,
               uploaded := (match o with
                 | .block r _ => r :: w.uploaded
                 | .message _ => w.uploaded) }

end BitTorrent
