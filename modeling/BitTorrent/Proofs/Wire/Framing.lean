import BitTorrent.Wire.Reader
import BitTorrent.Wire.Outbox
import BitTorrent.Proofs.Picker.Invariant

/-!
# The frames a reader takes

A reader of a torrent of `n` pieces takes a stream of frames. A frame is a keep-alive (a zero
length), a frame of an unknown id with its payload, both skipped, or the frame `Message.frame m`
of a message `m` it takes (`WireFrame`). It takes every message whose payload has the length of
its kind, with a bitfield only as the first message and of `⌈n / 8⌉` bytes, and a piece with at
most one block (`Message.Valid`). `Frames` strings frames together.

One read of a frame takes exactly these (`Reader.next_frame`, `Reader.frame_of_next`), so reading
a stream takes its longest run of whole frames and stops at the first byte where no frame starts
(`Reader.readAll_spec`); a run of frames is read back whole (`Reader.readAll_of_frames`), and so
is what the writer writes of messages the reader takes (`Reader.readAll_writeAll`).

The reader counts the bytes of a bitfield as `(n + 7) / 8` in 32-bit words, which is `⌈n / 8⌉`
only while `n + 7` fits a word.
-/

namespace BitTorrent

namespace BigEndian

theorem length_ofUInt32 (w : UInt32) : (ofUInt32 w).length = 4 := rfl

/-- Four bytes read as a word are written back as themselves. -/
theorem ofUInt32_word (a b c d : UInt8) : ofUInt32 (word a b c d) = [a, b, c, d] := by
  have ha := a.toNat_lt
  have hb := b.toNat_lt
  have hc := c.toNat_lt
  have hd := d.toNat_lt
  have hw : (word a b c d).toNat = ((a.toNat * 256 + b.toNat) * 256 + c.toNat) * 256 + d.toNat := by
    simp only [word, UInt32.toNat_ofNat']
    omega
  simp only [ofUInt32, hw, List.cons.injEq, and_true]
  refine ⟨?_, ?_, ?_, ?_⟩ <;> apply UInt8.toNat_inj.1 <;>
    simp only [toNat_byteAt, Nat.pow_eq, Nat.reducePow] <;> omega

/-- What is read as a word is the bytes of that word, then the rest. -/
theorem eq_of_readUInt32? {bs rest : List UInt8} {w : UInt32} (h : readUInt32? bs = some (w, rest)) :
    bs = ofUInt32 w ++ rest := by
  match bs, h with
  | a :: b :: c :: d :: rest', h =>
    simp only [readUInt32?, Option.some.injEq, Prod.mk.injEq] at h
    obtain ⟨rfl, rfl⟩ := h
    rw [ofUInt32_word]
    rfl

end BigEndian

namespace MessageId

theorem code_of_ofCode? {b : UInt8} {k : MessageId} (h : ofCode? b = some k) : k.code = b := by
  simpa using List.find?_some h

end MessageId

namespace Message

theorem haveIndex?_ofUInt32 (i : UInt32) : haveIndex? (BigEndian.ofUInt32 i) = .ok i := by
  simp [haveIndex?, BigEndian.ofUInt32, BigEndian.word_ofUInt32]

theorem ofUInt32_of_haveIndex? {p : List UInt8} {i : UInt32} (h : haveIndex? p = .ok i) :
    BigEndian.ofUInt32 i = p := by
  unfold haveIndex? at h
  split at h
  · cases h
    exact BigEndian.ofUInt32_word _ _ _ _
  · cases h

theorem requestBytes_of_request? {p : List UInt8} {r : Request} (h : request? p = .ok r) :
    requestBytes r = p := by
  unfold request? at h
  split at h
  · cases h
    simp [requestBytes, BigEndian.ofUInt32_word]
  · cases h

theorem length_requestBytes (r : Request) : (requestBytes r).length = 12 := rfl

/-- A message the reader of a torrent of `numPieces` pieces takes, `first` telling whether no
message came before it: a bitfield only first and with one bit per piece, rounded up to bytes; a
piece with at most one block of data; every other message as it is. -/
def Valid (numPieces : Nat) (first : Bool) : Message → Prop
  | bitfield d => first = true ∧ d.length = (numPieces + 7) / 8
  | piece _ _ d => d.length ≤ 16384
  | _ => True

instance (numPieces : Nat) (first : Bool) : DecidablePred (Valid numPieces first) := fun m => by
  cases m <;> unfold Valid <;> infer_instance

/-- A message the reader takes has a payload whose length, with its id byte, fits a word. -/
theorem Valid.length_lt {n : Nat} {first : Bool} {m : Message} (hn : n + 7 < 2 ^ 32)
    (hv : m.Valid n first) : m.payload.length + 1 < 2 ^ 32 := by
  cases m <;> simp only [payload, List.length_nil, BigEndian.length_ofUInt32,
    length_requestBytes, List.length_append] <;> simp only [Valid] at hv <;> omega

/-- Messages the reader takes one after another, `first` telling whether none came before:
each is valid where it stands, so a bitfield comes only first. -/
def ValidRun (numPieces : Nat) : Bool → List Message → Prop
  | _, [] => True
  | first, m :: ms => m.Valid numPieces first ∧ ValidRun numPieces false ms

end Message

/-- The frames a reader of a torrent of `numPieces` pieces takes, `first` telling whether no
message came before, with the message each gives: a keep-alive and a frame of an unknown id give
none. -/
inductive WireFrame (numPieces : Nat) (first : Bool) : List UInt8 → Option Message → Prop
  | keepAlive : WireFrame numPieces first (BigEndian.ofUInt32 0) none
  | unknown (id : UInt8) (p : List UInt8) (hid : MessageId.ofCode? id = none)
      (hlen : p.length + 1 < 2 ^ 32) :
      WireFrame numPieces first (BigEndian.ofUInt32 (p.length + 1).toUInt32 ++ id :: p) none
  | message (m : Message) (hv : m.Valid numPieces first) :
      WireFrame numPieces first m.frame (some m)

/-- A run of whole frames and the messages they give, in order; a bitfield is taken only while
no message came before. -/
inductive Frames (numPieces : Nat) : Bool → List UInt8 → List Message → Prop
  | nil (first : Bool) : Frames numPieces first [] []
  | cons {first : Bool} {f bs : List UInt8} {o : Option Message} {ms : List Message}
      (hf : WireFrame numPieces first f o) (hrest : Frames numPieces (first && o.isNone) bs ms) :
      Frames numPieces first (f ++ bs) (o.toList ++ ms)

/-- Every frame has its four length bytes. -/
theorem WireFrame.length_ge {n : Nat} {first : Bool} {f : List UInt8} {o : Option Message}
    (h : WireFrame n first f o) : 4 ≤ f.length := by
  cases h <;> simp [BigEndian.length_ofUInt32, Message.frame]

namespace Reader

/-- Taking `n` bytes takes the first `n` of the stream, when it has them. -/
theorem readFull_eq_ok {n : Nat} {bs p rest : List UInt8} :
    readFull n bs = .ok (p, rest) ↔ bs = p ++ rest ∧ p.length = n := by
  unfold readFull
  by_cases hn : n = 0
  · subst hn
    simp only [beq_self_eq_true, ↓reduceIte, Except.ok.injEq, Prod.mk.injEq,
      List.length_eq_zero_iff]
    constructor
    · rintro ⟨rfl, rfl⟩
      simp
    · rintro ⟨rfl, rfl⟩
      simp
  rw [if_neg (by simpa using hn)]
  constructor
  · intro h
    split at h
    · cases h
    split at h
    · cases h
    · rename_i hlen
      cases h
      exact ⟨(List.take_append_drop n bs).symm, by simp; omega⟩
  · rintro ⟨rfl, rfl⟩
    rw [if_neg (by
      simp only [List.isEmpty_iff, List.append_eq_nil_iff]
      rintro ⟨rfl, -⟩
      exact hn rfl), if_neg (by simp)]
    simp

theorem bitfieldBytes_toNat {n : UInt32} (hn : n.toNat + 7 < 2 ^ 32) :
    (bitfieldBytes n).toNat = (n.toNat + 7) / 8 := by
  simp only [bitfieldBytes, UInt32.toNat_div, UInt32.toNat_add, UInt32.reduceToNat]
  omega

theorem readUInt32?_ofUInt32_nil (w : UInt32) :
    BigEndian.readUInt32? (BigEndian.ofUInt32 w) = some (w, []) := by
  simpa using BigEndian.readUInt32?_ofUInt32 w []

/-! ## One frame -/

section Body

variable {n : UInt32} (hn : n.toNat + 7 < 2 ^ 32) {first : Bool}
include hn

/-- **The body of a message the reader takes is read as that message.** -/
theorem body_payload {m : Message} (hv : m.Valid n.toNat first) {len : UInt32}
    (hlen : len.toNat = m.payload.length) (rest : List UInt8) :
    body n first m.id.code len (m.payload ++ rest) = .message m rest := by
  have hlen0 : ∀ k : Nat, len.toNat = k → len = k.toUInt32 := fun k hk => by
    rw [← hk, Nat.toUInt32_eq, UInt32.ofNat_toNat]
  cases m with
  | choke | unchoke | interested | notInterested =>
    rw [hlen0 0 hlen]
    simp [body, Message.id, Message.payload, MessageId.ofCode?_code]
  | has i =>
    rw [hlen0 4 hlen]
    have hr : readFull 4 (BigEndian.ofUInt32 i ++ rest) = .ok (BigEndian.ofUInt32 i, rest) :=
      readFull_eq_ok.2 ⟨rfl, rfl⟩
    simp [body, Message.id, Message.payload, MessageId.ofCode?_code, hr,
      Message.haveIndex?_ofUInt32, bind, Except.bind, pure, Except.pure]
  | request r | cancel r =>
    rw [hlen0 12 hlen]
    have hr : readFull 12 (Message.requestBytes r ++ rest) = .ok (Message.requestBytes r, rest) :=
      readFull_eq_ok.2 ⟨rfl, rfl⟩
    simp [body, Message.id, Message.payload, MessageId.ofCode?_code, hr,
      Message.request?_requestBytes, bind, Except.bind, pure, Except.pure]
  | bitfield d =>
    obtain ⟨rfl, hd⟩ := hv
    -- the bitfield has the length the reader counts, as the count does not wrap
    have hbb : len = bitfieldBytes n := by
      apply UInt32.toNat_inj.1
      rw [bitfieldBytes_toNat hn, hlen, ← hd]
      rfl
    have hr : readFull len.toNat (d ++ rest) = .ok (d, rest) := readFull_eq_ok.2 ⟨rfl, hlen.symm⟩
    simp [body, Message.id, Message.payload, MessageId.ofCode?_code, hbb, bind, Except.bind,
      pure, Except.pure]
    rw [← hbb, hr]
  | piece i b d =>
    have hv : d.length ≤ 16384 := hv
    simp only [Message.payload, List.length_append, BigEndian.length_ofUInt32] at hlen
    have h8 : ¬ len < 8 := by
      rw [UInt32.lt_iff_toNat_lt]
      simp only [UInt32.reduceToNat]
      omega
    have hsub : (len - 8).toNat = d.length := by
      rw [UInt32.toNat_sub_of_le _ _
        (UInt32.le_iff_toNat_le.2 (by simp only [UInt32.reduceToNat]; omega))]
      simp only [UInt32.reduceToNat]
      omega
    have hbig : ¬ blockSize < len - 8 := by
      rw [UInt32.lt_iff_toNat_lt, hsub]
      simp only [blockSize, UInt32.reduceToNat]
      omega
    have hr8 : readFull 8 (BigEndian.ofUInt32 i ++ (BigEndian.ofUInt32 b ++ (d ++ rest))) =
        .ok (BigEndian.ofUInt32 i ++ BigEndian.ofUInt32 b, d ++ rest) :=
      readFull_eq_ok.2 ⟨by simp, rfl⟩
    have hrd : readFull (len - 8).toNat (d ++ rest) = .ok (d, rest) :=
      readFull_eq_ok.2 ⟨rfl, hsub.symm⟩
    simp [body, Message.id, Message.payload, MessageId.ofCode?_code, h8, hbig, hr8, hrd,
      BigEndian.readUInt32?_ofUInt32, readUInt32?_ofUInt32_nil, bind, Except.bind, pure,
      Except.pure]

/-- **A body read as a message is the body of that message**, which the reader takes. -/
theorem body_eq_message {id : UInt8} {len : UInt32} {tail rest : List UInt8} {m : Message}
    (h : body n first id len tail = .message m rest) :
    id = m.id.code ∧ tail = m.payload ++ rest ∧ len.toNat = m.payload.length ∧
      m.Valid n.toNat first := by
  unfold body at h
  cases hk : MessageId.ofCode? id with
  | none =>
    rw [hk] at h
    dsimp only at h
    split at h <;> cases h
  | some k =>
    have hid := MessageId.code_of_ofCode? hk
    rw [hk] at h
    cases k <;> dsimp only at h
    case choke | unchoke | interested | notInterested =>
      split at h
      · cases h
      · rename_i hlen
        cases h
        simp only [bne_iff_ne, ne_eq, Decidable.not_not] at hlen
        exact ⟨hid.symm, rfl, by simp [hlen, Message.payload], trivial⟩
    case has =>
      split at h
      · rename_i m' rest' hr
        cases h
        split at hr
        · exact absurd hr (Except.throw_bind_ne_ok _ _ _)
        rw [Except.bind_eq_ok] at hr
        obtain ⟨⟨p, rest''⟩, hp, hr⟩ := hr
        obtain ⟨rfl, hplen⟩ := readFull_eq_ok.1 hp
        dsimp only at hr
        split at hr
        · rename_i i hi
          rw [Except.pure_eq_ok] at hr
          cases hr
          have hbytes := Message.ofUInt32_of_haveIndex? hi
          exact ⟨hid.symm, by rw [Message.payload, hbytes], by rw [Message.payload, hbytes, hplen],
            trivial⟩
        · cases hr
      · cases h
    case request | cancel =>
      split at h
      · rename_i m' rest' hr
        cases h
        split at hr
        · exact absurd hr (Except.throw_bind_ne_ok _ _ _)
        rw [Except.bind_eq_ok] at hr
        obtain ⟨⟨p, rest''⟩, hp, hr⟩ := hr
        obtain ⟨rfl, hplen⟩ := readFull_eq_ok.1 hp
        dsimp only at hr
        split at hr
        · rename_i r hr'
          rw [Except.pure_eq_ok] at hr
          cases hr
          have hbytes := Message.requestBytes_of_request? hr'
          exact ⟨hid.symm, by rw [Message.payload, hbytes], by rw [Message.payload, hbytes, hplen],
            trivial⟩
        · cases hr
      · cases h
    case bitfield =>
      split at h
      · rename_i m' rest' hr
        cases h
        split at hr
        · exact absurd hr (Except.throw_bind_ne_ok _ _ _)
        rename_i hfirst
        split at hr
        · exact absurd hr (Except.throw_bind_ne_ok _ _ _)
        rename_i hlen
        rw [Except.bind_eq_ok] at hr
        obtain ⟨⟨p, rest''⟩, hp, hr⟩ := hr
        obtain ⟨rfl, hplen⟩ := readFull_eq_ok.1 hp
        rw [Except.pure_eq_ok] at hr
        cases hr
        simp only [bne_iff_ne, ne_eq, Decidable.not_not] at hlen
        simp only [Bool.not_eq_true'] at hfirst
        refine ⟨hid.symm, rfl, hplen.symm, by simpa using hfirst, ?_⟩
        rw [hplen, hlen, bitfieldBytes_toNat hn]
      · cases h
    case piece =>
      split at h
      · rename_i m' rest' hr
        cases h
        split at hr
        · exact absurd hr (Except.throw_bind_ne_ok _ _ _)
        rename_i hlen
        rw [Except.bind_eq_ok] at hr
        obtain ⟨⟨hd, rest1⟩, hp, hr⟩ := hr
        obtain ⟨rfl, hplen⟩ := readFull_eq_ok.1 hp
        -- the header is the eight bytes of the piece index and the offset
        rcases hd with _|⟨a0,_|⟨a1,_|⟨a2,_|⟨a3,_|⟨a4,_|⟨a5,_|⟨a6,_|⟨a7,_|⟨a8,t⟩⟩⟩⟩⟩⟩⟩⟩⟩ <;>
          simp only [List.length_cons, List.length_nil] at hplen <;> try omega
        dsimp only [BigEndian.readUInt32?, Option.getD] at hr
        split at hr
        · exact absurd hr (Except.throw_bind_ne_ok _ _ _)
        rename_i hbig
        rw [Except.bind_eq_ok] at hr
        obtain ⟨⟨d, rest2⟩, hq, hr⟩ := hr
        obtain ⟨rfl, hqlen⟩ := readFull_eq_ok.1 hq
        rw [Except.pure_eq_ok] at hr
        cases hr
        have hle : (8 : UInt32) ≤ len := UInt32.not_lt.1 hlen
        have h8 : 8 ≤ len.toNat := UInt32.le_iff_toNat_le.1 hle
        have hsub : (len - 8).toNat = len.toNat - 8 := by
          rw [UInt32.toNat_sub_of_le _ _ hle]
          rfl
        have hblock : (len - 8).toNat ≤ 16384 := by
          rw [gt_iff_lt, UInt32.lt_iff_toNat_lt] at hbig
          simpa [blockSize] using hbig
        refine ⟨hid.symm, by simp [Message.payload, BigEndian.ofUInt32_word], ?_, ?_⟩
        · simp only [Message.payload, List.length_append, BigEndian.length_ofUInt32]
          omega
        · show d.length ≤ 16384
          omega
      · cases h

omit hn in
/-- A body is skipped only for an unknown id, with the payload it announces. -/
theorem body_eq_skip {id : UInt8} {len : UInt32} {tail rest : List UInt8}
    (h : body n first id len tail = .skip rest) :
    MessageId.ofCode? id = none ∧ len.toNat ≤ tail.length ∧ rest = tail.drop len.toNat := by
  unfold body at h
  cases hk : MessageId.ofCode? id with
  | none =>
    rw [hk] at h
    dsimp only at h
    split at h
    · cases h
    · rename_i hlen
      cases h
      exact ⟨rfl, by omega, rfl⟩
  | some k =>
    rw [hk] at h
    cases k <;> dsimp only at h <;> split at h <;> cases h

end Body

/-- A length that is a count of bytes and one more, as a word, is not zero and has that count
before it. -/
theorem toUInt32_succ {k : Nat} (hk : k + 1 < 2 ^ 32) :
    (k + 1).toUInt32 ≠ 0 ∧ ((k + 1).toUInt32 - 1).toNat = k := by
  have hval : (k + 1).toUInt32.toNat = k + 1 := by
    rw [Nat.toUInt32_eq, UInt32.toNat_ofNat_of_lt' (by simp only [UInt32.size]; omega)]
  refine ⟨fun h => by simp [h] at hval, ?_⟩
  rw [UInt32.toNat_sub_of_le _ _ (UInt32.le_iff_toNat_le.2 (by simp only [UInt32.reduceToNat]; omega)),
    hval]
  rfl

variable {n : UInt32} {first : Bool}

/-- A frame with a length that is not zero is read by its body, of that length less the id. -/
theorem next_header {L : UInt32} (hL : L ≠ 0) (id : UInt8) (tail : List UInt8) :
    next n first (BigEndian.ofUInt32 L ++ id :: tail) = body n first id (L - 1) tail := by
  unfold next
  split
  · rename_i h
    simp [BigEndian.ofUInt32] at h
  · rw [BigEndian.readUInt32?_ofUInt32]
    simp [hL]

theorem next_keepAlive (rest : List UInt8) : next n first (BigEndian.ofUInt32 0 ++ rest) = .skip rest := by
  unfold next
  split
  · rename_i h
    simp [BigEndian.ofUInt32] at h
  · rw [BigEndian.readUInt32?_ofUInt32]
    rfl

/-- **A frame is read whole**: a keep-alive and a frame of an unknown id are skipped, and the
frame of a message the reader takes is read as that message. -/
theorem next_frame (hn : n.toNat + 7 < 2 ^ 32) {f : List UInt8} {o : Option Message}
    (hf : WireFrame n.toNat first f o) (rest : List UInt8) :
    next n first (f ++ rest) = o.elim (.skip rest) (.message · rest) := by
  cases hf with
  | keepAlive => exact next_keepAlive rest
  | unknown id p hid hlen =>
    obtain ⟨hL, hsub⟩ := toUInt32_succ hlen
    rw [List.append_assoc, List.cons_append, next_header hL]
    unfold body
    rw [hid]
    dsimp only
    rw [hsub]
    simp
  | message m hv =>
    obtain ⟨hL, hsub⟩ := toUInt32_succ (hv.length_lt hn)
    rw [Message.frame, List.append_assoc, List.cons_append, next_header hL]
    exact body_payload hn hv hsub rest

/-- **What one read takes is a whole frame**: a message read is read from the frame of a message
the reader takes, and a skip skips a keep-alive or a frame of an unknown id. -/
theorem frame_of_next (hn : n.toNat + 7 < 2 ^ 32) {bs rest : List UInt8} {o : Option Message}
    (h : next n first bs = o.elim (.skip rest) (.message · rest)) :
    ∃ f, bs = f ++ rest ∧ WireFrame n.toNat first f o := by
  unfold next at h
  split at h
  · cases o <;> cases h
  split at h
  · cases o <;> cases h
  rename_i L rest' hread
  have hbs := BigEndian.eq_of_readUInt32? hread
  split at h
  · -- a keep-alive
    rename_i hzero
    cases o with
    | some m => cases h
    | none =>
      cases h
      refine ⟨BigEndian.ofUInt32 0, ?_, .keepAlive⟩
      rw [hbs, show L = 0 by simpa using hzero]
  rename_i hzero
  have hL : L ≠ 0 := by simpa using hzero
  have hval : ((L - 1).toNat + 1) = L.toNat := by
    rw [UInt32.toNat_sub_of_le _ _ (UInt32.le_iff_toNat_le.2 (by
      have : L.toNat ≠ 0 := fun h0 => hL (UInt32.toNat_inj.1 (by simpa using h0))
      simp only [UInt32.reduceToNat]
      omega))]
    have : L.toNat ≠ 0 := fun h0 => hL (UInt32.toNat_inj.1 (by simpa using h0))
    simp only [UInt32.reduceToNat]
    omega
  have hLeq : ∀ k : Nat, (L - 1).toNat = k → L = (k + 1).toUInt32 := fun k hk => by
    rw [← hk, hval, Nat.toUInt32_eq, UInt32.ofNat_toNat]
  split at h
  · cases o <;> cases h
  rename_i id tail
  cases o with
  | some m =>
    obtain ⟨rfl, rfl, hlen, hv⟩ := body_eq_message hn h
    refine ⟨m.frame, ?_, .message m hv⟩
    rw [hbs, Message.frame, hLeq _ hlen]
    simp
  | none =>
    obtain ⟨hid, hle, rfl⟩ := body_eq_skip h
    have hp : (tail.take (L - 1).toNat).length = (L - 1).toNat := by simp; omega
    refine ⟨BigEndian.ofUInt32 L ++ id :: tail.take (L - 1).toNat, ?_, ?_⟩
    · rw [hbs]
      simp
    · have hfr : WireFrame n.toNat first (BigEndian.ofUInt32
          ((tail.take (L - 1).toNat).length + 1).toUInt32 ++ id :: tail.take (L - 1).toNat) none :=
        .unknown id (tail.take (L - 1).toNat) hid (by rw [hp, hval]; exact L.toNat_lt)
      rwa [hp, ← hLeq _ rfl] at hfr

/-! ## A whole stream -/

/-- **Reading a stream with fuel for every frame** takes its longest run of whole frames, with
their messages, and stops where the next read of a frame stops. The run is carried by the fuel:
each frame read takes at least four bytes of the stream. -/
theorem readAllFuel_spec (hn : n.toNat + 7 < 2 ^ 32) : ∀ (fuel : Nat) (first : Bool)
    (bs : List UInt8), bs.length < fuel →
    ∃ pre rest, bs = pre ++ rest ∧ Frames n.toNat first pre (readAllFuel n fuel first bs).1 ∧
      next n (first && (readAllFuel n fuel first bs).1.isEmpty) rest =
        .stop (readAllFuel n fuel first bs).2
  | 0, _, _, h => absurd h (Nat.not_lt_zero _)
  | fuel + 1, first, bs, h => by
    unfold readAllFuel
    cases hnext : next n first bs with
    | message m rest =>
      obtain ⟨f, rfl, hf⟩ := frame_of_next hn (o := some m) hnext
      have hf4 := hf.length_ge
      simp only [List.length_append] at h
      obtain ⟨pre, rest', rfl, hfr, hstop⟩ := readAllFuel_spec hn fuel false rest (by omega)
      refine ⟨f ++ pre, rest', (List.append_assoc _ _ _).symm, Frames.cons hf ?_, ?_⟩
      · simpa using hfr
      · simpa using hstop
    | skip rest =>
      obtain ⟨f, rfl, hf⟩ := frame_of_next hn (o := none) hnext
      have hf4 := hf.length_ge
      simp only [List.length_append] at h
      obtain ⟨pre, rest', rfl, hfr, hstop⟩ := readAllFuel_spec hn fuel first rest (by omega)
      refine ⟨f ++ pre, rest', (List.append_assoc _ _ _).symm, ?_, hstop⟩
      simpa using Frames.cons hf (by simpa using hfr)
    | stop e => exact ⟨[], bs, rfl, Frames.nil first, by simp [hnext]⟩

/-- A run of whole frames is read back whole, with the fuel of a stream longer than it. -/
theorem readAllFuel_of_frames (hn : n.toNat + 7 < 2 ^ 32) {first : Bool} {pre : List UInt8}
    {ms : List Message} (h : Frames n.toNat first pre ms) :
    ∀ fuel, pre.length < fuel → readAllFuel n fuel first pre = (ms, .io .eof) := by
  induction h with
  | nil first =>
    intro fuel hfuel
    obtain ⟨fuel, rfl⟩ := Nat.exists_eq_add_one_of_ne_zero (by omega : fuel ≠ 0)
    rfl
  | @cons first f bs o ms hf _ ih =>
    intro fuel hfuel
    have hf4 := hf.length_ge
    simp only [List.length_append] at hfuel
    obtain ⟨fuel, rfl⟩ := Nat.exists_eq_add_one_of_ne_zero (by omega : fuel ≠ 0)
    have hrest := ih fuel (by omega)
    unfold readAllFuel
    rw [next_frame hn hf]
    cases o with
    | none => simpa using hrest
    | some m =>
      simp only [Option.isNone_some, Bool.and_false] at hrest
      simp [hrest]

/-- **The reader of a stream** takes the stream's longest run of whole frames and gives their
messages; no frame starts where it stops, and it stops at the end of the stream only when the
stream ends there. -/
theorem readAll_spec (hn : n.toNat + 7 < 2 ^ 32) (bs : List UInt8) :
    ∃ pre rest, bs = pre ++ rest ∧ Frames n.toNat true pre (readAll n bs).1 ∧
      (∀ f o r, rest = f ++ r → ¬ WireFrame n.toNat (readAll n bs).1.isEmpty f o) ∧
      (rest = [] → (readAll n bs).2 = .io .eof) := by
  rw [readAll]
  obtain ⟨pre, rest, hsplit, hfr, hstop⟩ := readAllFuel_spec hn (bs.length + 1) true bs (by omega)
  refine ⟨pre, rest, hsplit, hfr, fun f o r hrest hf => ?_, fun hnil => ?_⟩
  · -- a frame there would have been read
    rw [Bool.true_and, hrest, next_frame hn hf] at hstop
    cases o <;> cases hstop
  · rw [hnil] at hstop
    exact (ReadStep.stop.inj hstop).symm

/-- Whole frames are read back as their messages, and then the stream ends. -/
theorem readAll_of_frames (hn : n.toNat + 7 < 2 ^ 32) {pre : List UInt8} {ms : List Message}
    (h : Frames n.toNat true pre ms) : readAll n pre = (ms, .io .eof) :=
  readAllFuel_of_frames hn h _ (by omega)

/-- The frames of messages the reader takes one after another are a run of whole frames. -/
theorem frames_of_validRun {first : Bool} {ms : List Message}
    (h : Message.ValidRun n.toNat first ms) : Frames n.toNat first (ms.map Message.frame).flatten ms := by
  induction ms generalizing first with
  | nil => exact Frames.nil first
  | cons m ms ih =>
    obtain ⟨hv, hrest⟩ := h
    simpa using Frames.cons (WireFrame.message m hv) (by simpa using ih hrest)

end Reader

/-- What the writer writes of a queue it writes out whole is the frames of the queue's messages,
a block becoming the piece message of its data. -/
theorem Outbox.frames_writeAll (os : List Outgoing) (h : (Outbox.writeAll os).stopped = false) :
    (Outbox.writeAll os).frames = (os.filterMap Outgoing.toMessage?).map Message.frame := by
  induction os with
  | nil => rfl
  | cons o os ih =>
    unfold Outbox.writeAll at h ⊢
    cases hm : o.toMessage? with
    | none =>
      rw [hm] at h
      cases h
    | some m =>
      rw [hm] at h
      simp only [List.filterMap_cons, hm, List.map_cons]
      rw [ih h]

namespace Reader

/-- **The reader takes exactly the frames of its grammar, and reads back what the writer writes**,
for a torrent of fewer than `2 ^ 32 - 7` pieces. Reading a stream gives the messages of its
longest run of whole frames: keep-alives and frames of unknown ids skipped, and the frame of
every message the reader takes, a flag message with no payload, a "have" with four bytes, a
request or cancel with twelve, a bitfield only first and with one bit per piece, a piece with at
most one block. No frame starts where it stops, and it stops at the end of the stream only when
the stream ends there. A run of whole frames is read back whole, and so is what the writer writes
of a queue of messages the reader takes, when it writes it out whole. -/
theorem readAll_frames {n : UInt32} (hn : n.toNat + 7 < 2 ^ 32) :
    (∀ bs, ∃ pre rest, bs = pre ++ rest ∧ Frames n.toNat true pre (readAll n bs).1 ∧
      (∀ f o r, rest = f ++ r → ¬ WireFrame n.toNat (readAll n bs).1.isEmpty f o) ∧
      (rest = [] → (readAll n bs).2 = .io .eof)) ∧
    (∀ pre ms, Frames n.toNat true pre ms → readAll n pre = (ms, .io .eof)) ∧
    ∀ os : List Outgoing, (Outbox.writeAll os).stopped = false →
      Message.ValidRun n.toNat true (os.filterMap Outgoing.toMessage?) →
      readAll n (Outbox.writeAll os).frames.flatten = (os.filterMap Outgoing.toMessage?, .io .eof) := by
  refine ⟨readAll_spec hn, fun pre ms h => readAll_of_frames hn h, fun os hstop hrun => ?_⟩
  rw [Outbox.frames_writeAll os hstop]
  exact readAll_of_frames hn (frames_of_validRun hrun)

/-- A bitfield of two bytes for ten pieces, then a "have", are read back. -/
theorem readAll_bitfield_have : (10 : UInt32).toNat + 7 < 2 ^ 32 ∧
    readAll 10 ((Message.bitfield [255, 192]).frame ++ (Message.has 3).frame) =
      ([.bitfield [255, 192], .has 3], .io .eof) := by
  have hn : (10 : UInt32).toNat + 7 < 2 ^ 32 := by decide
  refine ⟨hn, ?_⟩
  have hfr : Frames (10 : UInt32).toNat true
      ((Message.bitfield [255, 192]).frame ++ ((Message.has 3).frame ++ []))
      ((some (Message.bitfield [255, 192])).toList ++ ((some (Message.has 3)).toList ++ [])) :=
    .cons (.message _ ⟨rfl, rfl⟩) (.cons (.message _ trivial) (.nil _))
  simpa using (readAll_frames hn).2.1 _ _ hfr

/-- **A bitfield of no bytes is read for `2 ^ 32 - 1` pieces.** The reader counts the bytes of
a bitfield as `(n + 7) / 8` in 32-bit words, which wraps to `0` here, so it takes an empty
bitfield, which has no bit for any piece. -/
theorem empty_bitfield_read_of_wrapping_count :
    readAll 4294967295 (Message.bitfield []).frame = ([.bitfield []], .io .eof) ∧
      ¬ (Message.bitfield []).Valid (4294967295 : UInt32).toNat true := by
  refine ⟨by decide, ?_⟩
  simp [Message.Valid]

end Reader

end BitTorrent
