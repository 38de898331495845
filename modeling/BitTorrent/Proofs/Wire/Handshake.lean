import BitTorrent.Wire.Handshake
import BitTorrent.Proofs.Wire.Framing

/-!
# Two sides of a handshake

A dialer and an acceptor meet over one connection that keeps the order of the bytes and holds a
whole handshake in each direction, so the dialer's first write never waits: the acceptor reads
the dialer's 68 bytes, and the dialer reads what the acceptor writes back.

One read of each part of a handshake takes exactly its bytes (`readHeader_encode`,
`readPeerId_append`); from these, what the acceptor does with a dialer's handshake
(`accept_encode`) and what the dialer does with an acceptor's (`dial_encode`). The meeting
(`handshake_agreement`) succeeds on both sides exactly when the acceptor serves the torrent and
the two peer ids differ, each side then learns the other's id and reads its 68 bytes and no more;
a torrent it does not serve is refused before the acceptor writes anything, and so is a stream
that does not open with the protocol string (`accept_of_not_protocol`).
-/

namespace BitTorrent

namespace Handshake

@[simp]
theorem length_protocol : protocol.length = 20 := by decide +kernel

@[simp]
theorem length_encode (ih id : List UInt8) :
    (encode ih id).length = 28 + ih.length + id.length := by
  simp [encode]
  omega

/-- A field is its first `n` bytes, when the stream has them. -/
theorem field_eq_ok {n : Nat} {bs p rest : List UInt8} :
    field n bs = .ok (p, rest) ↔ bs = p ++ rest ∧ p.length = n := by
  rw [← Reader.readFull_eq_ok]
  unfold field
  split <;> rename_i h <;> simp [h]

theorem field_append {p : List UInt8} (rest : List UInt8) :
    field p.length (p ++ rest) = .ok (p, rest) :=
  field_eq_ok.2 ⟨rfl, rfl⟩

/-- A stream shorter than a field breaks the handshake with an end of stream. -/
theorem field_of_short {n : Nat} {bs : List UInt8} (h : bs.length < n) :
    ∃ e, field n bs = .error (.io e) := by
  unfold field Reader.readFull
  rw [if_neg (by simp; omega)]
  by_cases he : bs.isEmpty
  · exact ⟨.eof, by simp [he]⟩
  · exact ⟨.unexpectedEof, by simp [he, h]⟩

theorem readHeader_encode {ih : List UInt8} (hih : ih.length = 20) (id : List UInt8) :
    readHeader (encode ih id) = .ok (ih, id) := by
  have hp : field 20 (encode ih id) = .ok (protocol, List.replicate 8 0 ++ (ih ++ id)) :=
    field_eq_ok.2 ⟨by simp [encode], length_protocol⟩
  have hr : field 8 (List.replicate 8 0 ++ (ih ++ id)) = .ok (List.replicate 8 0, ih ++ id) :=
    field_eq_ok.2 ⟨rfl, by simp⟩
  have hi : field 20 (ih ++ id) = .ok (ih, id) := field_eq_ok.2 ⟨rfl, hih⟩
  unfold readHeader
  rw [hp]
  simp only [bind, Except.bind, bne_self_eq_false, Bool.false_eq_true, ↓reduceIte]
  rw [hr]
  exact hi

theorem readPeerId_append {id : List UInt8} (hid : id.length = 20) (rest : List UInt8) :
    readPeerId (id ++ rest) = .ok (id, rest) :=
  field_eq_ok.2 ⟨rfl, hid⟩

theorem encode_append (ih id rest : List UInt8) :
    encode ih id ++ rest = encode ih (id ++ rest) := by
  simp [encode]

/-- What the acceptor does with a dialer's handshake: it asks about the torrent, refuses it
without a word, or answers with its own handshake and takes the dialer's id. -/
theorem accept_encode (serves : List UInt8 → Bool) {ih a b : List UInt8} (hih : ih.length = 20)
    (ha : a.length = 20) (rest : List UInt8) :
    accept serves b (encode ih a ++ rest) =
      if serves ih then
        { asked := [ih], written := encode ih b,
          result := if a = b then .error .ownConnection else .ok (a, ih) }
      else { asked := [ih], result := .error .invalidInfoHash } := by
  rw [encode_append]
  unfold accept
  rw [readHeader_encode hih]
  cases hs : serves ih
  · simp [hs]
  · simp [readPeerId_append ha, hs]

/-- What the dialer does with an acceptor's handshake: it takes the acceptor's id when the info
hash is its own. -/
theorem dial_encode {ih a ih' b : List UInt8} (hih' : ih'.length = 20) (hb : b.length = 20)
    (rest : List UInt8) :
    dial ih a (encode ih' b ++ rest) =
      { written := encode ih a,
        result := if ih' ≠ ih then .error .invalidInfoHash
          else if b = a then .error .ownConnection else .ok (b, ih') } := by
  rw [encode_append]
  unfold dial
  simp only [readHeader_encode hih', readPeerId_append hb, bind, Except.bind, pure, Except.pure]
  by_cases hi : ih' = ih
  · by_cases hba : b = a <;> simp [hi, hba, throw, throwThe, MonadExceptOf.throw]
  · simp [hi, throw, throwThe, MonadExceptOf.throw]

theorem field_length {n : Nat} {bs p rest : List UInt8} (h : field n bs = .ok (p, rest)) :
    bs.length = n + rest.length := by
  obtain ⟨rfl, rfl⟩ := field_eq_ok.1 h
  simp

theorem readHeader_length {s ih rest : List UInt8} (h : readHeader s = .ok (ih, rest)) :
    s.length = 48 + rest.length := by
  unfold readHeader at h
  cases hp : field 20 s with
  | error e => simp [hp, bind, Except.bind] at h
  | ok r =>
    obtain ⟨p, r1⟩ := r
    have h1 := field_length hp
    by_cases hpr : p = protocol
    · subst hpr
      simp only [hp, bind, Except.bind, bne_self_eq_false, Bool.false_eq_true, ↓reduceIte] at h
      cases hr : field 8 r1 with
      | error e => simp [hr] at h
      | ok r' =>
        obtain ⟨q, r2⟩ := r'
        have h2 := field_length hr
        simp only [hr] at h
        have h3 := field_length h
        omega
    · simp [hp, bind, Except.bind, hpr, throw, throwThe, MonadExceptOf.throw] at h

/-- The acceptor succeeds only after reading a whole handshake. -/
theorem accept_length {serves : List UInt8 → Bool} {ourId s : List UInt8} {r}
    (h : (accept serves ourId s).result = .ok r) : 68 ≤ s.length := by
  unfold accept at h
  cases hh : readHeader s with
  | error e => simp [hh] at h
  | ok x =>
    obtain ⟨ih, rest⟩ := x
    have h1 := readHeader_length hh
    simp only [hh] at h
    split at h
    · cases h
    · split at h
      · cases h
      · rename_i hid
        have h2 := field_length hid
        omega

/-- The dialer succeeds only after reading a whole handshake. -/
theorem dial_length {ih ourId s : List UInt8} {r} (h : (dial ih ourId s).result = .ok r) :
    68 ≤ s.length := by
  unfold dial at h
  cases hh : readHeader s with
  | error e => simp [hh, bind, Except.bind] at h
  | ok x =>
    obtain ⟨ih', rest⟩ := x
    have h1 := readHeader_length hh
    simp only [hh, bind, Except.bind] at h
    split at h
    · simp [throw, throwThe, MonadExceptOf.throw] at h
    · cases hid : readPeerId rest with
      | error e => simp [hid] at h
      | ok y =>
        obtain ⟨id, after⟩ := y
        have h2 := field_length hid
        omega

/-- An acceptor refuses a stream that does not open with the protocol string before it asks
about a torrent or writes anything. -/
theorem accept_of_not_protocol (serves : List UInt8 → Bool) (ourId : List UInt8)
    {s : List UInt8} (hlen : 20 ≤ s.length) (hp : s.take 20 ≠ protocol) :
    accept serves ourId s = { result := .error .invalidProtocol } := by
  have hf : field 20 s = .ok (s.take 20, s.drop 20) :=
    field_eq_ok.2 ⟨(List.take_append_drop 20 s).symm, by simp; omega⟩
  have hh : readHeader s = .error .invalidProtocol := by
    simp [readHeader, hf, bind, Except.bind, hp, throw, throwThe, MonadExceptOf.throw]
  simp [accept, hh]

/-- A side of a handshake reads exactly the first `n` bytes of stream `s`: what it does with
them is what it does with the whole stream, and it fails on any shorter part. -/
def ReadsExactly (side : List UInt8 → Outcome) (n : Nat) (s : List UInt8) : Prop :=
  side (s.take n) = side s ∧ ∀ k < n, ∃ e, (side (s.take k)).result = .error e

/-- A side that needs `n` bytes to succeed and ignores what follows the first `n` bytes of `s`
reads exactly those. -/
theorem readsExactly {side : List UInt8 → Outcome} {n : Nat} {s : List UInt8}
    (htail : ∀ rest, side (s.take n ++ rest) = side (s.take n))
    (hneeds : ∀ t r, (side t).result = .ok r → n ≤ t.length) : ReadsExactly side n s := by
  refine ⟨?_, fun k hk => ?_⟩
  · conv => rhs; rw [← List.take_append_drop n s]
    exact (htail _).symm
  · cases hr : (side (s.take k)).result with
    | error e => exact ⟨e, rfl⟩
    | ok r =>
      have := hneeds _ r hr
      simp at this
      omega

theorem take_encode_append {ih id : List UInt8} (hih : ih.length = 20) (hid : id.length = 20)
    (rest : List UInt8) : (encode ih id ++ rest).take 68 = encode ih id := by
  rw [List.take_append_of_le_length (by simp; omega), List.take_of_length_le (by simp; omega)]

/-- **Both sides of a handshake agree.** A dialer with peer id `a` and an acceptor with peer id
`b` meet over one connection for the torrent of info hash `ih`. Both succeed exactly when the
acceptor serves the torrent and the ids differ; the acceptor then learns `(a, ih)` and the dialer
`b`, and each reads exactly the 68 bytes of the other's handshake, whatever follows them. A
torrent the acceptor does not serve is refused before it writes anything, and any stream that
does not open with the protocol string is refused before it asks about a torrent or writes. -/
theorem handshake_agreement (serves : List UInt8 → Bool) (ih a b : List UInt8)
    (hih : ih.length = 20) (ha : a.length = 20) (hb : b.length = 20) :
    let acc := accept serves b (encode ih a)
    let dl := dial ih a acc.written
    ((∃ p q, acc.result = .ok p ∧ dl.result = .ok q) ↔ serves ih = true ∧ a ≠ b) ∧
    (serves ih = true → a ≠ b → acc.result = .ok (a, ih) ∧ dl.result = .ok (b, ih) ∧
      ∀ afterDial afterAccept, accept serves b (encode ih a ++ afterDial) = acc ∧
        dial ih a (acc.written ++ afterAccept) = dl ∧
        ReadsExactly (accept serves b) 68 (encode ih a ++ afterDial) ∧
        ReadsExactly (dial ih a) 68 (acc.written ++ afterAccept)) ∧
    (serves ih = false → acc.result = .error .invalidInfoHash ∧ acc.written = []) ∧
    ∀ s, 20 ≤ s.length → s.take 20 ≠ protocol →
      accept serves b s = { result := .error .invalidProtocol } := by
  intro acc dl
  have hacc : ∀ rest, accept serves b (encode ih a ++ rest) = acc := fun rest => by
    simp only [acc]
    rw [accept_encode serves hih ha rest, ← List.append_nil (encode ih a),
      accept_encode serves hih ha []]
  have hprotocol := fun (s : List UInt8) (hlen : 20 ≤ s.length) hp =>
    accept_of_not_protocol serves b hlen hp
  cases hs : serves ih with
  | false =>
    have hrefused : acc = { asked := [ih], result := .error .invalidInfoHash } := by
      rw [← hacc [], accept_encode serves hih ha [], hs, if_neg Bool.false_ne_true]
    refine ⟨?_, fun h => absurd h Bool.false_ne_true, fun _ => by simp [hrefused], hprotocol⟩
    simp [hrefused]
  | true =>
    -- the acceptor answers with its own handshake, which the dialer reads whatever follows it
    have hwritten : acc.written = encode ih b := by
      rw [← hacc [], accept_encode serves hih ha [], hs, if_pos rfl]
    have hdial : ∀ rest, dial ih a (acc.written ++ rest) = dl := fun rest => by
      simp only [dl, hwritten]
      rw [dial_encode hih hb rest, ← List.append_nil (encode ih b), dial_encode hih hb []]
    have hres : acc.result = (if a = b then .error .ownConnection else .ok (a, ih)) := by
      rw [← hacc [], accept_encode serves hih ha [], hs, if_pos rfl]
    have hdres : dl.result = (if b = a then .error .ownConnection else .ok (b, ih)) := by
      rw [← hdial [], hwritten, dial_encode hih hb []]
      simp
    refine ⟨?_, fun _ hab => ?_, fun h => absurd h (by decide), hprotocol⟩
    · by_cases hab : a = b
      · subst hab
        simp [hres]
      · simp [hres, hdres, hab, Ne.symm hab]
    · have hba : b ≠ a := Ne.symm hab
      refine ⟨by simp [hres, hab], by simp [hdres, hba], fun afterDial afterAccept =>
        ⟨hacc afterDial, hdial afterAccept, ?_, ?_⟩⟩
      · refine readsExactly (fun rest => ?_) (fun t r h => accept_length h)
        rw [take_encode_append hih ha, hacc]
      · refine readsExactly (fun rest => ?_) (fun t r h => dial_length h)
        rw [hwritten, take_encode_append hih hb, ← hwritten, hdial]

/-- Two peers of different ids meeting for a torrent the acceptor serves learn each other's
ids. -/
theorem handshake_between_two_peers :
    let ih := List.replicate 20 (7 : UInt8)
    let a := List.replicate 20 (1 : UInt8)
    let b := List.replicate 20 (2 : UInt8)
    ih.length = 20 ∧ a.length = 20 ∧ b.length = 20 ∧
      (accept (fun _ => true) b (encode ih a)).result = .ok (a, ih) ∧
      (dial ih a (accept (fun _ => true) b (encode ih a)).written).result = .ok (b, ih) := by
  intro ih a b
  obtain ⟨-, hmet, -, -⟩ := handshake_agreement (fun _ => true) ih a b rfl rfl rfl
  obtain ⟨hacc, hdial, -⟩ := hmet rfl (by decide)
  exact ⟨rfl, rfl, rfl, hacc, hdial⟩

end Handshake

end BitTorrent
