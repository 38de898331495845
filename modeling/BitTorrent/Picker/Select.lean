import BitTorrent.Picker.Basic

/-!
# The piece picker: selecting blocks to request

Selection for a peer happens in three tiers: free blocks of partial pieces the peer has, then
free blocks of new pieces the peer has, started one at a time, and last, in end-game, blocks
requested from other peers and not yet received. A block is never requested twice from the same
peer. A peer on parole only gets blocks of pieces reserved for it and new pieces, which are then
reserved for it.

Reading a bit of the peer's bitfield past its length is a fault, as in `Bitfield.test`.
-/

namespace BitTorrent

namespace Picker

variable {P : Type} [DecidableEq P]

/-- Requests up to `need` free blocks of piece `index` from `pe`, in block order. -/
def takeFree (pe : P) (index : UInt32) : Nat → List (Slot P) → List (Slot P) × List Request
  | 0, ss => (ss, [])
  | _, [] => ([], [])
  | k + 1, s :: ss =>
    if s.state == .free then
      let (ss', rs) := takeFree pe index k ss
      ({ s with state := .requested, requested := s.requested ++ [pe] } :: ss',
        s.toRequest index :: rs)
    else
      let (ss', rs) := takeFree pe index (k + 1) ss
      (s :: ss', rs)

/-- Requests up to `need` blocks of piece `index` from `pe` that are requested from other peers
only. -/
def takeDuplicate (pe : P) (index : UInt32) : Nat → List (Slot P) → List (Slot P) × List Request
  | 0, ss => (ss, [])
  | _, [] => ([], [])
  | k + 1, s :: ss =>
    if s.state == .requested && !(pe ∈ s.requested) then
      let (ss', rs) := takeDuplicate pe index k ss
      ({ s with requested := s.requested ++ [pe] } :: ss', s.toRequest index :: rs)
    else
      let (ss', rs) := takeDuplicate pe index (k + 1) ss
      (s :: ss', rs)

/-- The partial pieces `pe` may get blocks of, by ascending index: the peer has them, they are
not reserved for another peer, and on parole they are reserved for `pe`. -/
def eligible (pk : Picker P) (pe : P) (holds : Bitfield) (parole : Bool) :
    Except Fault (List UInt32) :=
  pk.partials.foldlM (fun acc pp => do
    if !(← holds.test pp.index) then return acc
    match pp.exclusive with
    | some x => if x ≠ pe then return acc
    | none => if parole then return acc
    return acc ++ [pp.index]) []

/-- The pieces the peer has that are neither verified nor partial, ascending. -/
def newPieces (pk : Picker P) (holds : Bitfield) : Except Fault (List UInt32) :=
  ((List.range pk.numPieces.toNat).map Nat.toUInt32).foldlM (fun acc i => do
    if !(← holds.test i) then return acc
    if pk.verified.getD i then return acc
    if (pk.partial? i).isSome then return acc
    return acc ++ [i]) []

/-- Applies a block-taking rule to the partial piece at `index`, adding to `ret` until it holds
`n` requests. -/
def takeFrom (pk : Picker P) (take : Nat → List (Slot P) → List (Slot P) × List Request)
    (index : UInt32) (n : Nat) (ret : List Request) : Picker P × List Request :=
  match pk.partial? index with
  | none => (pk, ret)
  | some pp =>
    let (ss, rs) := take (n - ret.length) pp.slots.toList
    (pk.update { pp with slots := ss.toArray }, ret ++ rs)

/-- Tier one: free blocks of the given partial pieces. -/
def fillPartials (pe : P) (n : Nat) :
    List UInt32 → Picker P × List Request → Picker P × List Request
  | [], acc => acc
  | i :: is, (pk, ret) =>
    let (pk', ret') := pk.takeFrom (takeFree pe i) i n ret
    if ret'.length == n then (pk', ret') else fillPartials pe n is (pk', ret')

/-- Tier two: start the given pieces one at a time and take their free blocks. -/
def fillNew (pe : P) (n : Nat) (parole : Bool) :
    List UInt32 → Picker P × List Request → Picker P × List Request
  | [], acc => acc
  | i :: is, (pk, ret) =>
    let (pp, pk1) := pk.start i
    let pp := if parole then { pp with exclusive := some pe } else pp
    let pk2 := { pk1.update pp with endGame := false }
    let (pk3, ret') := pk2.takeFrom (takeFree pe i) i n ret
    if ret'.length == n then (pk3, ret') else fillNew pe n parole is (pk3, ret')

/-- Tier three: duplicate requests of blocks requested from other peers. -/
def fillDuplicates (pe : P) (n : Nat) :
    List UInt32 → Picker P × List Request → Picker P × List Request
  | [], acc => acc
  | i :: is, (pk, ret) =>
    let (pk', ret') := pk.takeFrom (takeDuplicate pe i) i n ret
    let pk' := if ret'.length > ret.length then { pk' with endGame := true } else pk'
    if ret'.length == n then (pk', ret') else fillDuplicates pe n is (pk', ret')

/-- Selects at most `n` blocks to request from `pe`, whose bitfield is `holds`, and records them
as requested from it. -/
def select (pk : Picker P) (pe : P) (holds : Bitfield) (n : Int) (parole : Bool) :
    Except Fault (List Request × Picker P) := do
  if n ≤ 0 || pk.verified.all then return ([], pk)
  let n := n.toNat
  let (pk, ret) := fillPartials pe n (pk.rank (← pk.eligible pe holds parole)) (pk, [])
  if ret.length == n then return (ret, pk)
  let (pk, ret) := fillNew pe n parole (pk.rank (← pk.newPieces holds)) (pk, ret)
  if ret.length == n || parole then return (ret, pk)
  let (pk, ret) := fillDuplicates pe n (pk.rank (← pk.eligible pe holds false)) (pk, ret)
  return (ret, pk)

end Picker

end BitTorrent
