/-!
# Download states of a block

A block of a piece being downloaded is free, requested from some peers, received from one of them,
or verified with its piece. Only the moves of `BlockState.Legal` are allowed: a request is made,
answered or given back, a received block is verified or thrown away with its piece.
-/

namespace BitTorrent

/-- The download state of one block. -/
inductive BlockState where
  | free
  | requested
  | received
  | verified
  deriving DecidableEq, Repr, Inhabited

namespace BlockState

/-- The position of a state in the usual order of visits. -/
def code : BlockState → Nat
  | free => 0
  | requested => 1
  | received => 2
  | verified => 3

/-- The state with a given position, if there is one. -/
def ofCode? : Nat → Option BlockState
  | 0 => some free
  | 1 => some requested
  | 2 => some received
  | 3 => some verified
  | _ => none

/-- The word for a state. -/
def name : BlockState → String
  | free => "free"
  | requested => "requested"
  | received => "received"
  | verified => "verified"

/-- The text of a state code: the state's word, or the code in brackets when no state has it. -/
def describe (c : UInt8) : String :=
  match ofCode? c.toNat with
  | some s => s.name
  | none => "BlockState(" ++ toString c.toNat ++ ")"

/-- The single letter a state is drawn with in a picture of a piece. -/
def letter : BlockState → Char
  | free => 'F'
  | requested => 'R'
  | received => 'X'
  | verified => 'V'

/-- The allowed moves between states. -/
def Legal : BlockState → BlockState → Bool
  | free, requested => true
  | requested, free => true
  | requested, received => true
  | received, free => true
  | received, verified => true
  | _, _ => false

theorem ofCode?_code (s : BlockState) : ofCode? s.code = some s := by
  cases s <;> rfl

end BlockState

end BitTorrent
