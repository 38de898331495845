import BitTorrent.Picker.BlockState

/-!
# Faults

A fault is a broken promise between parts of the program: an index past the end of a sequence,
a block moved between states that the state machine forbids, two bitfields of different lengths
compared. A fault stops the operation that meets it; `Fault.message` is the text it is reported
with.
-/

namespace BitTorrent

/-- A broken promise between parts of the program. -/
inductive Fault where
  /-- A bit index at or past the length of a bitfield. -/
  | bitOutOfBound
  /-- Two bitfields of different lengths compared bit by bit. -/
  | bitfieldLengthMismatch
  /-- A block moved along an edge that `BlockState.Legal` does not have. -/
  | illegalTransition (src dst : BlockState)
  /-- An index at or past the length of a sequence. -/
  | indexOutOfRange (index length : Nat)
  /-- An index before the start of a sequence, such as the last element of an empty one. -/
  | indexBeforeStart (index : Int)
  /-- Any other fault, with its text. -/
  | other (text : String)
  deriving DecidableEq, Repr, Inhabited

/-- The text a fault is reported with. -/
def Fault.message : Fault → String
  | .bitOutOfBound => "index out of bound"
  | .bitfieldLengthMismatch => "bitfield length mismatch"
  | .illegalTransition s d => "illegal block transition: " ++ s.name ++ " -> " ++ d.name
  | .indexOutOfRange i n =>
    "runtime error: index out of range [" ++ toString i ++ "] with length " ++ toString n
  | .indexBeforeStart i => "runtime error: index out of range [" ++ toString i ++ "]"
  | .other t => t

/-- The element at an index of an array, or the fault of reading past its end. -/
def Fault.get {α : Type} (a : Array α) (i : Nat) : Except Fault α :=
  if h : i < a.size then .ok a[i] else .error (.indexOutOfRange i a.size)

end BitTorrent
