/-
How far a root is. A root starts as partial and may become full; full is the end.
-/
namespace BlockDag

/-- Status of a root. -/
inductive RootStatus where
  /-- Some blocks may be there. -/
  | part
  /-- Every block of the tree is there and was checked. -/
  | full
deriving DecidableEq

namespace RootStatus

/-- Whether a root may move from its status, if it has one, to another. A partial root may start
over; a full one never moves. -/
def CanMove : (start : Option RootStatus) → (goal : RootStatus) → Bool
  | none, .part => true
  | none, .full => false
  | some .part, _ => true
  | some .full, _ => false

/-- The word that is stored for a status. -/
def word : RootStatus → String
  | .part => "partial"
  | .full => "full"

/-- Reads a stored word. -/
def ofWord? (text : String) : Option RootStatus :=
  if text = "partial" then some .part else if text = "full" then some .full else none

@[simp] theorem ofWord?_word (s : RootStatus) : ofWord? s.word = some s := by cases s <;> rfl

/-- The status as it appears in messages. -/
def label : RootStatus → String
  | .part => "Partial"
  | .full => "Full"

/-- A status that may be missing, as it appears in messages. -/
def showOption : Option RootStatus → String
  | none => "None"
  | some s => "Some(" ++ s.label ++ ")"

end RootStatus

end BlockDag
