import CircularQueue.Rendering

/-!
# Refused values

A queue that is full hands the value back inside `Full`. What is said about it never depends on the
value.
-/

namespace CircularQueue

/-- A value that a full queue refused. -/
structure Full (α : Type) where
  value : α
deriving DecidableEq, BEq

/-- The refusal in words. -/
def Full.message (_ : Full α) : String := "queue is full"

/-- The refusal as it is shown for inspection. -/
def Full.rendering (_ : Full α) : Rendering := .atom "Full(..)"

end CircularQueue
