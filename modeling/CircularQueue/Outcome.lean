import CircularQueue.Event

/-!
# Outcomes

A call on a queue shows more than its answer: values that the queue let go of, and events. All of it
together is the outcome of the call, and the order within it is part of it.
-/

namespace CircularQueue

/-- What a call on a queue of values in `α` shows besides the queue it leaves: its answer, the
values the queue let go of, oldest first, and the events. -/
structure Outcome (α ρ : Type) where
  answer : ρ
  dropped : List α
  events : List Event
deriving DecidableEq

namespace Outcome

variable {α ρ τ : Type}

/-- An answer without effects. -/
def quiet (answer : ρ) : Outcome α ρ := ⟨answer, [], []⟩

/-- The same effects with another answer. -/
def withAnswer (o : Outcome α ρ) (answer : τ) : Outcome α τ := ⟨answer, o.dropped, o.events⟩

end Outcome

end CircularQueue
