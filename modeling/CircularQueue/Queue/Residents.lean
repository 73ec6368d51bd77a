import CircularQueue.Queue.Basic
import CircularQueue.Ring.Live

/-!
# Residents of a queue

The values a queue holds, oldest first: the contents of the slots whose numbers are live in the
allocated ring, in the order of that ring.
-/

namespace CircularQueue.Queue

variable {α : Type}

/-- The value in the slot `i`, if there is such a slot and it holds one. -/
def valueAt (q : Queue α) (i : Nat) : Option α := q.slots[i]?.join

/-- The values in the queue, oldest first. -/
def residents (q : Queue α) : List α := q.allocated.live.filterMap q.valueAt

@[simp] theorem residents_cold (c : Capacity) : (cold c : Queue α).residents = [] := by
  simp [residents, cold]

@[simp] theorem residents_warm_cold (c : Capacity) : (cold c : Queue α).warm.residents = [] := by
  simp [warm_cold]

end CircularQueue.Queue
