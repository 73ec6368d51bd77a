import CircularQueue.Ring.Enqueue
import CircularQueue.Ring.Dequeue
import CircularQueue.Full
import CircularQueue.Outcome

/-!
# Queues of values in slots

A queue of capacity `c` keeps its values in `c` slots. The numbers of the slots go round between two
rings: `free` holds those of the slots without a value, `allocated` those of the slots with one, in
the order in which the values came. A producer takes a number from `free`, writes the slot, and
publishes the number in `allocated`; a consumer goes the other way. So each slot belongs at any
moment to one of the rings or to one call.

A new queue may have its slots written once before any value comes, to touch their memory.
-/

namespace CircularQueue

/-- A queue of values in `α`. -/
structure Queue (α : Type) where
  capacity : Capacity
  free : Ring capacity.order
  allocated : Ring capacity.order
  slots : Vector (Option α) capacity.val

namespace Queue

variable {α : Type}

/-- A ring of free slot numbers, all of them, in the cells of `r` if they are the right number. -/
def allFree {k : Order} (r : Ring k) (c : Capacity) : Ring c.order :=
  (r.reset c.order).fillRange 0 c.val (Nat.zero_le _) c.val_le_capacity_order

/-- A new queue whose slots have not been touched. -/
def cold (c : Capacity) : Queue α where
  capacity := c
  free := (Ring.empty c.order).fillRange 0 c.val (Nat.zero_le _) c.val_le_capacity_order
  allocated := Ring.empty c.order
  slots := Vector.replicate c.val none

/-- The queue with every slot written once. Only for a queue that holds no value. -/
def warm (q : Queue α) : Queue α := { q with slots := q.slots.map fun _ => none }

/-- A new queue together with the report of it. -/
def created (c : Capacity) : Outcome α Unit × Queue α :=
  (⟨(), [], [.created c.val c.order.exponent]⟩, cold c)

/-- A new queue of the requested capacity, its slots not touched, or why there is none. -/
def tryCold (requested : Nat) : Except CapacityError (Outcome α Unit × Queue α) :=
  match Capacity.ofNat? requested with
  | .ok c => .ok (created c)
  | .error e => .error e

/-- A new queue of the requested capacity, its slots touched, or why there is none. -/
def tryNew (requested : Nat) : Except CapacityError (Outcome α Unit × Queue α) :=
  match tryCold requested with
  | .ok (outcome, q) => .ok (outcome, q.warm)
  | .error e => .error e

/-- A queue whose slots are not touched, for a caller that vouches for the capacity. -/
def newCold (requested : Nat) : Except Fault (Outcome α Unit × Queue α) :=
  (tryCold requested).mapError .capacity

/-- A queue for a caller that vouches for the capacity. -/
def new (requested : Nat) : Except Fault (Outcome α Unit × Queue α) :=
  (tryNew requested).mapError .capacity

/-- The number of values in the queue. -/
def size (q : Queue α) : Nat := min q.allocated.distance q.capacity.val

def isEmpty (q : Queue α) : Bool := q.size == 0

def capacityMax (_ : Queue α) : Nat := maxCapacity

/-- The queue as it is shown for inspection, its values left out. -/
def rendering (q : Queue α) : Rendering :=
  .record "Scq" [
    ("capacity", .nat q.capacity.val),
    ("size", .nat q.size),
    ("free", q.free.rendering),
    ("allocated", q.allocated.rendering)] false

theorem warm_cold (c : Capacity) : (cold c : Queue α).warm = cold c := by
  have h : ((cold c : Queue α).slots.map fun _ => none) = (cold c : Queue α).slots := by
    ext1 i hi
    simp [cold]
  simp only [warm, h]

end Queue

end CircularQueue
