import CircularQueue.Queue.Drain
import CircularQueue.LockedQueue

/-!
# Bounded queues

What both kinds of queue offer, so that a caller need not know which one it has. Two calls to append
a value are built on `tryEnqueue`, which hands a refused value back: `enqueue` lets go of it and
only says so, and `enqueueCloned` does the same with a copy, while the caller keeps the value.

Commands and their answers are data as well. A run is a list of commands, and what it shows is the
list of outcomes; two queues that show the same in every run are the same to their callers.
-/

namespace CircularQueue

/-- A kind of bounded queue. -/
class BoundedQueue (Q : Type → Type) where
  /-- A new queue of the requested capacity, or why there is none. -/
  create {α : Type} : Nat → Except CapacityError (Outcome α Unit × Q α)
  /-- The number of values the queue may hold. -/
  capacity {α : Type} : Q α → Nat
  /-- The largest capacity the queue could be given. -/
  capacityMax {α : Type} : Q α → Nat
  /-- The number of values in the queue. -/
  size {α : Type} : Q α → Nat
  /-- Appends a value, or hands it back if the queue is full. -/
  tryEnqueue {α : Type} : Q α → α → Except Fault (Except (Full α) Unit × Q α)
  /-- Removes the oldest value, or answers that there is none. -/
  dequeue {α : Type} : Q α → Except Fault (Option α × Q α)
  /-- Lets go of all values. -/
  clear {α : Type} : Q α → Except Fault (Outcome α Unit × Q α)
  /-- Lets go of all values and changes the capacity. -/
  setCapacity {α : Type} :
    Q α → Nat → Except Fault (Outcome α (Except CapacityError Unit) × Q α)
  /-- Gives the queue up. -/
  release {α : Type} : Q α → Except Fault (Outcome α Unit)
  /-- The queue as it is shown for inspection. -/
  rendering {α : Type} : Q α → Rendering

instance : BoundedQueue Queue where
  create := Queue.tryNew
  capacity q := q.capacity.val
  capacityMax := Queue.capacityMax
  size := Queue.size
  tryEnqueue := Queue.tryEnqueue
  dequeue := Queue.dequeue
  clear := Queue.clear
  setCapacity := Queue.setCapacity
  release := Queue.release
  rendering := Queue.rendering

instance : BoundedQueue LockedQueue where
  create requested := (LockedQueue.tryNew requested).map fun q => (.quiet (), q)
  capacity q := q.capacity.val
  capacityMax := LockedQueue.capacityMax
  size := LockedQueue.size
  tryEnqueue q v := .ok (q.tryEnqueue v)
  dequeue q := .ok q.dequeue
  clear q := .ok q.clear
  setCapacity q requested := .ok (q.setCapacity requested)
  release q := .ok q.release
  rendering := LockedQueue.rendering

/-- A call on a bounded queue of values in `α`. -/
inductive Command (α : Type)
  | tryEnqueue (value : α)
  | enqueue (value : α)
  | enqueueCloned (value : α)
  | dequeue
  | clear
  | setCapacity (requested : Nat)
  | size
  | isEmpty
  | capacity
  | capacityMax
deriving DecidableEq

inductive Answer (α : Type)
  /-- The value was appended. -/
  | admitted
  /-- The value was handed back. -/
  | refused (full : Full α)
  /-- Whether the value was appended. -/
  | accepted (yes : Bool)
  /-- The value removed, if any. -/
  | removed (value : Option α)
  | done
  | rejected (reason : CapacityError)
  | number (n : Nat)
  | truth (yes : Bool)
deriving DecidableEq

namespace BoundedQueue

variable {Q : Type → Type} [BoundedQueue Q] {α : Type}

/-- Appends a value and says whether it did; a refused value is let go of. -/
def enqueue (q : Q α) (v : α) : Except Fault (Outcome α Bool × Q α) :=
  match tryEnqueue q v with
  | .error fault => .error fault
  | .ok (.ok (), q) => .ok (.quiet true, q)
  | .ok (.error full, q) => .ok (⟨false, [full.value], []⟩, q)

/-- Appends a copy of a value that the caller keeps; a refused copy is let go of. -/
def enqueueCloned (q : Q α) (v : α) : Except Fault (Outcome α Bool × Q α) := enqueue q v

def isEmpty (q : Q α) : Bool := size q == 0

/-- The outcome of one command and the queue it leaves. -/
def perform (q : Q α) : Command α → Except Fault (Outcome α (Answer α) × Q α)
  | .tryEnqueue v =>
    match tryEnqueue q v with
    | .error fault => .error fault
    | .ok (.ok (), q) => .ok (.quiet .admitted, q)
    | .ok (.error full, q) => .ok (.quiet (.refused full), q)
  | .enqueue v => do
    let (outcome, q) ← enqueue q v
    return (outcome.withAnswer (.accepted outcome.answer), q)
  | .enqueueCloned v => do
    let (outcome, q) ← enqueueCloned q v
    return (outcome.withAnswer (.accepted outcome.answer), q)
  | .dequeue => do
    let (value, q) ← dequeue q
    return (.quiet (.removed value), q)
  | .clear => do
    let (outcome, q) ← clear q
    return (outcome.withAnswer .done, q)
  | .setCapacity requested => do
    let (outcome, q) ← setCapacity q requested
    let answer := match outcome.answer with
      | .ok () => .done
      | .error reason => .rejected reason
    return (outcome.withAnswer answer, q)
  | .size => .ok (.quiet (.number (size q)), q)
  | .isEmpty => .ok (.quiet (.truth (isEmpty q)), q)
  | .capacity => .ok (.quiet (.number (capacity q)), q)
  | .capacityMax => .ok (.quiet (.number (capacityMax q)), q)

/-- The outcomes of a list of commands, made one after the other, and the queue they leave. -/
def run (q : Q α) : List (Command α) → Except Fault (List (Outcome α (Answer α)) × Q α)
  | [] => .ok ([], q)
  | command :: commands => do
    let (outcome, q) ← perform q command
    let (outcomes, q) ← run q commands
    return (outcome :: outcomes, q)

end BoundedQueue

end CircularQueue
