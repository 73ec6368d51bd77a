import CircularQueue.Fifo
import CircularQueue.Full
import CircularQueue.Outcome
import CircularQueue.Fault
import CircularQueue.Spin.Mutex

/-!
# A queue behind a spin lock

A bounded queue in its plainest form: a sequence of values behind a mutex. Every call that may meet
others takes the lock and releases it before it returns, so between calls the lock is free, and that
is part of the type. Only calls that own the queue alone reach the values without locking.
-/

namespace CircularQueue

/-- A bounded sequence of values behind a spin lock. -/
structure LockedQueue (α : Type) where
  capacity : Capacity
  items : SpinMutex (Fifo α)
  isLocked_items : items.isLocked = false

namespace LockedQueue

variable {α β : Type}

def ofCapacity (c : Capacity) : LockedQueue α := ⟨c, .new .empty, rfl⟩

/-- A new queue of the requested capacity, or why there is none. -/
def tryNew (requested : Nat) : Except CapacityError (LockedQueue α) :=
  match Capacity.ofNat? requested with
  | .ok c => .ok (ofCapacity c)
  | .error e => .error e

/-- A new queue for a caller that vouches for the capacity. -/
def new (requested : Nat) : Except Fault (LockedQueue α) :=
  (tryNew requested).mapError .capacity

/-- The values in the queue, oldest first. -/
def toList (q : LockedQueue α) : List α := q.items.data.toList

/-- Works on the values under the lock. -/
def underLock (q : LockedQueue α) (f : Fifo α → β × Fifo α) : β × LockedQueue α :=
  let guard := q.items.lockFree q.isLocked_items
  match f guard.data with
  | (answer, items) => (answer, ⟨q.capacity, (guard.write items).release, rfl⟩)

def tryEnqueue (q : LockedQueue α) (v : α) : Except (Full α) Unit × LockedQueue α :=
  q.underLock fun items =>
    if q.capacity.val ≤ items.size then (.error ⟨v⟩, items) else (.ok (), items.push v)

def dequeue (q : LockedQueue α) : Option α × LockedQueue α := q.underLock Fifo.pop?

def size (q : LockedQueue α) : Nat := (q.underLock fun items => (items.size, items)).1

def capacityMax (_ : LockedQueue α) : Nat := maxCapacity

/-- The queue with other values, put in without locking, and the old values. -/
def replaceItems (q : LockedQueue α) (c : Capacity) (items : Fifo α) : Fifo α × LockedQueue α :=
  match h : q.items.replace items with
  | (old, fresh) => (old, ⟨c, fresh, by
      have hfresh : fresh = (q.items.replace items).2 := by rw [h]
      rw [hfresh]
      exact q.isLocked_items⟩)

def clear (q : LockedQueue α) : Outcome α Unit × LockedQueue α :=
  match q.replaceItems q.capacity .empty with
  | (old, q) => (⟨(), old.toList, []⟩, q)

/-- Lets go of all values and changes the capacity. A capacity that is refused changes nothing. -/
def setCapacity (q : LockedQueue α) (requested : Nat) :
    Outcome α (Except CapacityError Unit) × LockedQueue α :=
  match Capacity.ofNat? requested with
  | .error e => (.quiet (.error e), q)
  | .ok c =>
    match q.replaceItems c .empty with
    | (old, q) => (⟨.ok (), old.toList, []⟩, q)

/-- Gives the queue up: it lets go of all values. -/
def release (q : LockedQueue α) : Outcome α Unit := ⟨(), q.toList, []⟩

/-- The queue as it is shown for inspection, its values left out. -/
def rendering (q : LockedQueue α) : Rendering :=
  .record "LockedQueue" [("items", q.items.rendering), ("capacity", .nat q.capacity.val)] false

theorem size_eq_length (q : LockedQueue α) : q.size = q.toList.length :=
  q.items.data.size_eq_length

end LockedQueue

end CircularQueue
