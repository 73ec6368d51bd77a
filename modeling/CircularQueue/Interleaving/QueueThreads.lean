import CircularQueue.Interleaving.Producer
import CircularQueue.Interleaving.Consumer
import CircularQueue.Contract

/-!
# Threads at one queue

Any number of threads append values to one queue and remove values from it. In a queue in slots a
call is a walk through both rings with an access to a slot in between. A queue behind a lock is
worked on by one call at a time, so there a call is a single step.
-/

namespace CircularQueue.Interleaving

/-- A call that threads may make on a queue they share. -/
inductive Transfer (α : Type)
  | tryEnqueue (value : α)
  | dequeue
deriving DecidableEq

inductive Receipt (α : Type)
  | admitted
  | refused (full : Full α)
  | removed (value : Option α)
deriving DecidableEq

/-- Where a thread stands in a call on a queue in slots. -/
inductive QueueLocation (α : Type)
  /-- Takes a slot number from the free ring, for the value. -/
  | claimFree (value : α) (location : Consumer)
  /-- Writes the value into the slot. -/
  | storeValue (value : α) (index : Nat)
  /-- Publishes the slot number in the allocated ring. -/
  | announce (index : Nat) (location : Producer)
  /-- Takes a slot number from the allocated ring. -/
  | claimValue (location : Consumer)
  /-- Moves the value out of the slot. -/
  | loadValue (index : Nat)
  /-- Publishes the slot number in the free ring, holding the value. -/
  | giveBack (value : α) (index : Nat) (location : Producer)
deriving DecidableEq

variable {α : Type}

/-- One access of a call on a queue in slots. -/
def stepQueue (patience : Nat) (q : Queue α) (location : QueueLocation α) (spurious : Bool) :
    Except Fault (Queue α × Next (QueueLocation α) (Receipt α × Unit)) :=
  match q with
  | { capacity, free, allocated, slots } =>
    match location with
    | .claimFree v location =>
      match location.step patience false free spurious with
      | (free, .goto location) =>
        .ok ({ capacity, free, allocated, slots }, .goto (.claimFree v location))
      | (free, .answer (some i)) =>
        .ok ({ capacity, free, allocated, slots }, .goto (.storeValue v i))
      | (free, .answer none) =>
        .ok ({ capacity, free, allocated, slots }, .answer (.refused ⟨v⟩, ()))
    | .storeValue v i => do
      let slots ← Queue.store slots i v
      if i < capacity.order.capacity then
        return ({ capacity, free, allocated, slots }, .goto (.announce i .reserve))
      else .error (.indexRefused i)
    | .announce i location =>
      match location.step i false allocated spurious with
      | (allocated, .goto location) =>
        .ok ({ capacity, free, allocated, slots }, .goto (.announce i location))
      | (allocated, .answer _) =>
        .ok ({ capacity, free, allocated, slots }, .answer (.admitted, ()))
    | .claimValue location =>
      match location.step patience false allocated spurious with
      | (allocated, .goto location) =>
        .ok ({ capacity, free, allocated, slots }, .goto (.claimValue location))
      | (allocated, .answer (some i)) =>
        .ok ({ capacity, free, allocated, slots }, .goto (.loadValue i))
      | (allocated, .answer none) =>
        .ok ({ capacity, free, allocated, slots }, .answer (.removed none, ()))
    | .loadValue i => do
      let (v, slots) ← Queue.load slots i
      if i < capacity.order.capacity then
        return ({ capacity, free, allocated, slots }, .goto (.giveBack v i .reserve))
      else .error (.indexRefused i)
    | .giveBack v i location =>
      match location.step i false free spurious with
      | (free, .goto location) =>
        .ok ({ capacity, free, allocated, slots }, .goto (.giveBack v i location))
      | (free, .answer _) =>
        .ok ({ capacity, free, allocated, slots }, .answer (.removed (some v), ()))

/-- The calls on a queue in slots, access by access. -/
def queueMachine (α : Type) (patience : Nat) :
    Machine (Queue α) Unit (Transfer α) (QueueLocation α) (Receipt α) where
  start _ call :=
    match call with
    | .tryEnqueue v => some (.goto (.claimFree v .readThreshold))
    | .dequeue => some (.goto (.claimValue .readThreshold))
  step q _ location spurious := stepQueue patience q location spurious

/-- A call on a queue from beginning to end. -/
def transfer {Q : Type → Type} [BoundedQueue Q] (q : Q α) :
    Transfer α → Except Fault (Receipt α × Q α)
  | .tryEnqueue v =>
    match BoundedQueue.tryEnqueue q v with
    | .error fault => .error fault
    | .ok (.ok (), q) => .ok (.admitted, q)
    | .ok (.error full, q) => .ok (.refused full, q)
  | .dequeue =>
    match BoundedQueue.dequeue q with
    | .error fault => .error fault
    | .ok (value, q) => .ok (.removed value, q)

/-- The calls on a queue that is worked on by one call at a time. -/
def serialMachine (Q : Type → Type) [BoundedQueue Q] (α : Type) :
    Machine (Q α) Unit (Transfer α) (Transfer α) (Receipt α) where
  start _ call := some (.goto call)
  step q _ call _ :=
    match transfer q call with
    | .error fault => .error fault
    | .ok (receipt, q) => .ok (q, .answer (receipt, ()))

end CircularQueue.Interleaving
