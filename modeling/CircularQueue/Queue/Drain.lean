import CircularQueue.Queue.Transfer

/-!
# Draining, clearing and resizing

A queue is drained by taking its oldest value again and again, until there is none or as many as
wanted have been taken; the rest then stays. Each value taken leaves a vacant slot behind and none
is filled meanwhile, so one call more than there are slots always comes to an end.

To clear a queue and to change its capacity, all values are let go of in this way. Then both rings
start over, so nothing of the past is left in them.
-/

namespace CircularQueue.Queue

variable {α : Type}

/-- Bounds on how many values are still to come: a lower and perhaps an upper one. -/
abbrev SizeHint := Nat × Option Nat

/-- The bounds on what a drain of the queue will still give. -/
def sizeHint (q : Queue α) : SizeHint := (0, some q.size)

/-- The values taken until there is none or the limit is reached, newest first, each with the size
hint after it, before those in `taken`. -/
def takeValues (q : Queue α) (taken : List (α × SizeHint)) :
    Nat → Except Fault (List (α × SizeHint) × Queue α)
  | 0 => .ok (taken, q)
  | limit + 1 =>
    match q.dequeue with
    | .error fault => .error fault
    | .ok (none, q) => .ok (taken, q)
    | .ok (some v, q) => q.takeValues ((v, q.sizeHint) :: taken) limit

/-- Takes values, oldest first, until there is none or the limit is reached. Each comes with the
size hint after it. -/
def drainUpTo (q : Queue α) (limit : Nat) : Except Fault (List (α × SizeHint) × Queue α) :=
  match q.takeValues [] limit with
  | .error fault => .error fault
  | .ok (taken, q) => .ok (taken.reverse, q)

/-- Takes all values, oldest first. -/
def drain (q : Queue α) : Except Fault (List (α × SizeHint) × Queue α) :=
  q.drainUpTo (q.capacity.val + 1)

/-- The queue with capacity `c` and both rings started over. It keeps its slots if their number
stays. -/
def restarted (q : Queue α) (c : Capacity) : Queue α :=
  match q with
  | { capacity, free, allocated, slots } =>
    { capacity := c
      allocated := allocated.reset c.order
      free := allFree free c
      slots := if h : capacity = c then h ▸ slots else Vector.replicate c.val none }

/-- Lets go of all values and starts over. -/
def clear (q : Queue α) : Except Fault (Outcome α Unit × Queue α) := do
  let (taken, q) ← q.drain
  return (⟨(), taken.map (·.1), [.cleared taken.length]⟩, q.restarted q.capacity)

/-- Lets go of all values and starts over with the requested capacity. A capacity that is refused
changes nothing. -/
def setCapacity (q : Queue α) (requested : Nat) :
    Except Fault (Outcome α (Except CapacityError Unit) × Queue α) :=
  match Capacity.ofNat? requested with
  | .error e => .ok (.quiet (.error e), q)
  | .ok c => do
    let (taken, q) ← q.drain
    return (⟨.ok (), taken.map (·.1), [.resizing q.capacity.val c.val]⟩, q.restarted c)

/-- Gives the queue up: it lets go of all values and reports them if there were any. -/
def release (q : Queue α) : Except Fault (Outcome α Unit) := do
  let (taken, _) ← q.drain
  return ⟨(), taken.map (·.1), if taken.isEmpty then [] else [.residual taken.length]⟩

end CircularQueue.Queue
