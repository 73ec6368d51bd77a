import CircularQueue.Queue.Basic

/-!
# Putting a value in and taking it out

Both calls have three parts: a slot number leaves one ring, the slot is written or emptied, and the
number enters the other ring. A slot number out of range, a slot written twice and a slot read while
vacant are faults. The rings are what keeps them from happening; neither call looks for another slot
when one occurs.
-/

namespace CircularQueue.Queue

variable {α : Type}

/-- Writes the value into the slot `i`, which must be there and hold none. -/
def store {n : Nat} (slots : Vector (Option α) n) (i : Nat) (v : α) :
    Except Fault (Vector (Option α) n) :=
  if h : i < n then
    if (slots.get ⟨i, h⟩).isSome then .error (.slotOccupied i)
    else .ok (slots.set i (some v) h)
  else .error (.noSuchSlot i n)

/-- Moves the value out of the slot `i`, which must be there and hold one. -/
def load {n : Nat} (slots : Vector (Option α) n) (i : Nat) :
    Except Fault (α × Vector (Option α) n) :=
  if h : i < n then
    match slots.get ⟨i, h⟩ with
    | some v => .ok (v, slots.set i none h)
    | none => .error (.slotVacant i)
  else .error (.noSuchSlot i n)

/-- Publishes the slot number `i` in one of the rings. -/
def announce {k : Order} (r : Ring k) (i : Nat) : Except Fault (Ring k) :=
  match r.enqueue i false with
  | some (true, r) => .ok r
  | some (false, _) => .error (.indexRefused i)
  | none => .error .stalled

/-- Appends a value, or hands it back if every slot is taken. -/
def tryEnqueue (q : Queue α) (v : α) : Except Fault (Except (Full α) Unit × Queue α) :=
  match q with
  | { capacity, free, allocated, slots } =>
    match free.dequeue with
    | (none, free) => .ok (.error ⟨v⟩, { capacity, free, allocated, slots })
    | (some i, free) => do
      let slots ← store slots i v
      let allocated ← announce allocated i
      return (.ok (), { capacity, free, allocated, slots })

/-- Removes the oldest value, or answers that there is none. -/
def dequeue (q : Queue α) : Except Fault (Option α × Queue α) :=
  match q with
  | { capacity, free, allocated, slots } =>
    match allocated.dequeue with
    | (none, allocated) => .ok (none, { capacity, free, allocated, slots })
    | (some i, allocated) => do
      let (v, slots) ← load slots i
      let free ← announce free i
      return (some v, { capacity, free, allocated, slots })

end CircularQueue.Queue
