import CircularQueue.Proofs.Checked.Ring
import CircularQueue.Queue.Request

/-!
# Queues with all their checks

A bare queue consists of two bare rings and an array of slots, with a capacity that is any number.
Its calls make the checks of its rings and look up every slot by its number, so they may break off
where the calls of a queue have no check to make: when a ring gives out a number past the last slot,
or does not take one back. They do not if the call of the queue returns. Then they come to the same
answer and to the same queue, only that its type no longer says anything of it.
-/

namespace CircularQueue

variable {α β γ : Type}

/-- A queue as it lies in memory. -/
structure BareQueue (α : Type) where
  capacity : Nat
  free : BareRing
  allocated : BareRing
  slots : Array (Option α)

/-- The queue without what its type says of it. -/
def Queue.bare (q : Queue α) : BareQueue α :=
  ⟨q.capacity.val, q.free.bare, q.allocated.bare, q.slots.toArray⟩

namespace BareQueue

open Checked

/-! ## The calls -/

/-- A new queue whose slots have not been touched, or why there is none. -/
def tryCold (requested : Nat) :
    Checked (Except CapacityError (Outcome α Unit × BareQueue α)) :=
  match Capacity.ofNat? requested with
  | .error reason => return .error reason
  | .ok _ => do
    let order ← orderFor requested
    let free ← BareRing.filled order 0 requested
    let allocated ← BareRing.withOrder order
    let slots := Array.replicate requested none
    return .ok (⟨(), [], [.created requested order]⟩, ⟨requested, free, allocated, slots⟩)

/-- The queue with every slot written once. -/
def warm (q : BareQueue α) : BareQueue α := { q with slots := q.slots.map fun _ => none }

/-- A new queue with every slot written once, or why there is none. -/
def tryNew (requested : Nat) :
    Checked (Except CapacityError (Outcome α Unit × BareQueue α)) := do
  let made ← tryCold requested
  return made.map (Prod.map id warm)

/-- The queue, for a caller that vouches for the capacity. -/
def vouched (made : Checked (Except CapacityError (Outcome α Unit × BareQueue α))) :
    Checked (Outcome α Unit × BareQueue α) := do
  let made ← made
  made.mapError fun reason => .fault (.capacity reason)

/-- The number of values in the queue. -/
def size (q : BareQueue α) : Nat := min q.allocated.distance q.capacity

/-- Writes the value into the slot `i`, if there is one. -/
def writeSlot (slots : Array (Option α)) (i : Nat) (v : α) : Checked (Array (Option α)) :=
  if h : i < slots.size then .ok (slots.set i (some v)) else .error (.outOfBounds i slots.size)

/-- Moves the value out of the slot `i`, if there is one. -/
def readSlot (slots : Array (Option α)) (i : Nat) : Checked (α × Array (Option α)) :=
  if h : i < slots.size then
    match slots[i] with
    | some v => .ok (v, slots.set i none)
    | none => .error (.fault (.slotVacant i))
  else .error (.outOfBounds i slots.size)

/-- Publishes the slot number `i` in one of the rings, which must take it. -/
def announce (r : BareRing) (i : Nat) : Checked BareRing := do
  let (inRange, r) ← r.enqueue i false
  ensure (inRange = true) (.fault (.indexRefused i)) r

/-- Appends a value, or hands it back if every slot is taken. -/
def tryEnqueue (q : BareQueue α) (v : α) : Checked (Except (Full α) Unit × BareQueue α) := do
  let (taken, free) ← q.free.dequeue false
  match taken with
  | none => return (.error ⟨v⟩, { q with free })
  | some i =>
    let slots ← writeSlot q.slots i v
    let allocated ← announce q.allocated i
    return (.ok (), { q with free, allocated, slots })

/-- Removes the oldest value, or answers that there is none. -/
def dequeue (q : BareQueue α) : Checked (Option α × BareQueue α) := do
  let (taken, allocated) ← q.allocated.dequeue false
  match taken with
  | none => return (none, { q with allocated })
  | some i =>
    let (v, slots) ← readSlot q.slots i
    let free ← announce q.free i
    return (some v, { q with free, allocated, slots })

/-- The bounds on what a drain of the queue will still give. -/
def sizeHint (q : BareQueue α) : Queue.SizeHint := (0, some q.size)

/-- The values taken until there is none or the limit is reached, newest first, each with the size
hint after it, before those in `taken`. -/
def takeValues (q : BareQueue α) (taken : List (α × Queue.SizeHint)) :
    Nat → Checked (List (α × Queue.SizeHint) × BareQueue α)
  | 0 => return (taken, q)
  | limit + 1 => do
    let (value, q) ← q.dequeue
    match value with
    | none => return (taken, q)
    | some v => q.takeValues ((v, q.sizeHint) :: taken) limit

/-- Takes values, oldest first, until there is none or the limit is reached. -/
def drainUpTo (q : BareQueue α) (limit : Nat) :
    Checked (List (α × Queue.SizeHint) × BareQueue α) := do
  let (taken, q) ← q.takeValues [] limit
  return (taken.reverse, q)

/-- Takes all values, oldest first. -/
def drain (q : BareQueue α) : Checked (List (α × Queue.SizeHint) × BareQueue α) :=
  q.drainUpTo (q.capacity + 1)

/-- The queue with both rings started over in the order for its capacity. -/
def resetRings (q : BareQueue α) : Checked (BareQueue α) := do
  let order ← orderFor q.capacity
  let allocated ← q.allocated.reset order
  let free ← q.free.reset order
  let free ← free.fill 0 q.capacity
  return { q with free, allocated }

/-- The queue with another capacity and so many new slots, or with its own if the capacity stays. -/
def resized (q : BareQueue α) (capacity : Nat) : BareQueue α :=
  if capacity = q.capacity then q
  else { q with capacity, slots := Array.replicate capacity none }

/-- Lets go of all values and starts over. -/
def clear (q : BareQueue α) : Checked (Outcome α Unit × BareQueue α) := do
  let (taken, q) ← q.drain
  let q ← q.resetRings
  return (⟨(), taken.map (·.1), [.cleared taken.length]⟩, q)

/-- Lets go of all values and starts over with the requested capacity. -/
def setCapacity (q : BareQueue α) (requested : Nat) :
    Checked (Outcome α (Except CapacityError Unit) × BareQueue α) :=
  match Capacity.ofNat? requested with
  | .error reason => return (.quiet (.error reason), q)
  | .ok _ => do
    let (taken, q) ← q.drain
    let events := [.resizing q.capacity requested]
    let q ← (q.resized requested).resetRings
    return (⟨.ok (), taken.map (·.1), events⟩, q)

/-- Gives the queue up. -/
def release (q : BareQueue α) : Checked (Outcome α Unit) := do
  let (taken, _) ← q.drain
  return ⟨(), taken.map (·.1), if taken.isEmpty then [] else [.residual taken.length]⟩

/-- Appends a value and says whether it did; a refused value is let go of. -/
def enqueue (q : BareQueue α) (v : α) : Checked (Outcome α Bool × BareQueue α) := do
  let (admitted, q) ← q.tryEnqueue v
  match admitted with
  | .ok () => return (.quiet true, q)
  | .error full => return (⟨false, [full.value], []⟩, q)

/-- The outcome of one command and the queue it leaves. -/
def perform (q : BareQueue α) : Command α → Checked (Outcome α (Answer α) × BareQueue α)
  | .tryEnqueue v => do
    let (admitted, q) ← q.tryEnqueue v
    match admitted with
    | .ok () => return (.quiet .admitted, q)
    | .error full => return (.quiet (.refused full), q)
  | .enqueue v | .enqueueCloned v => do
    let (outcome, q) ← q.enqueue v
    return (outcome.withAnswer (.accepted outcome.answer), q)
  | .dequeue => do
    let (value, q) ← q.dequeue
    return (.quiet (.removed value), q)
  | .clear => do
    let (outcome, q) ← q.clear
    return (outcome.withAnswer .done, q)
  | .setCapacity requested => do
    let (outcome, q) ← q.setCapacity requested
    let answer := match outcome.answer with
      | .ok () => .done
      | .error reason => .rejected reason
    return (outcome.withAnswer answer, q)
  | .size => return (.quiet (.number q.size), q)
  | .isEmpty => return (.quiet (.truth (q.size == 0)), q)
  | .capacity => return (.quiet (.number q.capacity), q)
  | .capacityMax => return (.quiet (.number maxCapacity), q)

/-- The outcome of one request and the queue it leaves. -/
def serve (q : BareQueue α) :
    Queue.Request α → Checked (Outcome α (Queue.Reply α) × BareQueue α)
  | .command command => do
    let (outcome, q) ← q.perform command
    return (outcome.withAnswer (.answer outcome.answer), q)
  | .drain limit => do
    let before := q.sizeHint
    let (values, q) ← match limit with
      | some limit => q.drainUpTo limit
      | none => q.drain
    return (.quiet (.drained before values), q)

/-- The outcomes of a list of requests, made one after the other, and the queue they leave. -/
def serveAll (q : BareQueue α) :
    List (Queue.Request α) → Checked (List (Outcome α (Queue.Reply α)) × BareQueue α)
  | [] => return ([], q)
  | request :: requests => do
    let (outcome, q) ← q.serve request
    let (outcomes, q) ← q.serveAll requests
    return (outcome :: outcomes, q)

/-- The outcomes of a list of requests to a queue that is given up afterwards, and the outcome of
that. -/
def serveAndRelease (q : BareQueue α) (requests : List (Queue.Request α)) :
    Checked (List (Outcome α (Queue.Reply α)) × Outcome α Unit) := do
  let (outcomes, q) ← q.serveAll requests
  let last ← q.release
  return (outcomes, last)

end BareQueue

/-! ## They come to what the calls of the queue come to -/

namespace Checked

variable {δ ε : Type} {f : β → γ} {g : δ → ε}

/-- Where the plain computation comes to a result, the checked one comes to the same result, without
its type. -/
def Attains (f : β → γ) (x : Checked γ) (x' : Except Fault β) : Prop :=
  ∀ b, x' = .ok b → x = .ok (f b)

theorem attains_ok (f : β → γ) (b : β) : Attains f (.ok (f b)) (.ok b) := by
  intro b' hb
  cases hb
  rfl

theorem attains_error (f : β → γ) (x : Checked γ) (fault : Fault) : Attains f x (.error fault) := by
  intro b hb
  cases hb

/-- Checked computations are put together from checked computations. -/
theorem Attains.bind {x : Checked γ} {x' : Except Fault β} {h : γ → Checked ε}
    {h' : β → Except Fault δ} (hx : Attains f x x') (hh : ∀ b, Attains g (h (f b)) (h' b)) :
    Attains g (x >>= h) (x' >>= h') := by
  cases x' with
  | error fault => exact attains_error g _ fault
  | ok b =>
    rw [hx b rfl]
    exact hh b

end Checked

namespace Queue

open Checked

theorem attains_store {n : Nat} (slots : Vector (Option α) n) (i : Nat) (v : α) :
    Attains Vector.toArray (BareQueue.writeSlot slots.toArray i v) (store slots i v) := by
  intro slots' hstore
  unfold store at hstore
  split at hstore
  · rename_i hi
    split at hstore
    · cases hstore
    · cases hstore
      exact dif_pos (slots.size_toArray.symm ▸ hi)
  · cases hstore

theorem attains_load {n : Nat} (slots : Vector (Option α) n) (i : Nat) :
    Attains (Prod.map id Vector.toArray) (BareQueue.readSlot slots.toArray i) (load slots i) := by
  intro p hload
  unfold load at hload
  split at hload
  · rename_i hi
    have hsize : i < slots.toArray.size := slots.size_toArray.symm ▸ hi
    cases hv : slots.get ⟨i, hi⟩ with
    | none =>
      rw [hv] at hload
      cases hload
    | some v =>
      rw [hv] at hload
      cases hload
      have hget : slots.toArray[i] = some v := hv
      rw [BareQueue.readSlot, dif_pos hsize, hget]
      rfl
  · cases hload

theorem attains_announce {k : Order} (r : Ring k) (i : Nat) :
    Attains Ring.bare (BareQueue.announce r.bare i) (announce r i) := by
  rw [BareQueue.announce, announce, Ring.enqueue_bare]
  rcases r.enqueue i false with _ | ⟨_ | _, r'⟩
  · exact attains_error _ _ _
  · exact attains_error _ _ _
  · exact attains_ok Ring.bare r'

theorem attains_tryEnqueue (q : Queue α) (v : α) :
    Attains (Prod.map id bare) (q.bare.tryEnqueue v) (q.tryEnqueue v) := by
  obtain ⟨capacity, free, allocated, slots⟩ := q
  rw [BareQueue.tryEnqueue, tryEnqueue]
  simp only [bare, Ring.dequeue_bare, ok_bind]
  rcases free.dequeue with ⟨_ | i, free'⟩
  · exact attains_ok _ (Except.error (Full.mk v), (⟨capacity, free', allocated, slots⟩ : Queue α))
  · refine (attains_store slots i v).bind fun slots' => ?_
    refine (attains_announce allocated i).bind fun allocated' => ?_
    exact attains_ok _ (Except.ok (), (⟨capacity, free', allocated', slots'⟩ : Queue α))

theorem attains_dequeue (q : Queue α) :
    Attains (Prod.map id bare) q.bare.dequeue q.dequeue := by
  obtain ⟨capacity, free, allocated, slots⟩ := q
  rw [BareQueue.dequeue, dequeue]
  simp only [bare, Ring.dequeue_bare, ok_bind]
  rcases allocated.dequeue with ⟨_ | i, allocated'⟩
  · exact attains_ok _ (none, (⟨capacity, free, allocated', slots⟩ : Queue α))
  · refine (attains_load slots i).bind fun p => ?_
    refine (attains_announce free i).bind fun free' => ?_
    exact attains_ok _ (some p.1, (⟨capacity, free', allocated', p.2⟩ : Queue α))

theorem attains_takeValues (q : Queue α) (taken : List (α × SizeHint)) (limit : Nat) :
    Attains (Prod.map id bare) (q.bare.takeValues taken limit) (q.takeValues taken limit) := by
  induction limit generalizing q taken with
  | zero => exact attains_ok _ (taken, q)
  | succ limit ih =>
    intro b hb
    rw [takeValues] at hb
    split at hb
    · cases hb
    · rename_i q' hdequeue
      cases hb
      rw [BareQueue.takeValues, q.attains_dequeue _ hdequeue]
      rfl
    · rename_i v q' hdequeue
      rw [BareQueue.takeValues, q.attains_dequeue _ hdequeue]
      exact ih q' _ b hb

theorem attains_drainUpTo (q : Queue α) (limit : Nat) :
    Attains (Prod.map id bare) (q.bare.drainUpTo limit) (q.drainUpTo limit) := by
  intro b hb
  rw [drainUpTo] at hb
  split at hb
  · cases hb
  · rename_i taken q' htake
    cases hb
    rw [BareQueue.drainUpTo, q.attains_takeValues [] limit _ htake]
    rfl

theorem attains_drain (q : Queue α) : Attains (Prod.map id bare) q.bare.drain q.drain :=
  q.attains_drainUpTo (q.capacity.val + 1)

theorem resized_bare (q : Queue α) (c : Capacity) :
    q.bare.resized c.val =
      ⟨c.val, q.free.bare, q.allocated.bare, (q.restarted c).slots.toArray⟩ := by
  obtain ⟨capacity, free, allocated, slots⟩ := q
  rw [BareQueue.resized, restarted]
  by_cases hcapacity : capacity = c
  · subst hcapacity
    refine (if_pos rfl).trans ?_
    simp only [bare, dif_pos]
  · have hval : ¬ c.val = capacity.val := by
      cases capacity
      cases c
      rintro ⟨⟩
      exact hcapacity rfl
    refine (if_neg hval).trans ?_
    simp only [bare, dif_neg hcapacity, Vector.toArray_replicate]

/-- Starting over passes every check: the order for a capacity is one that a ring may have, and its
rings hold as many indices as there are slots. -/
theorem resetRings_resized (q : Queue α) (c : Capacity) :
    (q.bare.resized c.val).resetRings = .ok (q.restarted c).bare := by
  rw [resized_bare, BareQueue.resetRings]
  simp only [Capacity.orderFor_val, ok_bind, Ring.reset_bare,
    Ring.fillRange_bare _ (Nat.zero_le _) c.val_le_capacity_order]
  rfl

theorem resetRings_bare (q : Queue α) :
    q.bare.resetRings = .ok (q.restarted q.capacity).bare := by
  have hsame : q.bare.resized q.capacity.val = q.bare := if_pos rfl
  rw [← resetRings_resized, hsame]

theorem attains_clear (q : Queue α) : Attains (Prod.map id bare) q.bare.clear q.clear := by
  refine q.attains_drain.bind fun p => ?_
  simp only [Prod.map_snd, resetRings_bare, ok_bind]
  exact attains_ok _ (Outcome.mk () _ _, p.2.restarted p.2.capacity)

theorem attains_setCapacity (q : Queue α) (requested : Nat) :
    Attains (Prod.map id bare) (q.bare.setCapacity requested) (q.setCapacity requested) := by
  rw [BareQueue.setCapacity, setCapacity]
  cases h : Capacity.ofNat? requested with
  | error reason => exact attains_ok _ (Outcome.quiet (Except.error reason), q)
  | ok c =>
    obtain rfl := Capacity.val_of_ofNat? h
    refine q.attains_drain.bind fun p => ?_
    simp only [Prod.map_snd, resetRings_resized, ok_bind]
    exact attains_ok _ (Outcome.mk _ _ _, p.2.restarted c)

theorem attains_release (q : Queue α) : Attains id q.bare.release q.release := by
  refine q.attains_drain.bind fun p => ?_
  exact attains_ok id _

/-! ### Requests -/

theorem attains_enqueue (q : Queue α) (v : α) :
    Attains (Prod.map id bare) (q.bare.enqueue v) (BoundedQueue.enqueue q v) := by
  intro b hb
  rw [BoundedQueue.enqueue] at hb
  split at hb
  · cases hb
  · rename_i q' hadmit
    cases hb
    rw [BareQueue.enqueue, q.attains_tryEnqueue v _ hadmit]
    rfl
  · rename_i full q' hadmit
    cases hb
    rw [BareQueue.enqueue, q.attains_tryEnqueue v _ hadmit]
    rfl

theorem attains_perform (q : Queue α) (command : Command α) :
    Attains (Prod.map id bare) (q.bare.perform command) (BoundedQueue.perform q command) := by
  have henqueue (v : α) : Attains (Prod.map id bare) (q.bare.perform (.enqueue v))
      (BoundedQueue.perform q (.enqueue v)) := by
    refine (q.attains_enqueue v).bind fun p => ?_
    exact attains_ok _ (p.1.withAnswer (Answer.accepted p.1.answer), p.2)
  cases command with
  | tryEnqueue v =>
    intro b hb
    rw [BoundedQueue.perform] at hb
    split at hb
    · cases hb
    · rename_i q' hadmit
      cases hb
      rw [BareQueue.perform, q.attains_tryEnqueue v _ hadmit]
      rfl
    · rename_i full q' hadmit
      cases hb
      rw [BareQueue.perform, q.attains_tryEnqueue v _ hadmit]
      rfl
  | enqueue v => exact henqueue v
  | enqueueCloned v => exact henqueue v
  | dequeue =>
    refine q.attains_dequeue.bind fun p => ?_
    exact attains_ok _ (Outcome.quiet (Answer.removed p.1), p.2)
  | clear =>
    refine q.attains_clear.bind fun p => ?_
    exact attains_ok _ (p.1.withAnswer Answer.done, p.2)
  | setCapacity requested =>
    refine (q.attains_setCapacity requested).bind fun p => ?_
    exact attains_ok _ (p.1.withAnswer _, p.2)
  | size => exact attains_ok _ (Outcome.quiet (Answer.number q.size), q)
  | isEmpty => exact attains_ok _ (Outcome.quiet (Answer.truth q.isEmpty), q)
  | capacity => exact attains_ok _ (Outcome.quiet (Answer.number q.capacity.val), q)
  | capacityMax => exact attains_ok _ (Outcome.quiet (Answer.number maxCapacity), q)

theorem attains_serve (q : Queue α) (request : Request α) :
    Attains (Prod.map id bare) (q.bare.serve request) (q.serve request) := by
  cases request with
  | command command =>
    refine (q.attains_perform command).bind fun p => ?_
    exact attains_ok _ (p.1.withAnswer (Reply.answer p.1.answer), p.2)
  | drain limit =>
    cases limit with
    | none =>
      refine q.attains_drain.bind fun p => ?_
      exact attains_ok _ (Outcome.quiet (Reply.drained q.sizeHint p.1), p.2)
    | some limit =>
      refine (q.attains_drainUpTo limit).bind fun p => ?_
      exact attains_ok _ (Outcome.quiet (Reply.drained q.sizeHint p.1), p.2)

theorem attains_serveAll (q : Queue α) (requests : List (Request α)) :
    Attains (Prod.map id bare) (q.bare.serveAll requests) (q.serveAll requests) := by
  induction requests generalizing q with
  | nil => exact attains_ok _ ([], q)
  | cons request requests ih =>
    refine (q.attains_serve request).bind fun p => ?_
    refine (ih p.2).bind fun rest => ?_
    exact attains_ok _ (p.1 :: rest.1, rest.2)

theorem attains_serveAndRelease (q : Queue α) (requests : List (Request α)) :
    Attains id (q.bare.serveAndRelease requests) (q.serveAndRelease requests) := by
  refine (q.attains_serveAll requests).bind fun p => ?_
  refine p.2.attains_release.bind fun last => ?_
  exact attains_ok id (p.1, last)

/-! ### New queues -/

theorem bare_cold (c : Capacity) :
    (cold c : Queue α).bare =
      ⟨c.val, ((Ring.empty c.order).fillRange 0 c.val (Nat.zero_le _) c.val_le_capacity_order).bare,
        (Ring.empty c.order).bare, Array.replicate c.val none⟩ := by
  rw [bare, cold, Vector.toArray_replicate]

theorem tryCold_bare (requested : Nat) :
    (BareQueue.tryCold requested : Checked (Except CapacityError (Outcome α Unit × BareQueue α))) =
      .ok ((tryCold requested).map (Prod.map id bare)) := by
  rw [BareQueue.tryCold, tryCold]
  cases h : Capacity.ofNat? requested with
  | error reason => rfl
  | ok c =>
    obtain rfl := Capacity.val_of_ofNat? h
    simp only [Capacity.orderFor_val, ok_bind, BareRing.filled, Ring.withOrder_bare,
      Ring.fillRange_bare _ (Nat.zero_le _) c.val_le_capacity_order, ← bare_cold]
    rfl

theorem warm_bare (q : Queue α) : q.bare.warm = q.warm.bare := by
  simp only [BareQueue.warm, bare, warm, Vector.toArray_map]

theorem tryNew_bare (requested : Nat) :
    (BareQueue.tryNew requested : Checked (Except CapacityError (Outcome α Unit × BareQueue α))) =
      .ok ((tryNew requested).map (Prod.map id bare)) := by
  rw [BareQueue.tryNew, tryNew, tryCold_bare, ok_bind]
  rcases tryCold requested with reason | ⟨outcome, q⟩
  · rfl
  · simp only [Except.map, Prod.map, warm_bare, pure_eq_ok]
    rfl

end Queue

end CircularQueue
