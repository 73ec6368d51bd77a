import CircularQueue.Proofs.Queue.Fates

/-!
# Queues that do not look at their values

No call on a queue looks at the values that it moves. So a function on values may be applied to the
values in a queue and to those passed to it, before a call or after it, and the outcome is the same:
renaming commutes with every call, whatever state the queue is in, and then with whole runs. What is
shown apart from the values, the numbers, the refusals, the events and the renderings, does not
change at all. If all values are renamed to the only one of the unit type, nothing is left of them,
and two runs that differ in their values only become the same run.
-/

namespace CircularQueue

variable {α β ρ τ : Type}

/-! ## Renaming -/

/-- A computation that starts as another one does, up to a renaming, and goes on so. -/
theorem bind_map_comm {ε γ γ' δ δ' : Type} {x : Except ε γ} {x' : Except ε γ'} {g : γ → γ'}
    {h : γ → Except ε δ} {h' : γ' → Except ε δ'} {g' : δ → δ'} (hx : x' = x.map g)
    (hcomm : ∀ y, h' (g y) = (h y).map g') : x' >>= h' = (x >>= h).map g' := by
  subst hx
  cases x with
  | error e => rfl
  | ok y => exact hcomm y

theorem mapError_map {ε ε' γ δ : Type} (x : Except ε γ) (g : γ → δ) (e : ε → ε') :
    (x.map g).mapError e = (x.mapError e).map g := by
  cases x <;> rfl

def Full.map (f : α → β) (full : Full α) : Full β := ⟨f full.value⟩

/-- The outcome with its answer renamed by `g` and its values by `f`. -/
def Outcome.map (f : α → β) (g : ρ → τ) (o : Outcome α ρ) : Outcome β τ :=
  ⟨g o.answer, o.dropped.map f, o.events⟩

def Command.map (f : α → β) : Command α → Command β
  | .tryEnqueue v => .tryEnqueue (f v)
  | .enqueue v => .enqueue (f v)
  | .enqueueCloned v => .enqueueCloned (f v)
  | .dequeue => .dequeue
  | .clear => .clear
  | .setCapacity requested => .setCapacity requested
  | .size => .size
  | .isEmpty => .isEmpty
  | .capacity => .capacity
  | .capacityMax => .capacityMax

def Answer.map (f : α → β) : Answer α → Answer β
  | .admitted => .admitted
  | .refused full => .refused (full.map f)
  | .accepted yes => .accepted yes
  | .removed value => .removed (value.map f)
  | .done => .done
  | .rejected reason => .rejected reason
  | .number n => .number n
  | .truth yes => .truth yes

/-- The renaming `rename` of the values of a queue by `f` commutes with every call on it, and does
not show. -/
structure Renames {Q : Type → Type} [BoundedQueue Q] (f : α → β) (rename : Q α → Q β) : Prop where
  capacity : ∀ q, BoundedQueue.capacity (rename q) = BoundedQueue.capacity q
  capacityMax : ∀ q, BoundedQueue.capacityMax (rename q) = BoundedQueue.capacityMax q
  size : ∀ q, BoundedQueue.size (rename q) = BoundedQueue.size q
  rendering : ∀ q, BoundedQueue.rendering (rename q) = BoundedQueue.rendering q
  tryEnqueue : ∀ q v, BoundedQueue.tryEnqueue (rename q) (f v) =
    (BoundedQueue.tryEnqueue q v).map (Prod.map (Except.mapError (Full.map f)) rename)
  dequeue : ∀ q, BoundedQueue.dequeue (rename q) =
    (BoundedQueue.dequeue q).map (Prod.map (Option.map f) rename)
  clear : ∀ q, BoundedQueue.clear (rename q) =
    (BoundedQueue.clear q).map (Prod.map (Outcome.map f id) rename)
  setCapacity : ∀ q requested, BoundedQueue.setCapacity (rename q) requested =
    (BoundedQueue.setCapacity q requested).map (Prod.map (Outcome.map f id) rename)
  release : ∀ q, BoundedQueue.release (rename q) =
    (BoundedQueue.release q).map (Outcome.map f id)

namespace Renames

variable {Q : Type → Type} [BoundedQueue Q] {f : α → β} {rename : Q α → Q β}

theorem isEmpty (h : Renames f rename) (q : Q α) :
    BoundedQueue.isEmpty (rename q) = BoundedQueue.isEmpty q := by
  rw [BoundedQueue.isEmpty, BoundedQueue.isEmpty, h.size]

theorem enqueue (h : Renames f rename) (q : Q α) (v : α) :
    BoundedQueue.enqueue (rename q) (f v) =
      (BoundedQueue.enqueue q v).map (Prod.map (Outcome.map f id) rename) := by
  rw [BoundedQueue.enqueue, BoundedQueue.enqueue, h.tryEnqueue]
  rcases BoundedQueue.tryEnqueue q v with fault | ⟨full | _, q'⟩ <;> rfl

theorem perform_enqueue (h : Renames f rename) (q : Q α) (v : α) :
    BoundedQueue.perform (rename q) (.enqueue (f v)) =
      (BoundedQueue.perform q (.enqueue v)).map
        (Prod.map (Outcome.map f (Answer.map f)) rename) :=
  bind_map_comm (h.enqueue q v) fun _ => rfl

/-- Every command on the renamed queue gives the renamed outcome. -/
theorem perform (h : Renames f rename) (q : Q α) (command : Command α) :
    BoundedQueue.perform (rename q) (command.map f) =
      (BoundedQueue.perform q command).map (Prod.map (Outcome.map f (Answer.map f)) rename) := by
  cases command with
  | tryEnqueue v =>
    rw [Command.map, BoundedQueue.perform, BoundedQueue.perform, h.tryEnqueue]
    rcases BoundedQueue.tryEnqueue q v with fault | ⟨full | _, q'⟩ <;> rfl
  | enqueue v => exact h.perform_enqueue q v
  | enqueueCloned v => exact h.perform_enqueue q v
  | dequeue => exact bind_map_comm (h.dequeue q) fun _ => rfl
  | clear => exact bind_map_comm (h.clear q) fun _ => rfl
  | setCapacity requested =>
    refine bind_map_comm (h.setCapacity q requested) ?_
    rintro ⟨⟨_ | _, dropped, events⟩, q'⟩ <;> rfl
  | size =>
    rw [Command.map, BoundedQueue.perform, h.size]
    rfl
  | isEmpty =>
    rw [Command.map, BoundedQueue.perform, h.isEmpty]
    rfl
  | capacity =>
    rw [Command.map, BoundedQueue.perform, h.capacity]
    rfl
  | capacityMax =>
    rw [Command.map, BoundedQueue.perform, h.capacityMax]
    rfl

end Renames

/-! ## Queues in slots -/

namespace Queue

variable {f : α → β}

/-- The queue with its values renamed. -/
def map (f : α → β) (q : Queue α) : Queue β where
  capacity := q.capacity
  free := q.free
  allocated := q.allocated
  slots := q.slots.map (Option.map f)

theorem get_map {n : Nat} (slots : Vector (Option α) n) (i : Fin n) :
    (slots.map (Option.map f)).get i = (slots.get i).map f := by
  simp [Vector.get]

theorem store_map {n : Nat} (slots : Vector (Option α) n) (i : Nat) (v : α) :
    store (slots.map (Option.map f)) i (f v) =
      (store slots i v).map (Vector.map (Option.map f)) := by
  unfold store
  by_cases hi : i < n
  · simp only [hi, ↓reduceDIte, get_map, Option.isSome_map]
    split
    · rfl
    · simp [Except.map, Vector.map_set]
  · simp only [hi, ↓reduceDIte]
    rfl

theorem load_map {n : Nat} (slots : Vector (Option α) n) (i : Nat) :
    load (slots.map (Option.map f)) i =
      (load slots i).map (Prod.map f (Vector.map (Option.map f))) := by
  unfold load
  by_cases hi : i < n
  · simp only [hi, ↓reduceDIte, get_map]
    cases slots.get ⟨i, hi⟩ with
    | none => rfl
    | some v => simp [Except.map, Vector.map_set]
  · simp only [hi, ↓reduceDIte]
    rfl

theorem tryEnqueue_map (q : Queue α) (v : α) :
    (q.map f).tryEnqueue (f v) =
      (q.tryEnqueue v).map (Prod.map (Except.mapError (Full.map f)) (map f)) := by
  obtain ⟨capacity, free, allocated, slots⟩ := q
  simp only [map, tryEnqueue]
  rcases free.dequeue with ⟨_ | i, free⟩
  · rfl
  · refine bind_map_comm (store_map slots i v) fun slots => ?_
    cases announce allocated i <;> rfl

theorem dequeue_map (q : Queue α) :
    (q.map f).dequeue = q.dequeue.map (Prod.map (Option.map f) (map f)) := by
  obtain ⟨capacity, free, allocated, slots⟩ := q
  simp only [map, dequeue]
  rcases allocated.dequeue with ⟨_ | i, allocated⟩
  · rfl
  · refine bind_map_comm (load_map slots i) ?_
    rintro ⟨v, slots⟩
    cases announce free i <;> rfl

/-- The values that a drain gave, renamed. The size hints stay. -/
def renameTaken (f : α → β) : List (α × SizeHint) → List (β × SizeHint) :=
  List.map (Prod.map f id)

theorem map_fst_renameTaken (taken : List (α × SizeHint)) :
    (renameTaken f taken).map Prod.fst = (taken.map Prod.fst).map f := by
  rw [renameTaken, List.map_map, List.map_map]
  rfl

theorem takeValues_map (q : Queue α) (taken : List (α × SizeHint)) (limit : Nat) :
    (q.map f).takeValues (renameTaken f taken) limit =
      (q.takeValues taken limit).map (Prod.map (renameTaken f) (map f)) := by
  induction limit generalizing q taken with
  | zero => rfl
  | succ limit ih =>
    rw [takeValues, takeValues, dequeue_map]
    rcases q.dequeue with fault | ⟨_ | v, q'⟩
    · rfl
    · rfl
    · exact ih q' ((v, q'.sizeHint) :: taken)

theorem drainUpTo_map (q : Queue α) (limit : Nat) :
    (q.map f).drainUpTo limit = (q.drainUpTo limit).map (Prod.map (renameTaken f) (map f)) := by
  have htake : (q.map f).takeValues [] limit = _ := takeValues_map q [] limit
  rw [drainUpTo, drainUpTo, htake]
  rcases q.takeValues [] limit with fault | ⟨taken, q'⟩
  · rfl
  · simp only [Except.map, Prod.map, renameTaken, List.map_reverse]

theorem drain_map (q : Queue α) :
    (q.map f).drain = q.drain.map (Prod.map (renameTaken f) (map f)) :=
  drainUpTo_map q _

@[simp] theorem length_renameTaken (taken : List (α × SizeHint)) :
    (renameTaken f taken).length = taken.length :=
  List.length_map _

theorem restarted_map (q : Queue α) (c : Capacity) :
    (q.map f).restarted c = (q.restarted c).map f := by
  obtain ⟨capacity, free, allocated, slots⟩ := q
  simp only [map, restarted, mk.injEq, heq_eq_eq, true_and]
  by_cases hsame : capacity = c
  · subst hsame
    simp
  · simp [hsame]

theorem clear_map (q : Queue α) :
    (q.map f).clear = q.clear.map (Prod.map (Outcome.map f id) (map f)) := by
  refine bind_map_comm (drain_map q) ?_
  rintro ⟨taken, q'⟩
  simp only [Prod.map_apply, length_renameTaken, map_fst_renameTaken, restarted_map]
  rfl

theorem setCapacity_map (q : Queue α) (requested : Nat) :
    (q.map f).setCapacity requested =
      (q.setCapacity requested).map (Prod.map (Outcome.map f id) (map f)) := by
  rw [setCapacity, setCapacity]
  cases Capacity.ofNat? requested with
  | error reason => rfl
  | ok c =>
    refine bind_map_comm (drain_map q) ?_
    rintro ⟨taken, q'⟩
    simp only [Prod.map_apply, map_fst_renameTaken, restarted_map]
    rfl

theorem release_map (q : Queue α) : (q.map f).release = q.release.map (Outcome.map f id) := by
  refine bind_map_comm (drain_map q) ?_
  rintro ⟨taken, q'⟩
  have hempty : (renameTaken f taken).isEmpty = taken.isEmpty := List.isEmpty_map
  simp only [Prod.map_apply, length_renameTaken, map_fst_renameTaken, hempty]
  rfl

/-- Renaming the values of a queue in slots commutes with all its calls. -/
theorem renames_map (f : α → β) : Renames f (map f) where
  capacity := fun _ => rfl
  capacityMax := fun _ => rfl
  size := fun _ => rfl
  rendering := fun _ => rfl
  tryEnqueue := tryEnqueue_map
  dequeue := dequeue_map
  clear := clear_map
  setCapacity := setCapacity_map
  release := release_map

def Request.map (f : α → β) : Request α → Request β
  | .command asked => .command (asked.map f)
  | .drain limit => .drain limit

def Reply.map (f : α → β) : Reply α → Reply β
  | .answer given => .answer (given.map f)
  | .drained before values => .drained before (renameTaken f values)

theorem serve_map (q : Queue α) (request : Request α) :
    (q.map f).serve (request.map f) =
      (q.serve request).map (Prod.map (Outcome.map f (Reply.map f)) (map f)) := by
  cases request with
  | command asked => exact bind_map_comm ((renames_map f).perform q asked) fun _ => rfl
  | drain limit =>
    cases limit with
    | none => exact bind_map_comm (drain_map q) fun _ => rfl
    | some limit => exact bind_map_comm (drainUpTo_map q limit) fun _ => rfl

/-! Queues as they are made. -/

@[simp] theorem cold_map (c : Capacity) : (cold c : Queue α).map f = cold c := by
  simp only [map, cold, Vector.map_replicate, Option.map_none]

theorem warm_map (q : Queue α) : (q.map f).warm = q.warm.map f := by
  simp only [map, warm, Vector.map_map]
  rfl

theorem tryCold_map (f : α → β) (requested : Nat) :
    (tryCold requested : Except CapacityError (Outcome β Unit × Queue β)) =
      (tryCold requested).map (Prod.map (Outcome.map f id) (map f)) := by
  rw [tryCold, tryCold]
  cases Capacity.ofNat? requested with
  | error reason => rfl
  | ok c =>
    have hcreated : created c = Prod.map (Outcome.map f id) (map f) (created c) := by
      rw [created, created, Prod.map_apply, cold_map]
      rfl
    exact congrArg Except.ok hcreated

theorem tryNew_map (f : α → β) (requested : Nat) :
    (tryNew requested : Except CapacityError (Outcome β Unit × Queue β)) =
      (tryNew requested).map (Prod.map (Outcome.map f id) (map f)) := by
  rw [tryNew, tryNew, tryCold_map f]
  rcases tryCold requested with reason | ⟨outcome, q⟩
  · rfl
  · exact congrArg (fun q => Except.ok (_, q)) (warm_map q)

theorem newCold_map (f : α → β) (requested : Nat) :
    (newCold requested : Except Fault (Outcome β Unit × Queue β)) =
      (newCold requested).map (Prod.map (Outcome.map f id) (map f)) := by
  rw [newCold, newCold, tryCold_map f, mapError_map]

theorem new_map (f : α → β) (requested : Nat) :
    (new requested : Except Fault (Outcome β Unit × Queue β)) =
      (new requested).map (Prod.map (Outcome.map f id) (map f)) := by
  rw [new, new, tryNew_map f, mapError_map]

end Queue

/-! ## Queues behind a lock -/

namespace Fifo

variable {f : α → β}

/-- The sequence with its values renamed. -/
def map (f : α → β) (s : Fifo α) : Fifo β where
  front := s.front.map f
  back := s.back.map f
  size := s.size
  size_eq := by simp [s.size_eq]

theorem toList_map (s : Fifo α) : (s.map f).toList = s.toList.map f := by
  simp [map, toList]

theorem pop?_mk_nil (back : List α) (size : Nat)
    (hsize : size = ([] : List α).length + back.length) :
    (⟨[], back, size, hsize⟩ : Fifo α).pop? =
      (back.reverse.head?, ⟨back.reverse.tail, [], size - 1, by simp [hsize]⟩) := by
  unfold pop?
  simp only
  split
  · rename_i heq
    simp [heq]
  · rename_i heq
    simp_all

theorem pop?_map (s : Fifo α) : (s.map f).pop? = Prod.map (Option.map f) (map f) s.pop? := by
  obtain ⟨front, back, size, hsize⟩ := s
  cases front with
  | cons v rest => rfl
  | nil =>
    have hpop := pop?_mk_nil (back.map f) size (by simp [hsize])
    rw [pop?_mk_nil]
    refine hpop.trans ?_
    simp [map]

end Fifo

namespace LockedQueue

variable {f : α → β}

/-- The queue with its values renamed. -/
def map (f : α → β) (q : LockedQueue α) : LockedQueue β :=
  ⟨q.capacity, ⟨q.items.lock, q.items.data.map f⟩, q.isLocked_items⟩

theorem underLock_map {γ δ : Type} (q : LockedQueue α) {g : Fifo α → γ × Fifo α}
    {g' : Fifo β → δ × Fifo β} {p : γ → δ}
    (hcomm : ∀ items, g' (items.map f) = Prod.map p (Fifo.map f) (g items)) :
    (q.map f).underLock g' = Prod.map p (map f) (q.underLock g) := by
  have hdata := hcomm q.items.data
  simp only [underLock, map, SpinMutex.lockFree, hdata]
  rfl

theorem tryEnqueue_map (q : LockedQueue α) (v : α) :
    (q.map f).tryEnqueue (f v) =
      Prod.map (Except.mapError (Full.map f)) (map f) (q.tryEnqueue v) := by
  refine underLock_map q fun items => ?_
  have hsize : (items.map f).size = items.size := rfl
  have hcapacity : (q.map f).capacity = q.capacity := rfl
  rw [hsize, hcapacity]
  split <;> rfl

theorem dequeue_map (q : LockedQueue α) :
    (q.map f).dequeue = Prod.map (Option.map f) (map f) q.dequeue :=
  underLock_map q Fifo.pop?_map

theorem toList_map (q : LockedQueue α) : (q.map f).toList = q.toList.map f :=
  q.items.data.toList_map

theorem clear_map (q : LockedQueue α) :
    (q.map f).clear = Prod.map (Outcome.map f id) (map f) q.clear := by
  have hclear : (q.map f).clear = (⟨(), (q.map f).toList, []⟩, q.clear.2.map f) := rfl
  rw [hclear, toList_map]
  rfl

theorem setCapacity_map (q : LockedQueue α) (requested : Nat) :
    (q.map f).setCapacity requested =
      Prod.map (Outcome.map f id) (map f) (q.setCapacity requested) := by
  rw [setCapacity, setCapacity]
  cases Capacity.ofNat? requested with
  | error reason => rfl
  | ok c =>
    have hset : (q.map f).toList = q.toList.map f := toList_map q
    exact congrArg (fun vs => ((⟨.ok (), vs, []⟩ : Outcome β (Except CapacityError Unit)), _)) hset

theorem release_map (q : LockedQueue α) : (q.map f).release = q.release.map f id := by
  rw [release, toList_map]
  rfl

/-- Renaming the values of a queue behind a lock commutes with all its calls. -/
theorem renames_map (f : α → β) : Renames f (map f) where
  capacity := fun _ => rfl
  capacityMax := fun _ => rfl
  size := fun _ => rfl
  rendering := fun _ => rfl
  tryEnqueue := fun q v => congrArg Except.ok (tryEnqueue_map q v)
  dequeue := fun q => congrArg Except.ok (dequeue_map q)
  clear := fun q => congrArg Except.ok (clear_map q)
  setCapacity := fun q requested => congrArg Except.ok (setCapacity_map q requested)
  release := fun q => congrArg Except.ok (release_map q)

theorem tryNew_map (f : α → β) (requested : Nat) :
    (tryNew requested : Except CapacityError (LockedQueue β)) =
      (tryNew requested).map (map f) := by
  rw [tryNew, tryNew]
  cases Capacity.ofNat? requested <;> rfl

theorem new_map (f : α → β) (requested : Nat) :
    (new requested : Except Fault (LockedQueue β)) = (new requested).map (map f) := by
  rw [new, new, tryNew_map f, mapError_map]

end LockedQueue

end CircularQueue
