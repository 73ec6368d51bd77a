import CircularQueue.Queue.Request

/-!
# Bounded lists

The plainest bounded queue is a capacity and a list of values. It has no rings, no slots and no
lock, and every command on it can be read off its definition. A kind of queue realizes it if some
relation between queues and bounded lists is kept by the calls that a command is made of; the
commands, and runs of any length, then follow the bounded list. Events are left out, since not every
kind of queue reports them.
-/

namespace CircularQueue

variable {α ρ τ : Type}

/-- What a caller sees of an outcome: the answer, and the values that were let go of. -/
def Outcome.seen (o : Outcome α ρ) : ρ × List α := (o.answer, o.dropped)

/-- A capacity, and values, oldest first. -/
structure BoundedList (α : Type) where
  capacity : Capacity
  values : List α

namespace BoundedList

/-- The list without values. -/
def empty (c : Capacity) : BoundedList α := ⟨c, []⟩

/-- The list with one more value, if there is room, and whether there was. -/
def push (s : BoundedList α) (v : α) : Bool × BoundedList α :=
  if s.values.length < s.capacity.val then (true, { s with values := s.values ++ [v] })
  else (false, s)

/-- The list without its oldest values. -/
def drop (s : BoundedList α) (n : Nat) : BoundedList α := { s with values := s.values.drop n }

/-- The bounds on what a drain will still give. -/
def sizeHint (s : BoundedList α) : Queue.SizeHint := (0, some s.values.length)

/-- The oldest values, at most as many as the limit, each with the size hint after it. -/
def front (s : BoundedList α) : Nat → List (α × Queue.SizeHint)
  | 0 => []
  | limit + 1 =>
    match s with
    | ⟨_, []⟩ => []
    | ⟨c, v :: vs⟩ => (v, sizeHint ⟨c, vs⟩) :: front ⟨c, vs⟩ limit

theorem front_of_length_le {s : BoundedList α} {limit : Nat} (h : s.values.length ≤ limit) :
    s.front limit = s.front s.values.length := by
  obtain ⟨c, vs⟩ := s
  induction vs generalizing limit with
  | nil => cases limit <;> rfl
  | cons v vs ih =>
    cases limit with
    | zero => exact absurd h (by simp)
    | succ limit => rw [front, ih (Nat.le_of_succ_le_succ h)]; rfl

theorem drop_of_length_le {s : BoundedList α} {limit : Nat} (h : s.values.length ≤ limit) :
    s.drop limit = empty s.capacity := by
  rw [drop, List.drop_eq_nil_iff.2 h]
  rfl

theorem map_fst_front (s : BoundedList α) : (s.front s.values.length).map Prod.fst = s.values := by
  obtain ⟨c, vs⟩ := s
  induction vs with
  | nil => rfl
  | cons v vs ih => exact congrArg (v :: ·) ih

theorem length_front (s : BoundedList α) :
    (s.front s.values.length).length = s.values.length := by
  have hlen := congrArg List.length s.map_fst_front
  rwa [List.length_map] at hlen

/-- What a command answers and lets go of, and the list it leaves. -/
def perform (s : BoundedList α) : Command α → (Answer α × List α) × BoundedList α
  | .tryEnqueue v =>
    match s.push v with
    | (true, s) => ((.admitted, []), s)
    | (false, s) => ((.refused ⟨v⟩, []), s)
  | .enqueue v | .enqueueCloned v =>
    match s.push v with
    | (true, s) => ((.accepted true, []), s)
    | (false, s) => ((.accepted false, [v]), s)
  | .dequeue => ((.removed s.values.head?, []), s.drop 1)
  | .clear => ((.done, s.values), empty s.capacity)
  | .setCapacity requested =>
    match Capacity.ofNat? requested with
    | .ok c => ((.done, s.values), empty c)
    | .error reason => ((.rejected reason, []), s)
  | .size => ((.number s.values.length, []), s)
  | .isEmpty => ((.truth s.values.isEmpty, []), s)
  | .capacity => ((.number s.capacity.val, []), s)
  | .capacityMax => ((.number maxCapacity, []), s)

/-- What the commands of a list answer and let go of, and the list left in the end. -/
def run (s : BoundedList α) : List (Command α) → List (Answer α × List α) × BoundedList α
  | [] => ([], s)
  | command :: commands =>
    let first := s.perform command
    let rest := first.2.run commands
    (first.1 :: rest.1, rest.2)

/-- What a request replies and lets go of, and the list it leaves. A drain without a limit gives all
values. -/
def serve (s : BoundedList α) : Queue.Request α → (Queue.Reply α × List α) × BoundedList α
  | .command command =>
    let done := s.perform command
    ((.answer done.1.1, done.1.2), done.2)
  | .drain limit =>
    let limit := limit.getD s.values.length
    ((.drained s.sizeHint (s.front limit), []), s.drop limit)

/-- What the requests of a list reply and let go of, and the list left in the end. -/
def serveAll (s : BoundedList α) :
    List (Queue.Request α) → List (Queue.Reply α × List α) × BoundedList α
  | [] => ([], s)
  | request :: requests =>
    let first := s.serve request
    let rest := first.2.serveAll requests
    (first.1 :: rest.1, rest.2)

end BoundedList

/-- The relation is kept by all calls on a queue of the kind `Q`, and related queues and lists
answer alike. -/
structure Realizes {Q : Type → Type} [BoundedQueue Q] (R : Q α → BoundedList α → Prop) : Prop where
  capacity : ∀ {q s}, R q s → BoundedQueue.capacity q = s.capacity.val
  capacityMax : ∀ {q s}, R q s → BoundedQueue.capacityMax q = maxCapacity
  size : ∀ {q s}, R q s → BoundedQueue.size q = s.values.length
  tryEnqueue : ∀ {q s} v, R q s → ∃ q', R q' (s.push v).2 ∧
    BoundedQueue.tryEnqueue q v = .ok (if (s.push v).1 then .ok () else .error ⟨v⟩, q')
  dequeue : ∀ {q s}, R q s → ∃ q', R q' (s.drop 1) ∧
    BoundedQueue.dequeue q = .ok (s.values.head?, q')
  clear : ∀ {q s}, R q s → ∃ q' events, R q' (.empty s.capacity) ∧
    BoundedQueue.clear q = .ok (⟨(), s.values, events⟩, q')
  setCapacity_ok : ∀ {q s requested c}, R q s → Capacity.ofNat? requested = .ok c →
    ∃ q' events, R q' (.empty c) ∧
      BoundedQueue.setCapacity q requested = .ok (⟨.ok (), s.values, events⟩, q')
  setCapacity_error : ∀ {q s requested reason}, R q s →
    Capacity.ofNat? requested = .error reason → ∃ q', R q' s ∧
      BoundedQueue.setCapacity q requested = .ok (.quiet (.error reason), q')

namespace Realizes

variable {Q : Type → Type} [BoundedQueue Q] {R : Q α → BoundedList α → Prop} {q : Q α}
  {s : BoundedList α}

theorem isEmpty (hR : Realizes R) (h : R q s) : BoundedQueue.isEmpty q = s.values.isEmpty := by
  rw [BoundedQueue.isEmpty, hR.size h]
  cases s.values <;> rfl

theorem enqueue (hR : Realizes R) (h : R q s) (v : α) : ∃ q', R q' (s.push v).2 ∧
    BoundedQueue.enqueue q v =
      .ok (if (s.push v).1 then .quiet true else ⟨false, [v], []⟩, q') := by
  obtain ⟨q', hq', heq⟩ := hR.tryEnqueue v h
  refine ⟨q', hq', ?_⟩
  rw [BoundedQueue.enqueue, heq]
  cases (s.push v).1 <;> rfl

theorem perform_enqueue (hR : Realizes R) (h : R q s) (v : α) :
    ∃ outcome q', BoundedQueue.perform q (.enqueue v) = .ok (outcome, q') ∧
      outcome.seen = (s.perform (.enqueue v)).1 ∧ R q' (s.perform (.enqueue v)).2 := by
  obtain ⟨q', hq', heq⟩ := hR.enqueue h v
  rw [BoundedQueue.perform, heq, BoundedList.perform]
  generalize s.push v = pushed at hq' ⊢
  obtain ⟨room, s'⟩ := pushed
  cases room with
  | true => exact ⟨_, q', rfl, rfl, hq'⟩
  | false => exact ⟨_, q', rfl, rfl, hq'⟩

/-- Every command on a queue shows what it shows on a related list. -/
theorem perform (hR : Realizes R) (h : R q s) (command : Command α) :
    ∃ outcome q', BoundedQueue.perform q command = .ok (outcome, q') ∧
      outcome.seen = (s.perform command).1 ∧ R q' (s.perform command).2 := by
  cases command with
  | tryEnqueue v =>
    obtain ⟨q', hq', heq⟩ := hR.tryEnqueue v h
    rw [BoundedQueue.perform, heq, BoundedList.perform]
    generalize s.push v = pushed at hq' ⊢
    obtain ⟨room, s'⟩ := pushed
    cases room with
    | true => exact ⟨_, q', rfl, rfl, hq'⟩
    | false => exact ⟨_, q', rfl, rfl, hq'⟩
  | enqueue v => exact hR.perform_enqueue h v
  | enqueueCloned v => exact hR.perform_enqueue h v
  | dequeue =>
    obtain ⟨q', hq', heq⟩ := hR.dequeue h
    rw [BoundedQueue.perform, heq]
    exact ⟨_, q', rfl, rfl, hq'⟩
  | clear =>
    obtain ⟨q', events, hq', heq⟩ := hR.clear h
    rw [BoundedQueue.perform, heq]
    exact ⟨_, q', rfl, rfl, hq'⟩
  | setCapacity requested =>
    rw [BoundedQueue.perform, BoundedList.perform]
    cases hc : Capacity.ofNat? requested with
    | ok c =>
      obtain ⟨q', events, hq', heq⟩ := hR.setCapacity_ok h hc
      rw [heq]
      exact ⟨_, q', rfl, rfl, hq'⟩
    | error reason =>
      obtain ⟨q', hq', heq⟩ := hR.setCapacity_error h hc
      rw [heq]
      exact ⟨_, q', rfl, rfl, hq'⟩
  | size => exact ⟨_, q, rfl, by rw [hR.size h]; rfl, h⟩
  | isEmpty => exact ⟨_, q, rfl, by rw [hR.isEmpty h]; rfl, h⟩
  | capacity => exact ⟨_, q, rfl, by rw [hR.capacity h]; rfl, h⟩
  | capacityMax => exact ⟨_, q, rfl, by rw [hR.capacityMax h]; rfl, h⟩

/-- So does every run. -/
theorem run (hR : Realizes R) (h : R q s) (commands : List (Command α)) :
    ∃ outcomes q', BoundedQueue.run q commands = .ok (outcomes, q') ∧
      outcomes.map Outcome.seen = (s.run commands).1 ∧ R q' (s.run commands).2 := by
  induction commands generalizing q s with
  | nil => exact ⟨[], q, rfl, rfl, h⟩
  | cons command commands ih =>
    obtain ⟨outcome, q₁, hperform, hseen, h₁⟩ := hR.perform h command
    obtain ⟨outcomes, q₂, hrun, hrest, h₂⟩ := ih h₁
    refine ⟨outcome :: outcomes, q₂, ?_, ?_, h₂⟩
    · rw [BoundedQueue.run, hperform]
      simp only [bind, Except.bind, hrun]
      rfl
    · rw [List.map_cons, hseen, hrest]
      rfl

/-- Two queues that are related to the same list, of one kind or of two, show the same in every run,
which is what the list shows, and end related to the same list. -/
theorem run_alike {Q' : Type → Type} [BoundedQueue Q'] {R' : Q' α → BoundedList α → Prop}
    {l : Q' α} (hR : Realizes R) (hR' : Realizes R') (h : R q s) (h' : R' l s)
    (commands : List (Command α)) :
    ∃ outcomes outcomes' q' l', BoundedQueue.run q commands = .ok (outcomes, q') ∧
      BoundedQueue.run l commands = .ok (outcomes', l') ∧
      outcomes.map Outcome.seen = outcomes'.map Outcome.seen ∧
      outcomes'.map Outcome.seen = (s.run commands).1 ∧
      R q' (s.run commands).2 ∧ R' l' (s.run commands).2 := by
  obtain ⟨outcomes, q', hrun, hseen, hq'⟩ := hR.run h commands
  obtain ⟨outcomes', l', hrun', hseen', hl'⟩ := hR'.run h' commands
  exact ⟨outcomes, outcomes', q', l', hrun, hrun', hseen.trans hseen'.symm, hseen', hq', hl'⟩

end Realizes

end CircularQueue
