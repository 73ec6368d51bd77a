import CircularQueue.Proofs.Queue.Service

/-!
# Both kinds of queue are the same to their callers

A queue behind a lock is a bounded list almost by definition, and a queue in slots keeps one in a
roundabout way. Both realize bounded lists, so in every run they show the same, up to the events,
which only one of them reports.
-/

namespace CircularQueue

variable {α : Type}

namespace LockedQueue

/-- The queue has the values of the list. -/
def Keeps (q : LockedQueue α) (s : BoundedList α) : Prop :=
  q.capacity = s.capacity ∧ q.toList = s.values

theorem underLock_eq {β : Type} (q : LockedQueue α) (f : Fifo α → β × Fifo α) :
    ∃ q', q.underLock f = ((f q.items.data).1, q') ∧ q'.capacity = q.capacity ∧
      q'.toList = (f q.items.data).2.toList :=
  ⟨_, rfl, rfl, rfl⟩

namespace Keeps

variable {q : LockedQueue α} {s : BoundedList α}

theorem tryEnqueue (h : q.Keeps s) (v : α) :
    ∃ q', q'.Keeps (s.push v).2 ∧
      q.tryEnqueue v = (if (s.push v).1 then .ok () else .error ⟨v⟩, q') := by
  obtain ⟨hcapacity, hvalues⟩ := h
  have hsize : q.items.data.size = s.values.length := by
    rw [Fifo.size_eq_length, ← hvalues]
    rfl
  obtain ⟨q', heq, hcapacity', hvalues'⟩ := underLock_eq (β := Except (Full α) Unit) q fun items =>
    if q.capacity.val ≤ items.size then (.error ⟨v⟩, items) else (.ok (), items.push v)
  refine ⟨q', ⟨?_, ?_⟩, heq.trans ?_⟩
  · rw [BoundedList.push]
    split <;> exact hcapacity'.trans hcapacity
  · rw [hvalues', hcapacity, hsize, BoundedList.push]
    by_cases hroom : s.values.length < s.capacity.val
    · rw [if_pos hroom, if_neg (Nat.not_le.2 hroom), Fifo.toList_push, ← hvalues]
      rfl
    · rw [if_neg hroom, if_pos (Nat.not_lt.1 hroom)]
      exact hvalues
  · rw [hcapacity, hsize, BoundedList.push]
    by_cases hroom : s.values.length < s.capacity.val
    · rw [if_pos hroom, if_neg (Nat.not_le.2 hroom)]
      rfl
    · rw [if_neg hroom, if_pos (Nat.not_lt.1 hroom)]
      rfl

theorem dequeue (h : q.Keeps s) :
    ∃ q', q'.Keeps (s.drop 1) ∧ q.dequeue = (s.values.head?, q') := by
  obtain ⟨hcapacity, hvalues⟩ := h
  obtain ⟨capacity, vs⟩ := s
  obtain ⟨q', heq, hcapacity', hvalues'⟩ := q.underLock_eq Fifo.pop?
  cases vs with
  | nil =>
    have hnone := Fifo.pop?_of_toList_nil hvalues
    rw [hnone] at heq hvalues'
    exact ⟨q', ⟨hcapacity'.trans hcapacity, hvalues'.trans hvalues⟩, heq⟩
  | cons v vs =>
    obtain ⟨holdest, hrest⟩ := Fifo.pop?_of_toList_cons hvalues
    rw [holdest] at heq
    exact ⟨q', ⟨hcapacity'.trans hcapacity, hvalues'.trans hrest⟩, heq⟩

theorem clear (h : q.Keeps s) : ∃ q', q'.Keeps (.empty s.capacity) ∧
    q.clear = (⟨(), s.values, []⟩, q') := by
  obtain ⟨hcapacity, hvalues⟩ := h
  refine ⟨q.clear.2, ⟨hcapacity, rfl⟩, ?_⟩
  rw [← hvalues]
  rfl

theorem setCapacity_ok (h : q.Keeps s) {requested : Nat} {c : Capacity}
    (hc : Capacity.ofNat? requested = .ok c) : ∃ q', q'.Keeps (.empty c) ∧
      q.setCapacity requested = (⟨.ok (), s.values, []⟩, q') := by
  obtain ⟨hcapacity, hvalues⟩ := h
  rw [LockedQueue.setCapacity, hc, ← hvalues]
  exact ⟨_, ⟨rfl, rfl⟩, rfl⟩

theorem setCapacity_error {requested : Nat} {reason : CapacityError}
    (hreason : Capacity.ofNat? requested = .error reason) :
    q.setCapacity requested = (.quiet (.error reason), q) := by
  rw [LockedQueue.setCapacity, hreason]

end Keeps

/-- Queues behind a lock realize bounded lists. -/
theorem realizes_keeps : Realizes (Keeps : LockedQueue α → BoundedList α → Prop) where
  capacity := fun h => congrArg Capacity.val h.1
  capacityMax := fun _ => rfl
  size := fun {q _} h => q.size_eq_length.trans (congrArg List.length h.2)
  tryEnqueue := by
    intro q s v h
    obtain ⟨q', h', heq⟩ := h.tryEnqueue v
    exact ⟨q', h', congrArg Except.ok heq⟩
  dequeue := by
    intro q s h
    obtain ⟨q', h', heq⟩ := h.dequeue
    exact ⟨q', h', congrArg Except.ok heq⟩
  clear := by
    intro q s h
    obtain ⟨q', h', heq⟩ := h.clear
    exact ⟨q', [], h', congrArg Except.ok heq⟩
  setCapacity_ok := by
    intro q s requested c h hc
    obtain ⟨q', h', heq⟩ := h.setCapacity_ok hc
    exact ⟨q', [], h', congrArg Except.ok heq⟩
  setCapacity_error := fun h hreason => ⟨_, h, congrArg Except.ok (Keeps.setCapacity_error hreason)⟩

theorem tryNew_val (c : Capacity) :
    (tryNew c.val : Except CapacityError (LockedQueue α)) = .ok (ofCapacity c) := by
  rw [tryNew, Capacity.ofNat?_val]

theorem new_val (c : Capacity) :
    (new c.val : Except Fault (LockedQueue α)) = .ok (ofCapacity c) := by
  rw [new, tryNew_val]
  rfl

theorem keeps_ofCapacity (c : Capacity) : (ofCapacity c : LockedQueue α).Keeps (.empty c) :=
  ⟨rfl, rfl⟩

/-- The queue was made for the capacity `c`, in one of the two ways there are. -/
def MadeFor (q : LockedQueue α) (c : Capacity) : Prop := tryNew c.val = .ok q ∨ new c.val = .ok q

theorem MadeFor.eq_ofCapacity {q : LockedQueue α} {c : Capacity} (h : q.MadeFor c) :
    q = ofCapacity c := by
  rw [MadeFor, new_val, tryNew_val] at h
  rcases h with heq | heq <;> exact (Except.ok.inj heq).symm

theorem MadeFor.keeps {q : LockedQueue α} {c : Capacity} (h : q.MadeFor c) : q.Keeps (.empty c) :=
  h.eq_ofCapacity ▸ keeps_ofCapacity c

end LockedQueue

/-- A value that is let go of because it is refused is one that would have been handed back. -/
theorem BoundedQueue.enqueue_refuses_iff {Q : Type → Type} [BoundedQueue Q] (q : Q α) (v : α) :
    (∃ q', enqueue q v = .ok (⟨false, [v], []⟩, q')) ↔
      ∃ q', tryEnqueue q v = .ok (.error ⟨v⟩, q') := by
  rw [enqueue]
  constructor
  · rintro ⟨q', heq⟩
    rcases hput : tryEnqueue q v with fault | ⟨_ | _, q₁⟩ <;> rw [hput] at heq <;> cases heq
    exact ⟨q', rfl⟩
  · rintro ⟨q', hput⟩
    rw [hput]
    exact ⟨q', rfl⟩

namespace Queue

variable {q : Queue α} {s : BoundedList α}

theorem Keeps.residents_eq (h : q.Keeps s) : q.residents = s.values := by
  have hvalues := h.sharesOut.values
  have hmap : (q.allocated.live.map q.valueAt).filterMap id = q.residents := by
    rw [List.filterMap_map]
    rfl
  rw [← hmap, hvalues, List.filterMap_map]
  simp

/-- The queue was made for some capacity and has then served some requests. -/
def Reached (q : Queue α) : Prop :=
  ∃ (c : Capacity) (made : Queue α) (requests : List (Request α))
      (outcomes : List (Outcome α (Reply α))),
    made.MadeFor c ∧ made.serveAll requests = .ok (outcomes, q)

/-- Such a queue keeps its residents. -/
theorem Reached.keeps (h : q.Reached) : q.Keeps ⟨q.capacity, q.residents⟩ := by
  obtain ⟨c, made, requests, outcomes, hmade, hserve⟩ := h
  obtain ⟨outcomes', q', hserve', -, h'⟩ := hmade.keeps.serveAll requests
  obtain rfl : q' = q := (Prod.mk.inj (Except.ok.inj (hserve'.symm.trans hserve))).2
  rw [h'.residents_eq, h'.1]
  exact h'

/-- Every list of requests leaves a new queue with the residents that it leaves in the list. -/
theorem exists_reached (c : Capacity) (requests : List (Request α)) :
    ∃ q : Queue α, q.Reached ∧
      q.capacity = ((BoundedList.empty c).serveAll requests).2.capacity ∧
      q.residents = ((BoundedList.empty c).serveAll requests).2.values := by
  obtain ⟨outcomes, q, hserve, -, h⟩ := (keeps_cold c).serveAll requests
  exact ⟨q, ⟨c, cold c, requests, outcomes, madeFor_cold c, hserve⟩, h.1, h.residents_eq⟩

/-- A value is refused exactly when the queue is full. -/
theorem Keeps.refuses_iff (h : q.Keeps s) (v : α) :
    (∃ q', q.tryEnqueue v = .ok (.error ⟨v⟩, q')) ↔ q.residents.length = q.capacity.val := by
  have hlen := h.length_le
  obtain ⟨q', -, heq⟩ := h.tryEnqueue v
  rw [heq, h.residents_eq, h.1, BoundedList.push]
  by_cases hroom : s.values.length < s.capacity.val
  · rw [if_pos hroom]
    constructor
    · rintro ⟨_, hrefused⟩
      cases hrefused
    · intro hfull
      exact absurd hfull hroom.ne
  · rw [if_neg hroom]
    constructor
    · intro _
      exact Nat.le_antisymm hlen (Nat.not_lt.1 hroom)
    · intro _
      exact ⟨q', rfl⟩

/-- No value is answered exactly when there is none. -/
theorem Keeps.exhausted_iff (h : q.Keeps s) :
    (∃ q', q.dequeue = .ok (none, q')) ↔ q.residents = [] := by
  obtain ⟨q', -, heq⟩ := h.dequeue
  rw [heq, h.residents_eq]
  constructor
  · rintro ⟨_, hnone⟩
    exact List.head?_eq_none_iff.1 (congrArg Prod.fst (Except.ok.inj hnone))
  · intro hnil
    rw [hnil]
    exact ⟨q', rfl⟩

end Queue

/-- A queue of either kind can be made for every capacity, in every way there is, and the two show
the same at each step of every run. After the run the queue in slots refuses a value, whichever call
appends it, exactly when it is full, and has none to give exactly when it is empty. -/
theorem queues_agree (c : Capacity) :
    ∃ (q : Queue α) (l : LockedQueue α) (outcome : Outcome α Unit),
      (Queue.new c.val = .ok (outcome, q) ∧ Queue.newCold c.val = .ok (outcome, q) ∧
        Queue.tryNew c.val = .ok (outcome, q) ∧ Queue.tryCold c.val = .ok (outcome, q)) ∧
      (LockedQueue.new c.val = .ok l ∧ LockedQueue.tryNew c.val = .ok l) ∧
      ∀ commands : List (Command α), ∃ outcomes outcomes' q' l',
        BoundedQueue.run q commands = .ok (outcomes, q') ∧
        BoundedQueue.run l commands = .ok (outcomes', l') ∧
        outcomes.map Outcome.seen = outcomes'.map Outcome.seen ∧
        (∀ v, ((∃ q'', q'.tryEnqueue v = .ok (.error ⟨v⟩, q'')) ↔
            q'.residents.length = q'.capacity.val) ∧
          ((∃ q'', BoundedQueue.enqueue q' v = .ok (⟨false, [v], []⟩, q'')) ↔
            q'.residents.length = q'.capacity.val) ∧
          ((∃ q'', BoundedQueue.enqueueCloned q' v = .ok (⟨false, [v], []⟩, q'')) ↔
            q'.residents.length = q'.capacity.val)) ∧
        ((∃ q'', q'.dequeue = .ok (none, q'')) ↔ q'.residents = []) := by
  refine ⟨.cold c, .ofCapacity c, (Queue.created c).1, ⟨?_, ?_, Queue.tryNew_val c,
    Queue.tryCold_val c⟩, ⟨LockedQueue.new_val c, LockedQueue.tryNew_val c⟩, ?_⟩
  · rw [Queue.new, Queue.tryNew_val]
    rfl
  · rw [Queue.newCold, Queue.tryCold_val]
    rfl
  · intro commands
    obtain ⟨outcomes, outcomes', q', l', hrun, hrun', hseen, -, hkeeps, -⟩ :=
      Queue.realizes_keeps.run_alike LockedQueue.realizes_keeps (Queue.keeps_cold c)
        (LockedQueue.keeps_ofCapacity c) commands
    refine ⟨outcomes, outcomes', q', l', hrun, hrun', hseen, fun v => ?_, hkeeps.exhausted_iff⟩
    have hrefuses := hkeeps.refuses_iff v
    have hletsGo := (BoundedQueue.enqueue_refuses_iff q' v).trans hrefuses
    exact ⟨hrefuses, hletsGo, hletsGo⟩

end CircularQueue
