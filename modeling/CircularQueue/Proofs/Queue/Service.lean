import CircularQueue.Proofs.Queue.Ownership

/-!
# Requests to a queue in slots

A queue that owns its slots answers a request, keeps the values that its bounded list keeps, and
owns its slots again. So every request is answered, in a run of any length, and none meets a slot
number out of range, a slot in the wrong state or a ring that refuses a number.
-/

namespace CircularQueue.Queue

variable {α : Type} {q : Queue α} {s : BoundedList α}

namespace Keeps

/-- A cleared queue is a new one. -/
theorem clear (h : q.Keeps s) :
    q.clear = .ok (⟨(), s.values, [.cleared s.values.length]⟩, cold s.capacity) := by
  obtain ⟨q', h', hdrain⟩ := h.drain
  have hcapacity : q'.capacity = s.capacity := h'.1
  rw [Queue.clear, hdrain]
  simp only [bind, Except.bind, s.map_fst_front, s.length_front, h'.restarted_eq_cold, hcapacity]
  rfl

/-- So is one whose capacity was changed. -/
theorem setCapacity_ok (h : q.Keeps s) {requested : Nat} {c : Capacity}
    (hc : Capacity.ofNat? requested = .ok c) :
    q.setCapacity requested =
      .ok (⟨.ok (), s.values, [.resizing s.capacity.val c.val]⟩, cold c) := by
  obtain ⟨q', h', hdrain⟩ := h.drain
  have hcapacity : q'.capacity = s.capacity := h'.1
  rw [Queue.setCapacity, hc]
  simp only [hdrain, bind, Except.bind, s.map_fst_front, h'.restarted_eq_cold, hcapacity]
  rfl

theorem setCapacity_error {requested : Nat} {reason : CapacityError}
    (hreason : Capacity.ofNat? requested = .error reason) :
    q.setCapacity requested = .ok (.quiet (.error reason), q) := by
  rw [Queue.setCapacity, hreason]

end Keeps

/-- Queues in slots realize bounded lists. -/
theorem realizes_keeps : Realizes (Keeps : Queue α → BoundedList α → Prop) where
  capacity := fun h => congrArg Capacity.val h.1
  capacityMax := fun _ => rfl
  size := fun h => h.size_eq
  tryEnqueue := fun v h => h.tryEnqueue v
  dequeue := fun h => h.dequeue
  clear := fun h => ⟨_, _, keeps_cold _, h.clear⟩
  setCapacity_ok := fun h hc => ⟨_, _, keeps_cold _, h.setCapacity_ok hc⟩
  setCapacity_error := fun h hreason => ⟨_, h, Keeps.setCapacity_error hreason⟩

/-- Every request is answered as on a bounded list. -/
theorem Keeps.serve (h : q.Keeps s) (request : Request α) :
    ∃ outcome q', q.serve request = .ok (outcome, q') ∧ outcome.seen = (s.serve request).1 ∧
      q'.Keeps (s.serve request).2 := by
  cases request with
  | command command =>
    obtain ⟨outcome, q', hperform, hseen, h'⟩ := realizes_keeps.perform h command
    refine ⟨outcome.withAnswer (.answer outcome.answer), q', ?_, ?_, h'⟩
    · rw [Queue.serve, hperform]
      rfl
    · simp only [BoundedList.serve, ← hseen]
      rfl
  | drain limit =>
    have hhint := h.sizeHint_eq
    cases limit with
    | none =>
      obtain ⟨q', h', hdrain⟩ := h.drain
      rw [← BoundedList.drop_of_length_le (Nat.le_refl s.values.length)] at h'
      refine ⟨.quiet (.drained s.sizeHint (s.front s.values.length)), q', ?_, rfl, h'⟩
      simp only [Queue.serve, hdrain, hhint, bind, Except.bind]
      rfl
    | some limit =>
      obtain ⟨q', h', hdrain⟩ := h.drainUpTo limit
      refine ⟨.quiet (.drained s.sizeHint (s.front limit)), q', ?_, rfl, h'⟩
      simp only [Queue.serve, hdrain, hhint, bind, Except.bind]
      rfl

/-- So is every list of requests. -/
theorem Keeps.serveAll (h : q.Keeps s) (requests : List (Request α)) :
    ∃ outcomes q', q.serveAll requests = .ok (outcomes, q') ∧
      outcomes.map Outcome.seen = (s.serveAll requests).1 ∧
      q'.Keeps (s.serveAll requests).2 := by
  induction requests generalizing q s with
  | nil => exact ⟨[], q, rfl, rfl, h⟩
  | cons request requests ih =>
    obtain ⟨outcome, q₁, hserve, hseen, h₁⟩ := h.serve request
    obtain ⟨outcomes, q₂, hrun, hrest, h₂⟩ := ih h₁
    refine ⟨outcome :: outcomes, q₂, ?_, ?_, h₂⟩
    · rw [Queue.serveAll, hserve]
      simp only [bind, Except.bind, hrun]
      rfl
    · rw [List.map_cons, hseen, hrest]
      rfl

/-- Requests and a release are made one after the other. -/
theorem serveAndRelease_of_serveAll {requests : List (Request α)}
    {outcomes : List (Outcome α (Reply α))} {q' : Queue α} {last : Outcome α Unit}
    (hserve : q.serveAll requests = .ok (outcomes, q')) (hrelease : q'.release = .ok last) :
    q.serveAndRelease requests = .ok (outcomes, last) := by
  rw [serveAndRelease, hserve]
  simp only [bind, Except.bind, hrelease]
  rfl

/-! Queues as they are made. -/

theorem tryCold_val (c : Capacity) :
    (tryCold c.val : Except CapacityError (Outcome α Unit × Queue α)) = .ok (created c) := by
  rw [tryCold, Capacity.ofNat?_val]

theorem tryNew_val (c : Capacity) :
    (tryNew c.val : Except CapacityError (Outcome α Unit × Queue α)) = .ok (created c) := by
  rw [tryNew, tryCold_val]
  exact congrArg (fun q => Except.ok (_, q)) (warm_cold c)

/-- The queue was made for the capacity `c`, in one of the four ways there are. -/
def MadeFor (q : Queue α) (c : Capacity) : Prop :=
  ∃ outcome : Outcome α Unit,
    tryCold c.val = .ok (outcome, q) ∨ tryNew c.val = .ok (outcome, q) ∨
    newCold c.val = .ok (outcome, q) ∨ new c.val = .ok (outcome, q)

theorem madeFor_cold (c : Capacity) : (cold c : Queue α).MadeFor c := ⟨_, Or.inl (tryCold_val c)⟩

theorem MadeFor.eq_cold {c : Capacity} (h : q.MadeFor c) : q = cold c := by
  obtain ⟨outcome, hmade⟩ := h
  have hcreated : created c = (outcome, q) := by
    rw [newCold, new, tryCold_val, tryNew_val] at hmade
    rcases hmade with heq | heq | heq | heq <;> exact Except.ok.inj heq
  exact (Prod.mk.inj hcreated).2.symm

theorem MadeFor.keeps {c : Capacity} (h : q.MadeFor c) : q.Keeps (.empty c) :=
  h.eq_cold ▸ keeps_cold c

/-- A new queue has all its slots to spare. -/
theorem MadeFor.owned {c : Capacity} (h : q.MadeFor c) :
    q.capacity = c ∧ ∃ spare, q.Owned spare [] [] := by
  obtain ⟨hcapacity, spare, taken, howned⟩ := h.keeps
  obtain rfl : taken = [] := List.length_eq_zero_iff.1 howned.length_values.symm
  exact ⟨hcapacity, spare, howned⟩

/-- The two rings of the queue share out its slots. Those of the allocated numbers, and no others,
hold a value, and in the order of the ring these are the values `vs`. -/
structure SharesOut (q : Queue α) (vs : List α) : Prop where
  perm : (q.free.live ++ q.allocated.live).Perm (List.range q.capacity.val)
  isSome_iff : ∀ i, (q.valueAt i).isSome ↔ i ∈ q.allocated.live
  values : q.allocated.live.map q.valueAt = vs.map some

theorem Keeps.sharesOut (h : q.Keeps s) : q.SharesOut s.values := by
  obtain ⟨-, spare, taken, howned⟩ := h
  have hspare := howned.free.live_eq
  have htaken := howned.allocated.live_eq
  constructor
  · rw [hspare, htaken]
    exact howned.perm
  · rw [htaken]
    exact howned.isSome_iff
  · rw [htaken]
    exact howned.values

/-- After any run of a queue its rings share out the slots, and the slots hold what is left in the
bounded list. No request meets a fault, neither in the run nor next: no slot number is out of range,
no value is read from a slot without one or written over another, and no ring refuses a number. -/
theorem serveAll_sharesOut {c : Capacity} {q : Queue α} (h : q.MadeFor c)
    (requests : List (Request α)) :
    ∃ outcomes q', q.serveAll requests = .ok (outcomes, q') ∧
      outcomes.map Outcome.seen = ((BoundedList.empty c).serveAll requests).1 ∧
      q'.SharesOut ((BoundedList.empty c).serveAll requests).2.values ∧
      ∀ request, ∃ outcome q'', q'.serve request = .ok (outcome, q'') := by
  obtain ⟨outcomes, q', hrun, hseen, h'⟩ := h.keeps.serveAll requests
  refine ⟨outcomes, q', hrun, hseen, h'.sharesOut, fun request => ?_⟩
  obtain ⟨outcome, q'', hserve, -, -⟩ := h'.serve request
  exact ⟨outcome, q'', hserve⟩

/-- Requests that fill a queue of three values, drain it in part, resize it and fill it again. -/
def fewRequests : List (Request Nat) :=
  [.command (.tryEnqueue 1), .command (.enqueue 2), .command (.enqueueCloned 3),
    .command (.tryEnqueue 4), .command .dequeue, .drain (some 1), .command (.enqueue 5),
    .command (.setCapacity 2), .command (.setCapacity 0), .drain none, .command (.enqueue 6),
    .command .clear, .command (.enqueue 7), .command (.enqueue 8), .command (.enqueue 9),
    .command .dequeue]

theorem serveAll_fewRequests :
    ∃ q : Queue Nat, q.MadeFor ⟨3, by decide, by decide⟩ ∧
      ∃ outcomes q', q.serveAll fewRequests = .ok (outcomes, q') ∧ q'.SharesOut [8] := by
  have hmade : (cold ⟨3, by decide, by decide⟩ : Queue Nat).MadeFor ⟨3, by decide, by decide⟩ :=
    madeFor_cold _
  obtain ⟨outcomes, q', hrun, -, hshares, -⟩ := serveAll_sharesOut hmade fewRequests
  exact ⟨_, hmade, outcomes, q', hrun, hshares⟩

end CircularQueue.Queue
