import CircularQueue.Proofs.Queue.Settling

/-!
# Draining in full or in part

A drain takes values one by one and keeps no account of its own. What it gives is nevertheless
settled before it begins: the oldest values, as many as it is let take, each with the number of
those still to come. Where it stops the queue keeps the others, in their order and with all its
room, and goes on as any queue does that holds them. A drain that is not stopped leaves none, and
further attempts find none.
-/

namespace CircularQueue

variable {α : Type}

/-- The oldest values come with their number still to come, which each of them lowers by one. -/
theorem BoundedList.front_eq_mapIdx (s : BoundedList α) (limit : Nat) :
    s.front limit =
      (s.values.take limit).mapIdx fun j v => (v, 0, some (s.values.length - (j + 1))) := by
  obtain ⟨c, vs⟩ := s
  induction limit generalizing vs with
  | zero => rfl
  | succ limit ih =>
    cases vs with
    | nil => rfl
    | cons v vs =>
      rw [front, ih, List.take_succ_cons, List.mapIdx_cons]
      simp [sizeHint]

namespace Queue

variable {q : Queue α} {s : BoundedList α}

/-- What a drain of at most `limit` values gives: the oldest residents, each with the number of
residents left after it, and a queue that holds the others and serves requests as a list of them
does. -/
structure DrainsTo (q : Queue α) (limit : Nat) (taken : List (α × SizeHint)) (rest : Queue α) :
    Prop where
  taken_eq : taken =
    (q.residents.take limit).mapIdx fun j v => (v, 0, some (q.residents.length - (j + 1)))
  residents_eq : rest.residents = q.residents.drop limit
  sizeHint_eq : rest.sizeHint = (0, some (q.residents.length - limit))
  capacity_eq : rest.capacity = q.capacity
  serves : ∀ requests, ∃ outcomes last, rest.serveAll requests = .ok (outcomes, last) ∧
    outcomes.map Outcome.seen =
      (BoundedList.serveAll ⟨q.capacity, q.residents.drop limit⟩ requests).1

/-- A queue that keeps what a list has left is what a drain leaves. -/
theorem Keeps.drainsTo (h : q.Keeps s) {limit : Nat} {rest : Queue α}
    (hrest : rest.Keeps (s.drop limit)) : q.DrainsTo limit (s.front limit) rest where
  taken_eq := by rw [s.front_eq_mapIdx, h.residents_eq]
  residents_eq := by
    rw [hrest.residents_eq, h.residents_eq]
    rfl
  sizeHint_eq := by
    rw [hrest.sizeHint_eq, h.residents_eq, ← List.length_drop]
    rfl
  capacity_eq := hrest.1.trans h.1.symm
  serves := by
    intro requests
    obtain ⟨outcomes, last, hserve, hseen, -⟩ := hrest.serveAll requests
    rw [h.residents_eq, h.1]
    exact ⟨outcomes, last, hserve, hseen⟩

/-- A drain of a queue, after any run, gives exactly what it holds, up to the limit, and leaves the
rest to be used as before. Before the first value the size hint is the number of residents. A drain
without a limit leaves an empty queue, and every further call for a value answers that there is
none. -/
theorem drains_exactly (h : q.Reached) :
    q.sizeHint = (0, some q.residents.length) ∧
    (∀ limit, ∃ taken rest, q.drainUpTo limit = .ok (taken, rest) ∧
      q.DrainsTo limit taken rest) ∧
    ∃ taken rest, q.drain = .ok (taken, rest) ∧ q.DrainsTo q.residents.length taken rest ∧
      rest.residents = [] ∧ rest.isEmpty = true ∧
      rest.ComesToRest (fun _ => .dequeue) fun _ => .removed none := by
  have hkeeps := h.keeps
  refine ⟨hkeeps.sizeHint_eq, fun limit => ?_, ?_⟩
  · obtain ⟨rest, hrest, hdrain⟩ := hkeeps.drainUpTo limit
    exact ⟨_, rest, hdrain, hkeeps.drainsTo hrest⟩
  · obtain ⟨rest, hrest, hdrain⟩ := hkeeps.drain
    have hempty : rest.Keeps ⟨rest.capacity, []⟩ := hrest.1 ▸ hrest
    have hleft : rest.Keeps (BoundedList.drop ⟨q.capacity, q.residents⟩ q.residents.length) := by
      rw [BoundedList.drop_of_length_le (Nat.le_refl _)]
      exact hrest
    refine ⟨_, rest, hdrain, hkeeps.drainsTo hleft, hrest.residents_eq, ?_,
      hempty.comesToRest_dequeue⟩
    rw [isEmpty, hrest.size_eq]
    rfl

/-- A queue that holds the values two to five is drained of two of them, or of all. -/
theorem drains_exactly_half :
    ∃ q : Queue Nat, q.Reached ∧ q.residents = [2, 3, 4, 5] ∧ q.sizeHint = (0, some 4) ∧
      (∃ rest, q.drainUpTo 2 = .ok ([(2, 0, some 3), (3, 0, some 2)], rest) ∧
        rest.residents = [4, 5] ∧ rest.sizeHint = (0, some 2)) ∧
      ∃ rest, q.drain =
          .ok ([(2, 0, some 3), (3, 0, some 2), (4, 0, some 1), (5, 0, some 0)], rest) ∧
        rest.residents = [] := by
  obtain ⟨q, hq, -, hresidents⟩ := exists_reached ⟨4, by decide, by decide⟩
    [.command (.enqueue 1), .command (.enqueue 2), .command (.enqueue 3), .drain (some 1),
      .command (.enqueue 4), .command (.enqueue 5), .command (.enqueue 6)]
  have hfour : q.residents = [2, 3, 4, 5] := hresidents
  obtain ⟨hhint, hlimit, taken, rest, hdrain, hall, hnone, -⟩ := drains_exactly hq
  obtain ⟨taken', rest', hdrain', hhalf⟩ := hlimit 2
  rw [hfour] at hhint
  refine ⟨q, hq, hfour, hhint, ⟨rest', ?_, ?_, ?_⟩, rest, ?_, hnone⟩
  · rw [hdrain', hhalf.taken_eq, hfour]
    rfl
  · rw [hhalf.residents_eq, hfour]
    rfl
  · rw [hhalf.sizeHint_eq, hfour]
    rfl
  · rw [hdrain, hall.taken_eq, hfour]
    rfl

end Queue

end CircularQueue
