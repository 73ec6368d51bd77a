import CircularQueue.Proofs.Queue.Agreement
import CircularQueue.Proofs.Ring.Settling

/-!
# Failing calls on a queue come to rest

A call that finds a queue empty, or full, is a call to take a number from a ring that holds none. It
leaves the other ring, the slots and so the values alone, and changes that one ring only as long as
its threshold lasts, which is for half as many calls again as the ring has cells. After that the
queue stays exactly as it is. At every point on the way there is as much room in it as before.
-/

namespace CircularQueue

variable {α : Type}

namespace BoundedList

/-- A list takes as many values as it has room for, and no more. -/
theorem run_tryEnqueue (s : BoundedList α) (vs : List α) :
    (s.run (vs.map .tryEnqueue)).1.map Prod.fst =
      (vs.take (s.capacity.val - s.values.length)).map (fun _ => .admitted) ++
        (vs.drop (s.capacity.val - s.values.length)).map fun v => .refused ⟨v⟩ := by
  induction vs generalizing s with
  | nil => simp [run]
  | cons v vs ih =>
    by_cases hroom : s.values.length < s.capacity.val
    · have hpush : s.perform (.tryEnqueue v) =
          ((.admitted, []), { s with values := s.values ++ [v] }) := by
        simp only [perform, push, if_pos hroom]
      have hless : s.capacity.val - s.values.length =
          s.capacity.val - (s.values.length + 1) + 1 := by omega
      simp only [List.map_cons, run, hpush, ih, List.length_append, List.length_singleton, hless,
        List.take_succ_cons, List.drop_succ_cons, List.cons_append]
    · have hpush : s.perform (.tryEnqueue v) = ((.refused ⟨v⟩, []), s) := by
        simp only [perform, push, if_neg hroom]
      have hnone : s.capacity.val - s.values.length = 0 := by omega
      simp only [List.map_cons, run, hpush, ih, hnone, List.take_zero, List.drop_zero, List.map_nil,
        List.nil_append]

end BoundedList

namespace Queue

variable {q : Queue α} {s : BoundedList α}

/-- There is room in the queue for exactly so many values. -/
def HasRoomFor (q : Queue α) (room : Nat) : Prop :=
  ∀ vs : List α, ∃ outcomes q', BoundedQueue.run q (vs.map .tryEnqueue) = .ok (outcomes, q') ∧
    outcomes.map Outcome.answer =
      (vs.take room).map (fun _ => .admitted) ++ (vs.drop room).map fun v => .refused ⟨v⟩

theorem Keeps.hasRoomFor (h : q.Keeps s) :
    q.HasRoomFor (s.capacity.val - s.values.length) := by
  intro vs
  obtain ⟨outcomes, q', hrun, hseen, -⟩ := realizes_keeps.run h (vs.map .tryEnqueue)
  refine ⟨outcomes, q', hrun, ?_⟩
  have hanswers := congrArg (List.map Prod.fst) hseen
  rwa [List.map_map, s.run_tryEnqueue] at hanswers

/-! A call that fails works on one ring only. -/

theorem dequeue_of_none {allocated : Ring q.capacity.order}
    (h : q.allocated.dequeue = (none, allocated)) :
    q.dequeue = .ok (none, { q with allocated }) := by
  simp only [dequeue, h]

theorem tryEnqueue_of_none {free : Ring q.capacity.order} (h : q.free.dequeue = (none, free))
    (v : α) : q.tryEnqueue v = .ok (.error ⟨v⟩, { q with free }) := by
  simp only [tryEnqueue, h]

/-- The queue after `n` calls to take a value from it when it is empty. -/
def afterDequeues (q : Queue α) (n : Nat) : Queue α :=
  { q with allocated := q.allocated.afterDequeues n }

/-- The queue after `n` calls to put a value into it when it is full. -/
def afterRefusals (q : Queue α) (n : Nat) : Queue α := { q with free := q.free.afterDequeues n }

/-- The commands, made one after the other, all fail, with the given answers. At most `3 * 2 ^ k` of
them, the first ones, change the queue, where `k` is the order of its rings. None of them changes
the residents, the size or the room that is left. -/
def ComesToRest (q : Queue α) (command : Nat → Command α) (answer : Nat → Answer α) : Prop :=
  ∃ (state : Nat → Queue α) (last : Nat), state 0 = q ∧
    last ≤ 3 * 2 ^ q.capacity.order.exponent ∧
    ∀ n, BoundedQueue.perform (state n) (command n) = .ok (.quiet (answer n), state (n + 1)) ∧
      (state (n + 1) = state n ↔ last ≤ n) ∧
      (state n).residents = q.residents ∧ (state n).size = q.size ∧
      (state n).HasRoomFor (q.capacity.val - q.size)

namespace Owned

variable {spare taken : List Nat} {vs : List α}

theorem afterDequeues (h : q.Owned spare [] vs) (n : Nat) :
    (q.afterDequeues n).Owned spare [] vs :=
  ⟨h.free, h.allocated.afterDequeues n, h.perm, h.isSome_iff, h.values⟩

theorem afterRefusals (h : q.Owned [] taken vs) (n : Nat) :
    (q.afterRefusals n).Owned [] taken vs :=
  ⟨h.free.afterDequeues n, h.allocated, h.perm, h.isSome_iff, h.values⟩

end Owned

namespace Keeps

/-- Queues that keep the same values hold the same residents and have the same room. -/
theorem unchanged {q' : Queue α} (h : q.Keeps s) (h' : q'.Keeps s) :
    q'.residents = q.residents ∧ q'.size = q.size ∧
      q'.HasRoomFor (q.capacity.val - q.size) := by
  refine ⟨h'.residents_eq.trans h.residents_eq.symm, h'.size_eq.trans h.size_eq.symm, ?_⟩
  rw [h.1, h.size_eq]
  exact h'.hasRoomFor

theorem comesToRest_dequeue (h : q.Keeps ⟨q.capacity, []⟩) :
    q.ComesToRest (fun _ => .dequeue) fun _ => .removed none := by
  obtain ⟨-, spare, taken, howned⟩ := id h
  obtain rfl : taken = [] := List.length_eq_zero_iff.1 howned.length_values.symm
  have hsettles := howned.allocated.settles
  refine ⟨q.afterDequeues, _, rfl, howned.allocated.calls_left_le, fun n => ⟨?_, ?_, ?_⟩⟩
  · have hnone : BoundedQueue.dequeue (q.afterDequeues n) =
        .ok (none, q.afterDequeues (n + 1)) :=
      dequeue_of_none (hsettles.dequeue_eq n)
    rw [BoundedQueue.perform, hnone]
    rfl
  · rw [← hsettles.afterDequeues_eq_iff n]
    simp [Queue.afterDequeues]
  · exact h.unchanged ⟨rfl, spare, [], howned.afterDequeues n⟩

theorem comesToRest_tryEnqueue (h : q.Keeps ⟨q.capacity, q.residents⟩)
    (hfull : q.residents.length = q.capacity.val) (values : Nat → α) :
    q.ComesToRest (fun n => .tryEnqueue (values n)) fun n => .refused ⟨values n⟩ := by
  obtain ⟨-, spare, taken, howned⟩ := id h
  obtain rfl : spare = [] := howned.spare_eq_nil_iff.2 hfull
  have hsettles := howned.free.settles
  refine ⟨q.afterRefusals, _, rfl, howned.free.calls_left_le, fun n => ⟨?_, ?_, ?_⟩⟩
  · have hrefused : BoundedQueue.tryEnqueue (q.afterRefusals n) (values n) =
        .ok (.error ⟨values n⟩, q.afterRefusals (n + 1)) :=
      tryEnqueue_of_none (hsettles.dequeue_eq n) (values n)
    rw [BoundedQueue.perform, hrefused]
  · rw [← hsettles.afterDequeues_eq_iff n]
    simp [Queue.afterRefusals]
  · exact h.unchanged ⟨rfl, [], taken, howned.afterRefusals n⟩

end Keeps

end Queue

/-- Calls that find nothing come to rest. On a ring that one thread has brought to a state without
live indices, the first calls to take an index, one more than its threshold says, each close the
cell at the head, and all later ones change nothing. So it is on a queue after any run, when it is
empty and asked for a value, and when it is full and given one: after at most `3 * 2 ^ k` calls
nothing changes any more, where `k` is the order of its rings, and at no point have its residents,
its size or the room in it changed. -/
theorem failing_calls_rest :
    (∀ (k : Order) (r : Ring k), r.Reached → r.live = [] → r.Settles) ∧
    ∀ q : Queue α, q.Reached →
      (q.residents = [] → q.ComesToRest (fun _ => .dequeue) fun _ => .removed none) ∧
      (q.residents.length = q.capacity.val → ∀ values : Nat → α,
        q.ComesToRest (fun n => .tryEnqueue (values n)) fun n => .refused ⟨values n⟩) := by
  refine ⟨fun k r hr hlive => ?_, fun q hq => ⟨fun hempty => ?_, fun hfull values => ?_⟩⟩
  · have hholds := hr.holds
    rw [hlive] at hholds
    exact hholds.settles
  · have hkeeps := hq.keeps
    rw [hempty] at hkeeps
    exact hkeeps.comesToRest_dequeue
  · exact hq.keeps.comesToRest_tryEnqueue hfull values

/-- A ring of four cells, empty after its first index has been taken, is changed by six more calls.
So is a queue with rings of eight cells, when it is empty or full, by at most twelve. -/
theorem failing_calls_rest_smallRings :
    (∃ r : Ring .one, r.Reached ∧ r.live = [] ∧ r.threshold = 5 ∧ r.Settles) ∧
    (∃ q : Queue Nat, q.Reached ∧ q.residents = [] ∧
      q.ComesToRest (fun _ => .dequeue) fun _ => .removed none) ∧
    ∃ q : Queue Nat, q.Reached ∧ q.residents = [1, 2, 3] ∧
      q.ComesToRest (fun n => .tryEnqueue (n + 4)) fun n => .refused ⟨n + 4⟩ := by
  obtain ⟨hrings, hqueues⟩ := failing_calls_rest (α := Nat)
  refine ⟨?_, ?_, ?_⟩
  · have hmade : (Ring.empty .one).Reached := .made (Ring.withOrder_exponent .one)
    have hpublish : (Ring.empty .one).perform (.enqueue 0 false) =
        some (.accepted true, ⟨0, 1, 5, #v[4, unusedWord, unusedWord, unusedWord]⟩) := by decide
    have hpublished := hmade.called (by decide) hpublish
    have htake : (⟨0, 1, 5, #v[4, unusedWord, unusedWord, unusedWord]⟩ : Ring .one).perform
        (.dequeue false) =
          some (.taken (some 0), ⟨1, 1, 5, #v[7, unusedWord, unusedWord, unusedWord]⟩) := by decide
    have htaken := hpublished.called (by decide) htake
    exact ⟨_, htaken, by decide, rfl, hrings _ _ htaken (by decide)⟩
  · obtain ⟨q, hq, -, hresidents⟩ := Queue.exists_reached ⟨3, by decide, by decide⟩
      [.command (.enqueue 1), .command .dequeue]
    exact ⟨q, hq, hresidents, (hqueues q hq).1 hresidents⟩
  · obtain ⟨q, hq, hcapacity, hresidents⟩ := Queue.exists_reached ⟨3, by decide, by decide⟩
      [.command (.enqueue 1), .command (.enqueue 2), .command (.enqueue 3)]
    have hfull : q.residents.length = q.capacity.val := by
      rw [hresidents, hcapacity]
      rfl
    exact ⟨q, hq, hresidents, (hqueues q hq).2 hfull fun n => n + 4⟩

end CircularQueue
