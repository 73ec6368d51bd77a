import CircularQueue.Proofs.Queue.Ownership
import CircularQueue.Proofs.Ring.Readiness

/-!
# Queues at rest

When the threads at a queue have all returned, its rings may have gaps, closed cells and a threshold
of any height, but each slot number is in one of them. If each ring hands out what it holds, the
queue answers by its contents alone: it refuses a value if every slot holds one, and says that there
is none if no slot does.
-/

namespace CircularQueue.Queue

variable {α : Type} {q : Queue α}

/-- The rings are at rest, each slot number is live in one of them, and the slots of the allocated
numbers hold values. -/
structure AtRest (q : Queue α) : Prop where
  free : q.free.AtRest
  allocated : q.allocated.AtRest
  perm : (q.free.live ++ q.allocated.live).Perm (List.range q.capacity.val)
  isSome_iff : ∀ i, (q.valueAt i).isSome ↔ i ∈ q.allocated.live

/-- A value is refused only if as many are in the queue as it has slots, and otherwise accepted. The
answer that there is no value is given only if the queue holds none, and otherwise it is the
oldest. -/
structure Truthful (q : Queue α) : Prop where
  tryEnqueue : ∀ v, ∃ q', q.tryEnqueue v =
    .ok (if q.residents.length = q.capacity.val then .error ⟨v⟩ else .ok (), q')
  dequeue : ∃ q', q.dequeue = .ok (q.residents.head?, q')

namespace AtRest

theorem length_residents (h : q.AtRest) : q.residents.length = q.allocated.live.length := by
  rw [residents, List.length_filterMap_eq_countP, List.countP_eq_length]
  exact fun i hi => (h.isSome_iff i).2 hi

theorem residents_length_eq_iff (h : q.AtRest) :
    q.residents.length = q.capacity.val ↔ q.free.live = [] := by
  have hlen := h.perm.length_eq
  rw [List.length_append, List.length_range] at hlen
  rw [h.length_residents, ← List.length_eq_zero_iff]
  omega

theorem lt_capacity (h : q.AtRest) {i : Nat} (hi : i ∈ q.free.live ++ q.allocated.live) :
    i < q.capacity.val :=
  List.mem_range.1 (h.perm.mem_iff.1 hi)

theorem announce {k : Order} {r : Ring k} (h : r.AtRest) {i : Nat} (hi : i < k.capacity) :
    ∃ r', announce r i = .ok r' := by
  obtain ⟨r', henqueue⟩ := h.enqueue hi false
  exact ⟨r', by rw [Queue.announce, henqueue]⟩

theorem tryEnqueue (h : q.AtRest) (v : α) : ∃ q', q.tryEnqueue v =
    .ok (if q.residents.length = q.capacity.val then .error ⟨v⟩ else .ok (), q') := by
  rcases hlive : q.free.live with _ | ⟨i, is⟩
  · obtain ⟨free, hdequeue⟩ := h.free.dequeue_of_live_eq_nil hlive
    rw [if_pos (h.residents_length_eq_iff.2 hlive)]
    exact ⟨{ q with free }, by simp only [Queue.tryEnqueue, hdequeue]⟩
  · have hroom : q.residents.length ≠ q.capacity.val := by
      rw [Ne, h.residents_length_eq_iff, hlive]
      exact List.cons_ne_nil i is
    have hmem : i ∈ q.free.live := hlive ▸ List.mem_cons_self
    have hindex := h.lt_capacity (List.mem_append_left _ hmem)
    have horder := Nat.lt_of_lt_of_le hindex q.capacity.val_le_capacity_order
    have hvacant : q.valueAt i = none := by
      rw [← Option.not_isSome_iff_eq_none, h.isSome_iff]
      have hnodup := h.perm.nodup_iff.2 List.nodup_range
      exact fun htaken => (List.nodup_append.1 hnodup).2.2 i hmem i htaken rfl
    obtain ⟨free, hdequeue⟩ := h.free.dequeue_of_live_eq_cons hlive
    obtain ⟨slots, hstore, -⟩ := store_eq hindex hvacant v
    obtain ⟨allocated, hannounce⟩ := announce h.allocated horder
    refine ⟨{ q with free, allocated, slots }, ?_⟩
    rw [if_neg hroom]
    simp only [Queue.tryEnqueue, hdequeue, hstore, hannounce, bind, Except.bind]
    rfl

theorem dequeue (h : q.AtRest) : ∃ q', q.dequeue = .ok (q.residents.head?, q') := by
  rcases hlive : q.allocated.live with _ | ⟨i, is⟩
  · obtain ⟨allocated, hdequeue⟩ := h.allocated.dequeue_of_live_eq_nil hlive
    exact ⟨{ q with allocated }, by simp [Queue.dequeue, hdequeue, residents, hlive]⟩
  · have hmem : i ∈ q.allocated.live := hlive ▸ List.mem_cons_self
    have hindex := h.lt_capacity (List.mem_append_right _ hmem)
    have horder := Nat.lt_of_lt_of_le hindex q.capacity.val_le_capacity_order
    obtain ⟨v, hvalue⟩ := Option.isSome_iff_exists.1 ((h.isSome_iff i).2 hmem)
    obtain ⟨allocated, hdequeue⟩ := h.allocated.dequeue_of_live_eq_cons hlive
    obtain ⟨slots, hload, -⟩ := load_eq hvalue
    obtain ⟨free, hannounce⟩ := announce h.free horder
    refine ⟨{ q with free, allocated, slots }, ?_⟩
    rw [residents, hlive, List.filterMap_cons_some hvalue, List.head?_cons]
    simp only [Queue.dequeue, hdequeue, hload, hannounce, bind, Except.bind]
    rfl

theorem truthful (h : q.AtRest) : q.Truthful := ⟨h.tryEnqueue, h.dequeue⟩

end AtRest

end CircularQueue.Queue
