import CircularQueue.Proofs.Queue.Reference
import CircularQueue.Proofs.Ring.Contents
import CircularQueue.Queue.Residents
import Mathlib.Data.List.Range

/-!
# Who owns a slot

Every slot number is in exactly one of the two rings of a queue. The slots of the numbers in `free`
hold nothing, and those of the numbers in `allocated` hold the values of the queue, in the same
order. A call moves one number from one ring to the other and keeps this; draining repeats such
calls, and clearing or resizing starts over with all numbers in `free`. So no number is handed out
twice or lost, and a queue answers every request as its bounded list does.
-/

namespace CircularQueue.Queue

variable {α : Type}

/-! Slots, read through the option that says whether there is a value. -/

theorem join_getElem?_replicate (n i : Nat) :
    (Vector.replicate n (none : Option α))[i]?.join = none := by
  rw [Vector.getElem?_replicate]
  split <;> rfl

theorem store_eq {n : Nat} {slots : Vector (Option α) n} {i : Nat} (hi : i < n)
    (hvacant : slots[i]?.join = none) (v : α) :
    ∃ slots', store slots i v = .ok slots' ∧
      ∀ j, slots'[j]?.join = if j = i then some v else slots[j]?.join := by
  have hslot : slots[i] = none := by simpa [hi] using hvacant
  have hget : slots.get ⟨i, hi⟩ = none := hslot
  refine ⟨slots.set i (some v) hi, ?_, ?_⟩
  · rw [store, dif_pos hi, hget]
    rfl
  · intro j
    by_cases hj : j = i
    · rw [if_pos hj, hj, Vector.getElem?_set_self]
      rfl
    · rw [if_neg hj, Vector.getElem?_set_ne _ (Ne.symm hj)]

theorem load_eq {n : Nat} {slots : Vector (Option α) n} {i : Nat} {v : α}
    (hvalue : slots[i]?.join = some v) :
    ∃ slots', load slots i = .ok (v, slots') ∧
      ∀ j, slots'[j]?.join = if j = i then none else slots[j]?.join := by
  have hslot : slots[i]? = some (some v) := Option.join_eq_some_iff.1 hvalue
  obtain ⟨hi, hslot⟩ := Vector.getElem?_eq_some_iff.1 hslot
  have hget : slots.get ⟨i, hi⟩ = some v := hslot
  refine ⟨slots.set i none hi, ?_, ?_⟩
  · rw [load, dif_pos hi, hget]
  · intro j
    by_cases hj : j = i
    · rw [if_pos hj, hj, Vector.getElem?_set_self]
      rfl
    · rw [if_neg hj, Vector.getElem?_set_ne _ (Ne.symm hj)]

theorem map_eq_of_update {f f' : Nat → Option α} {i : Nat} {x : Option α}
    (h : ∀ j, f' j = if j = i then x else f j) {is : List Nat} (hi : i ∉ is) :
    is.map f' = is.map f := by
  apply List.map_congr_left
  intro j hj
  have hne : j ≠ i := fun heq => hi (heq ▸ hj)
  rw [h, if_neg hne]

theorem announce_eq {k : Order} {r : Ring k} {is : List Nat} (h : r.Holds is) {i : Nat}
    (hi : i < k.capacity) (hlen : is.length < k.cellCount) :
    ∃ r', announce r i = .ok r' ∧ r'.Holds (is ++ [i]) := by
  refine ⟨r.publish r.tail i false, ?_, h.publish_tail hi hlen⟩
  rw [announce, h.enqueue_eq hi hlen]

/-- The slot numbers in `spare` are free and those in `taken` are allocated. Each slot has its
number in one of them, once, and the taken slots, and no others, hold the values `vs`. -/
structure Owned (q : Queue α) (spare taken : List Nat) (vs : List α) : Prop where
  free : q.free.Holds spare
  allocated : q.allocated.Holds taken
  perm : (spare ++ taken).Perm (List.range q.capacity.val)
  isSome_iff : ∀ i, (q.valueAt i).isSome ↔ i ∈ taken
  values : taken.map q.valueAt = vs.map some

namespace Owned

variable {q : Queue α} {spare taken : List Nat} {vs : List α}

theorem nodup (h : q.Owned spare taken vs) : (spare ++ taken).Nodup :=
  h.perm.nodup_iff.2 List.nodup_range

theorem lt_capacity (h : q.Owned spare taken vs) {i : Nat} (hi : i ∈ spare ++ taken) :
    i < q.capacity.val :=
  List.mem_range.1 (h.perm.mem_iff.1 hi)

theorem lt_order (h : q.Owned spare taken vs) {i : Nat} (hi : i ∈ spare ++ taken) :
    i < q.capacity.order.capacity :=
  Nat.lt_of_lt_of_le (h.lt_capacity hi) q.capacity.val_le_capacity_order

theorem length_eq (h : q.Owned spare taken vs) : spare.length + taken.length = q.capacity.val := by
  rw [← List.length_append, h.perm.length_eq, List.length_range]

theorem length_lt (h : q.Owned spare taken vs) :
    spare.length + taken.length < q.capacity.order.cellCount := by
  have hle := q.capacity.val_le_capacity_order
  have hlt := q.capacity.order.capacity_lt_cellCount
  rw [h.length_eq]
  omega

theorem length_values (h : q.Owned spare taken vs) : vs.length = taken.length := by
  have hlen := congrArg List.length h.values
  rwa [List.length_map, List.length_map, eq_comm] at hlen

theorem size_eq (h : q.Owned spare taken vs) : q.size = vs.length := by
  have hlen := h.length_eq
  rw [size, h.allocated.distance_eq, h.length_values]
  omega

theorem spare_eq_nil_iff (h : q.Owned spare taken vs) :
    spare = [] ↔ vs.length = q.capacity.val := by
  have hlen := h.length_eq
  rw [← List.length_eq_zero_iff, h.length_values]
  omega

/-- A number moves from the spare ones to the taken ones, with a value in its slot. -/
theorem tryEnqueue_cons {i : Nat} (h : q.Owned (i :: spare) taken vs) (v : α) :
    ∃ q', q.tryEnqueue v = .ok (.ok (), q') ∧ q'.Owned spare (taken ++ [i]) (vs ++ [v]) ∧
      q'.capacity = q.capacity := by
  have hlen := h.length_lt
  have hnodup := h.nodup
  have hmem : i ∈ i :: spare ++ taken := List.mem_cons_self
  -- The number is in `spare`, so it is not in `taken` as well and its slot holds nothing.
  have hfresh : i ∉ taken := fun hi =>
    (List.nodup_cons.1 hnodup).1 (List.mem_append_right spare hi)
  have hi := h.lt_capacity hmem
  have horder := h.lt_order hmem
  have hvacant : q.valueAt i = none := by
    rw [← Option.not_isSome_iff_eq_none, h.isSome_iff]
    exact hfresh
  obtain ⟨hfree, halloc, hperm, hsome, hvalues⟩ := h
  obtain ⟨capacity, free, allocated, slots⟩ := q
  obtain ⟨free', hdequeue, hfree'⟩ := hfree.dequeue_eq
  obtain ⟨slots', hstore, hslots'⟩ := store_eq hi hvacant v
  rw [List.length_cons] at hlen
  obtain ⟨allocated', hannounce, halloc'⟩ := announce_eq halloc horder (by omega)
  refine ⟨⟨capacity, free', allocated', slots'⟩, ?_, ⟨hfree', halloc', ?_, ?_, ?_⟩, rfl⟩
  · simp only [tryEnqueue, hdequeue, List.head?_cons, hstore, hannounce, bind, Except.bind]
    rfl
  · rw [← List.append_assoc]
    exact (List.perm_append_singleton i (spare ++ taken)).trans hperm
  · intro j
    have hold : (slots[j]?.join).isSome ↔ j ∈ taken := hsome j
    rw [valueAt, hslots', List.mem_append, List.mem_singleton]
    by_cases hj : j = i
    · simp [hj]
    · rw [if_neg hj, hold, or_iff_left hj]
  · have hold := (map_eq_of_update hslots' hfresh).trans hvalues
    have hnew : slots'[i]?.join = some v := by rw [hslots', if_pos rfl]
    rw [List.map_append, List.map_append, ← hold, List.map_singleton, List.map_singleton, ← hnew]
    rfl

theorem tryEnqueue_nil (h : q.Owned [] taken vs) (v : α) :
    ∃ q', q.tryEnqueue v = .ok (.error ⟨v⟩, q') ∧ q'.Owned [] taken vs ∧
      q'.capacity = q.capacity := by
  obtain ⟨hfree, halloc, hperm, hsome, hvalues⟩ := h
  obtain ⟨capacity, free, allocated, slots⟩ := q
  obtain ⟨free', hdequeue, hfree'⟩ := hfree.dequeue_eq
  refine ⟨⟨capacity, free', allocated, slots⟩, ?_, ⟨hfree', halloc, hperm, hsome, hvalues⟩, rfl⟩
  simp only [tryEnqueue, hdequeue, List.head?_nil]

/-- A number moves from the taken ones to the spare ones, and the value out of its slot. -/
theorem dequeue_cons {i : Nat} {v : α} (h : q.Owned spare (i :: taken) (v :: vs)) :
    ∃ q', q.dequeue = .ok (some v, q') ∧ q'.Owned (spare ++ [i]) taken vs ∧
      q'.capacity = q.capacity := by
  have hlen := h.length_lt
  have hmem : i ∈ spare ++ i :: taken := List.mem_append_right spare List.mem_cons_self
  have hfresh : i ∉ taken := (List.nodup_cons.1 (List.nodup_append.1 h.nodup).2.1).1
  have horder := h.lt_order hmem
  obtain ⟨hfree, halloc, hperm, hsome, hvalues⟩ := h
  obtain ⟨capacity, free, allocated, slots⟩ := q
  rw [List.map_cons, List.map_cons, List.cons_eq_cons] at hvalues
  obtain ⟨hvalue, hrest⟩ := hvalues
  obtain ⟨allocated', hdequeue, halloc'⟩ := halloc.dequeue_eq
  obtain ⟨slots', hload, hslots'⟩ := load_eq hvalue
  rw [List.length_cons] at hlen
  obtain ⟨free', hannounce, hfree'⟩ := announce_eq hfree horder (by omega)
  refine ⟨⟨capacity, free', allocated', slots'⟩, ?_, ⟨hfree', halloc', ?_, ?_, ?_⟩, rfl⟩
  · simp only [dequeue, hdequeue, List.head?_cons, hload, hannounce, bind, Except.bind]
    rfl
  · rw [List.append_assoc]
    exact hperm
  · intro j
    have hold : (slots[j]?.join).isSome ↔ j ∈ i :: taken := hsome j
    rw [valueAt, hslots']
    by_cases hj : j = i
    · simp [hj, hfresh]
    · rw [if_neg hj, hold, List.mem_cons, or_iff_right hj]
  · exact (map_eq_of_update hslots' hfresh).trans hrest

theorem dequeue_nil (h : q.Owned spare [] vs) :
    ∃ q', q.dequeue = .ok (none, q') ∧ q'.Owned spare [] vs ∧ q'.capacity = q.capacity := by
  obtain ⟨hfree, halloc, hperm, hsome, hvalues⟩ := h
  obtain ⟨capacity, free, allocated, slots⟩ := q
  obtain ⟨allocated', hdequeue, halloc'⟩ := halloc.dequeue_eq
  refine ⟨⟨capacity, free, allocated', slots⟩, ?_, ⟨hfree, halloc', hperm, hsome, hvalues⟩, rfl⟩
  simp only [dequeue, hdequeue, List.head?_nil]

end Owned

/-- The queue keeps the values of the list, in slots that it owns. -/
def Keeps (q : Queue α) (s : BoundedList α) : Prop :=
  q.capacity = s.capacity ∧ ∃ spare taken, q.Owned spare taken s.values

namespace Keeps

variable {q : Queue α} {s : BoundedList α}

theorem size_eq (h : q.Keeps s) : q.size = s.values.length := by
  obtain ⟨-, spare, taken, howned⟩ := h
  exact howned.size_eq

theorem sizeHint_eq (h : q.Keeps s) : q.sizeHint = s.sizeHint := by
  rw [sizeHint, h.size_eq]
  rfl

theorem length_le (h : q.Keeps s) : s.values.length ≤ s.capacity.val := by
  obtain ⟨hcapacity, spare, taken, howned⟩ := h
  have hlen := howned.length_eq
  rw [← hcapacity, howned.length_values]
  omega

theorem tryEnqueue (h : q.Keeps s) (v : α) :
    ∃ q', q'.Keeps (s.push v).2 ∧
      q.tryEnqueue v = .ok (if (s.push v).1 then .ok () else .error ⟨v⟩, q') := by
  obtain ⟨hcapacity, spare, taken, howned⟩ := h
  have hfull := howned.spare_eq_nil_iff
  have hlen := howned.length_eq
  rw [← howned.length_values] at hlen
  rw [hcapacity] at hfull hlen
  cases spare with
  | nil =>
    obtain ⟨q', heq, howned', hcapacity'⟩ := howned.tryEnqueue_nil v
    have hfull := hfull.1 rfl
    rw [BoundedList.push, if_neg (by omega)]
    exact ⟨q', ⟨hcapacity'.trans hcapacity, [], taken, howned'⟩, heq⟩
  | cons i spare =>
    obtain ⟨q', heq, howned', hcapacity'⟩ := howned.tryEnqueue_cons v
    rw [List.length_cons] at hlen
    rw [BoundedList.push, if_pos (by omega)]
    exact ⟨q', ⟨hcapacity'.trans hcapacity, spare, taken ++ [i], howned'⟩, heq⟩

theorem dequeue (h : q.Keeps s) :
    ∃ q', q'.Keeps (s.drop 1) ∧ q.dequeue = .ok (s.values.head?, q') := by
  obtain ⟨hcapacity, spare, taken, howned⟩ := h
  obtain ⟨capacity, vs⟩ := s
  cases taken with
  | nil =>
    obtain ⟨q', heq, howned', hcapacity'⟩ := howned.dequeue_nil
    have hvs : vs = [] := List.length_eq_zero_iff.1 howned.length_values
    subst hvs
    exact ⟨q', ⟨hcapacity'.trans hcapacity, spare, [], howned'⟩, heq⟩
  | cons i taken =>
    cases vs with
    | nil => exact absurd howned.length_values (by simp)
    | cons v vs =>
      obtain ⟨q', heq, howned', hcapacity'⟩ := howned.dequeue_cons
      exact ⟨q', ⟨hcapacity'.trans hcapacity, spare ++ [i], taken, howned'⟩, heq⟩

/-- A drain gives the oldest values, up to the limit, and keeps the others. -/
theorem takeValues (h : q.Keeps s) (given : List (α × SizeHint)) (limit : Nat) :
    ∃ q', q'.Keeps (s.drop limit) ∧
      q.takeValues given limit = .ok ((s.front limit).reverse ++ given, q') := by
  induction limit generalizing q s given with
  | zero => exact ⟨q, h, rfl⟩
  | succ limit ih =>
    obtain ⟨q₁, h₁, hdequeue⟩ := h.dequeue
    obtain ⟨capacity, vs⟩ := s
    rw [Queue.takeValues, hdequeue]
    cases vs with
    | nil => exact ⟨q₁, h₁, rfl⟩
    | cons v vs =>
      obtain ⟨q₂, h₂, htake⟩ := ih h₁ ((v, q₁.sizeHint) :: given)
      have hhint : q₁.sizeHint = BoundedList.sizeHint ⟨capacity, vs⟩ := h₁.sizeHint_eq
      rw [BoundedList.front, List.reverse_cons, List.append_assoc, List.singleton_append, ← hhint]
      exact ⟨q₂, h₂, htake⟩

theorem drainUpTo (h : q.Keeps s) (limit : Nat) :
    ∃ q', q'.Keeps (s.drop limit) ∧ q.drainUpTo limit = .ok (s.front limit, q') := by
  obtain ⟨q', h', heq⟩ := h.takeValues [] limit
  refine ⟨q', h', ?_⟩
  rw [Queue.drainUpTo, heq]
  simp

/-- A drain that is run to the end gives all values. -/
theorem drain (h : q.Keeps s) :
    ∃ q', q'.Keeps (.empty s.capacity) ∧ q.drain = .ok (s.front s.values.length, q') := by
  have hlen := h.length_le
  obtain ⟨q', h', heq⟩ := h.drainUpTo (q.capacity.val + 1)
  rw [h.1] at heq h'
  rw [BoundedList.front_of_length_le (by omega)] at heq
  rw [BoundedList.drop_of_length_le (by omega)] at h'
  rw [Queue.drain, h.1]
  exact ⟨q', h', heq⟩

end Keeps

/-! A queue that starts over. -/

/-- A new queue has the numbers of all its slots to spare. -/
theorem keeps_cold (c : Capacity) : (cold c : Queue α).Keeps (.empty c) := by
  have hfree :=
    Ring.holds_fillRange (Ring.empty c.order) (Nat.zero_le c.val) c.val_le_capacity_order
  rw [Nat.sub_zero, ← List.range_eq_range'] at hfree
  have hvacant : ∀ i, (cold c : Queue α).valueAt i = none := join_getElem?_replicate c.val
  refine ⟨rfl, List.range c.val, [], hfree, Ring.holds_empty _, ?_, fun i => ?_, rfl⟩
  · rw [List.append_nil]
    exact List.Perm.refl _
  · simp [hvacant i]

namespace Keeps

variable {q : Queue α} {c : Capacity}

theorem valueAt_eq_none (h : q.Keeps (.empty c)) (i : Nat) : q.valueAt i = none := by
  obtain ⟨-, spare, taken, howned⟩ := h
  have htaken : taken = [] := List.length_eq_zero_iff.1 howned.length_values.symm
  rw [← Option.not_isSome_iff_eq_none, howned.isSome_iff, htaken]
  exact List.not_mem_nil

theorem slots_eq_replicate (h : q.Keeps (.empty c)) :
    q.slots = Vector.replicate q.capacity.val none := by
  apply Vector.ext
  intro i hi
  have hvacant := h.valueAt_eq_none i
  simpa [valueAt, hi] using hvacant

/-- A queue without values that starts over is a new one. Its rings are written anew, and its slots
are vacant whether it keeps them or not. -/
theorem restarted_eq_cold (h : q.Keeps (.empty c)) (c' : Capacity) : q.restarted c' = cold c' := by
  have hslots := h.slots_eq_replicate
  obtain ⟨capacity, free, allocated, slots⟩ := q
  have hslots : slots = Vector.replicate capacity.val none := hslots
  subst hslots
  -- The slots that are kept are as vacant as those made anew.
  have hvacant : (if h : capacity = c' then h ▸ Vector.replicate capacity.val (none : Option α)
      else Vector.replicate c'.val none) = Vector.replicate c'.val none := by
    split
    · rename_i hc
      subst hc
      rfl
    · rfl
  simp only [restarted, cold, allFree, Ring.reset_eq_empty, hvacant]

end Keeps

end CircularQueue.Queue
