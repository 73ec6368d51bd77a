import CircularQueue.Proofs.Ring.Contents

/-!
# A ring used by one thread is first in, first out

The calls of a ring are also calls on a plain list of indices: `enqueue` appends, `dequeue` removes
the first one, `fill` and `clear` start over. As long as no index is published while every cell
holds one, the ring answers each call as the list does, and goes on doing so however long the run
is. Nothing is said about where the cursors are, so they may have wrapped round any number of times.
-/

namespace CircularQueue.Ring

variable {k : Order}

/-- The answer of a call on a plain list of indices, and the list it leaves. -/
def Call.onList (k : Order) : Call → List Nat → Answer × List Nat
  | .enqueue i _, is =>
    if i < k.capacity then (.accepted true, is ++ [i]) else (.accepted false, is)
  | .dequeue _, is => (.taken is.head?, is.tail)
  | .fill start stop, _ => (.done, List.range' start (stop - start))
  | .clear, _ => (.done, [])

/-- A call that one thread may make on a ring holding the indices `is`: it claims nothing about the
ring, publishes only if there is a free cell, and fills only with a range that fits. -/
def Call.Permitted (k : Order) : Call → List Nat → Prop
  | .enqueue i nonempty, is => nonempty = false ∧ (i < k.capacity → is.length < k.cellCount)
  | .dequeue nonempty, _ => nonempty = false
  | .fill start stop, _ => start ≤ stop ∧ stop ≤ k.capacity
  | .clear, _ => True

instance (call : Call) (is : List Nat) : Decidable (call.Permitted k is) :=
  match call with
  | .enqueue _ _ => inferInstanceAs (Decidable (_ ∧ _))
  | .dequeue _ => inferInstanceAs (Decidable (_ = _))
  | .fill _ _ => inferInstanceAs (Decidable (_ ∧ _))
  | .clear => inferInstanceAs (Decidable True)

/-- The answers of a run on a plain list, and the list it leaves. -/
def runOnList (k : Order) : List Call → List Nat → List Answer × List Nat
  | [], is => ([], is)
  | call :: calls, is =>
    let first := call.onList k is
    let rest := runOnList k calls first.2
    (first.1 :: rest.1, rest.2)

/-- Each call of a run is permitted when its turn comes. -/
def AllPermitted (k : Order) : List Call → List Nat → Prop
  | [], _ => True
  | call :: calls, is => call.Permitted k is ∧ AllPermitted k calls (call.onList k is).2

instance decidableAllPermitted (calls : List Call) (is : List Nat) :
    Decidable (AllPermitted k calls is) :=
  match calls with
  | [] => inferInstanceAs (Decidable True)
  | call :: calls =>
    have := decidableAllPermitted calls (call.onList k is).2
    inferInstanceAs (Decidable (call.Permitted k is ∧ AllPermitted k calls (call.onList k is).2))

theorem Holds.perform {r : Ring k} {is : List Nat} (h : r.Holds is) {call : Call}
    (hcall : call.Permitted k is) :
    ∃ r', r.perform call = some ((call.onList k is).1, r') ∧ r'.Holds (call.onList k is).2 := by
  cases call with
  | enqueue i nonempty =>
    obtain ⟨rfl, hlen⟩ := hcall
    by_cases hi : i < k.capacity
    · refine ⟨r.publish r.tail i false, ?_, ?_⟩
      · simp [Ring.perform, h.enqueue_eq hi (hlen hi), Call.onList, hi]
      · simpa [Call.onList, hi] using h.publish_tail hi (hlen hi)
    · refine ⟨r, ?_, ?_⟩
      · simp [Ring.perform, enqueue_of_capacity_le false (Nat.le_of_not_lt hi), Call.onList, hi]
      · simpa [Call.onList, hi] using h
  | dequeue nonempty =>
    have hhint : nonempty = false := hcall
    subst hhint
    obtain ⟨r', hdequeue, h'⟩ := h.dequeue_eq
    exact ⟨r', by rw [Ring.perform, hdequeue]; rfl, h'⟩
  | fill start stop =>
    obtain ⟨hrange, hstop⟩ := hcall
    refine ⟨r.fillRange start stop hrange hstop, ?_, holds_fillRange r hrange hstop⟩
    simp [Ring.perform, fill, hrange, hstop, Call.onList]
  | clear =>
    refine ⟨r.clear, rfl, ?_⟩
    rw [clear_eq_empty]
    exact holds_empty k

theorem Holds.run {r : Ring k} {is : List Nat} (h : r.Holds is) {calls : List Call}
    (hcalls : AllPermitted k calls is) :
    ∃ r', r.run calls = some ((runOnList k calls is).1, r') ∧
      r'.Holds (runOnList k calls is).2 := by
  induction calls generalizing r is with
  | nil => exact ⟨r, rfl, h⟩
  | cons call calls ih =>
    obtain ⟨hcall, hrest⟩ := hcalls
    obtain ⟨r₁, hperform, h₁⟩ := h.perform hcall
    obtain ⟨r₂, hrun, h₂⟩ := ih h₁ hrest
    exact ⟨r₂, run_cons hperform hrun, h₂⟩

/-- The run of the given calls from the ring `r` is the one from the list `is`: the answers are the
same, and what the ring holds in the end is what is left in the list. -/
def RunsAs (r : Ring k) (is : List Nat) (calls : List Call) : Prop :=
  ∃ r', r.run calls = some ((runOnList k calls is).1, r') ∧
    r'.live = (runOnList k calls is).2 ∧
    r'.distance = (runOnList k calls is).2.length ∧
    ∀ i nonempty, k.capacity ≤ i → r'.enqueue i nonempty = some (false, r')

theorem Holds.runsAs {r : Ring k} {is : List Nat} (h : r.Holds is) {calls : List Call}
    (hcalls : AllPermitted k calls is) : r.RunsAs is calls := by
  obtain ⟨r', hrun, h'⟩ := h.run hcalls
  exact ⟨r', hrun, h'.live_eq, h'.distance_eq,
    fun _ nonempty hi => enqueue_of_capacity_le nonempty hi⟩

theorem orderOf_exponent (k : Order) : orderOf k.exponent = .ok k := by
  rw [orderOf, Order.ofNat?_eq_some_iff.2 rfl]

theorem withOrder_exponent (k : Order) : withOrder k.exponent = .ok ⟨k, empty k⟩ := by
  rw [withOrder, orderOf_exponent]
  rfl

theorem withRange_exponent (k : Order) {start stop : Nat} (hrange : start ≤ stop)
    (hstop : stop ≤ k.capacity) :
    withRange k.exponent start stop =
      .ok ⟨k, (empty k).fillRange start stop hrange hstop⟩ := by
  rw [withRange, orderOf_exponent]
  simp [Except.bind, Except.map, filled, fill, hrange, hstop]

/-- A ring made empty or with a range of indices, and then used by one thread, answers every run of
permitted calls as a plain list does. -/
theorem runsAs_list (k : Order) :
    (∃ r : Ring k, withOrder k.exponent = .ok ⟨k, r⟩ ∧
      ∀ calls, AllPermitted k calls [] → r.RunsAs [] calls) ∧
    ∀ start stop, start ≤ stop → stop ≤ k.capacity →
      ∃ r : Ring k, withRange k.exponent start stop = .ok ⟨k, r⟩ ∧
        ∀ calls, AllPermitted k calls (List.range' start (stop - start)) →
          r.RunsAs (List.range' start (stop - start)) calls := by
  constructor
  · exact ⟨empty k, withOrder_exponent k, fun _ hcalls => (holds_empty k).runsAs hcalls⟩
  · intro start stop hrange hstop
    refine ⟨_, withRange_exponent k hrange hstop, fun _ hcalls => ?_⟩
    exact (holds_fillRange (empty k) hrange hstop).runsAs hcalls

/-- A run with failing calls on both ends, on a ring that starts with the index one. -/
def shortRun : List Call :=
  [.dequeue false, .dequeue false, .enqueue 2 false, .enqueue 0 false, .enqueue 1 false,
    .enqueue 1 false, .enqueue 0 false, .dequeue false, .fill 0 2, .dequeue false, .clear,
    .dequeue false, .enqueue 1 false]

theorem runsAs_list_shortRun :
    AllPermitted .one shortRun [1] ∧ ∃ r : Ring .one, withRange 1 1 2 = .ok ⟨.one, r⟩ ∧
      r.RunsAs [1] shortRun := by
  obtain ⟨-, hfilled⟩ := runsAs_list .one
  obtain ⟨r, hr, hrun⟩ := hfilled 1 2 (by decide) (by decide)
  exact ⟨by decide, r, hr, hrun shortRun (by decide)⟩

end CircularQueue.Ring
