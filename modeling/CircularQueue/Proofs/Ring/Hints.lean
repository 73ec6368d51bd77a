import CircularQueue.Proofs.Ring.FirstIn

/-!
# The word of a caller that a ring is not empty

A caller may give its word that the ring holds an index. A producer then leaves the threshold alone,
and a consumer neither asks the threshold first, nor pulls the tail along, nor counts its looks.
While one thread uses the ring the word saves work and changes nothing: a ring that holds an index
has a full threshold, and the index at its head is due at the first look. So calls whose word is
true when their turn comes can be made without it, with the same answers and the same ring after
each of them.

The word has to be true. An index published with a false one leaves the threshold as low as it was,
and may be overlooked.
-/

namespace CircularQueue.Ring

variable {k : Order}

/-- The call without the caller's word. -/
def Call.unhinted : Call → Call
  | .enqueue i _ => .enqueue i false
  | .dequeue _ => .dequeue false
  | .fill start stop => .fill start stop
  | .clear => .clear

/-- Whether the caller gives its word that the ring holds an index. -/
def Call.hinted : Call → Bool
  | .enqueue _ nonempty | .dequeue nonempty => nonempty
  | .fill _ _ | .clear => false

/-- A call that one thread may make on a ring holding the indices `is`, with a word that is true if
it is given. -/
def Call.Honest (k : Order) (call : Call) (is : List Nat) : Prop :=
  call.unhinted.Permitted k is ∧ (call.hinted = true → is ≠ [])

instance (call : Call) (is : List Nat) : Decidable (call.Honest k is) :=
  inferInstanceAs (Decidable (_ ∧ _))

/-- Each call of a run is honest when its turn comes. -/
def AllHonest (k : Order) : List Call → List Nat → Prop
  | [], _ => True
  | call :: calls, is => call.Honest k is ∧ AllHonest k calls (call.onList k is).2

instance decidableAllHonest (calls : List Call) (is : List Nat) :
    Decidable (AllHonest k calls is) :=
  match calls with
  | [] => inferInstanceAs (Decidable True)
  | call :: calls =>
    have := decidableAllHonest calls (call.onList k is).2
    inferInstanceAs (Decidable (call.Honest k is ∧ AllHonest k calls (call.onList k is).2))

theorem AllHonest.take {calls : List Call} {is : List Nat} (h : AllHonest k calls is) (n : Nat) :
    AllHonest k (calls.take n) is := by
  induction calls generalizing is n with
  | nil => rwa [List.take_nil]
  | cons call calls ih =>
    cases n with
    | zero => trivial
    | succ n => exact ⟨h.1, ih h.2 n⟩

/-- A plain list does not hear the caller's word. -/
theorem Call.onList_unhinted (call : Call) (is : List Nat) :
    call.unhinted.onList k is = call.onList k is := by
  cases call <;> rfl

namespace Holds

variable {r : Ring k} {is : List Nat}

/-- The threshold of a ring that holds an index need not be set. -/
theorem publish_hinted (h : r.Holds is) (hne : is ≠ []) (t : Cursor) (i : Nat) :
    r.publish t i true = r.publish t i false := by
  have hthreshold := h.threshold_eq hne
  obtain ⟨head, tail, threshold, cells⟩ := r
  simp only [publish, ↓reduceIte, Bool.false_eq_true]
  exact congrArg (Ring.mk head (t + 1) · _) hthreshold

theorem enqueue_hinted (h : r.Holds is) (hne : is ≠ []) (i : Nat) :
    r.enqueue i true = r.enqueue i false := by
  rw [enqueue, enqueue]
  cases r.firstUsable? r.tail cursorCount with
  | none => rfl
  | some t => simp only [h.publish_hinted hne]

/-- The first look at a ring that holds an index finds it. -/
theorem dequeueNonempty_cons {i : Nat} (h : r.Holds (i :: is)) :
    r.dequeueNonempty = some (i, r.step) := by
  have hlooks : cursorCount = cursorCount - 1 + 1 := rfl
  rw [dequeueNonempty, hlooks, seek, visit_of_due h.due_cons, h.indexOf_head]

/-- An honest call has the same answer without the caller's word, and leaves the same ring. -/
theorem perform_unhinted (h : r.Holds is) {call : Call} (hcall : call.Honest k is) :
    r.perform call.unhinted = r.perform call := by
  obtain ⟨-, hword⟩ := hcall
  cases call with
  | enqueue i nonempty =>
    cases nonempty with
    | false => rfl
    | true => simp only [Call.unhinted, Ring.perform, h.enqueue_hinted (hword rfl)]
  | dequeue nonempty =>
    cases nonempty with
    | false => rfl
    | true =>
      obtain ⟨i, is, rfl⟩ := List.exists_cons_of_ne_nil (hword rfl)
      simp only [Call.unhinted, Ring.perform, h.dequeue_cons, h.dequeueNonempty_cons]
  | fill start stop => rfl
  | clear => rfl

/-- So has a run of honest calls, and what the ring holds in the end is what is left in the list. -/
theorem run_unhinted (h : r.Holds is) {calls : List Call} (hcalls : AllHonest k calls is) :
    ∃ r', r.run calls = some ((runOnList k calls is).1, r') ∧
      r.run (calls.map Call.unhinted) = some ((runOnList k calls is).1, r') ∧
      r'.Holds (runOnList k calls is).2 := by
  induction calls generalizing r is with
  | nil => exact ⟨r, rfl, rfl, h⟩
  | cons call calls ih =>
    obtain ⟨hcall, hrest⟩ := hcalls
    obtain ⟨r₁, hunhinted, h₁⟩ := h.perform hcall.1
    rw [Call.onList_unhinted] at hunhinted h₁
    have hperform := (h.perform_unhinted hcall).symm.trans hunhinted
    obtain ⟨r₂, hrun, hrun', h₂⟩ := ih h₁ hrest
    exact ⟨r₂, run_cons hperform hrun, run_cons hunhinted hrun', h₂⟩

end Holds

/-- Whether the calls are made with their words or without, after any number of them the answers
have been the same and the ring is the same, in its cursors, its threshold and its cells. What is
live in it is what the list `is` has come to. -/
def HintsIdle (r : Ring k) (is : List Nat) (calls : List Call) : Prop :=
  ∀ n, ∃ r', r.run (calls.take n) = some ((runOnList k (calls.take n) is).1, r') ∧
    r.run ((calls.take n).map Call.unhinted) = some ((runOnList k (calls.take n) is).1, r') ∧
    r'.live = (runOnList k (calls.take n) is).2

theorem Holds.hintsIdle {r : Ring k} {is : List Nat} (h : r.Holds is) {calls : List Call}
    (hcalls : AllHonest k calls is) : r.HintsIdle is calls := by
  intro n
  obtain ⟨r', hrun, hrun', h'⟩ := h.run_unhinted (hcalls.take n)
  exact ⟨r', hrun, hrun', h'.live_eq⟩

/-- On a ring made empty or with a range of indices, and then used by one thread, the word of a
caller that the ring holds an index changes nothing where it is true. -/
theorem hints_idle (k : Order) :
    (∃ r : Ring k, withOrder k.exponent = .ok ⟨k, r⟩ ∧
      ∀ calls, AllHonest k calls [] → r.HintsIdle [] calls) ∧
    ∀ start stop, start ≤ stop → stop ≤ k.capacity →
      ∃ r : Ring k, withRange k.exponent start stop = .ok ⟨k, r⟩ ∧
        ∀ calls, AllHonest k calls (List.range' start (stop - start)) →
          r.HintsIdle (List.range' start (stop - start)) calls := by
  constructor
  · exact ⟨empty k, withOrder_exponent k, fun _ hcalls => (holds_empty k).hintsIdle hcalls⟩
  · intro start stop hrange hstop
    refine ⟨_, withRange_exponent k hrange hstop, fun _ hcalls => ?_⟩
    exact (holds_fillRange (empty k) hrange hstop).hintsIdle hcalls

/-- A run with true words on both ends, on a ring that starts with the indices zero and one, and
with failing calls without a word in between. -/
def hintedRun : List Call :=
  [.dequeue true, .enqueue 0 true, .dequeue true, .dequeue true, .dequeue false, .dequeue false,
    .enqueue 1 false, .enqueue 0 true, .enqueue 5 true, .dequeue true, .dequeue true]

theorem hints_idle_hintedRun :
    AllHonest .one hintedRun [0, 1] ∧ ∃ r : Ring .one, withRange 1 0 2 = .ok ⟨.one, r⟩ ∧
      r.HintsIdle [0, 1] hintedRun := by
  obtain ⟨-, hfilled⟩ := hints_idle .one
  obtain ⟨r, hr, hidle⟩ := hfilled 0 2 (by decide) (by decide)
  exact ⟨by decide, r, hr, hidle hintedRun (by decide)⟩

/-- With a false word an index is published and then overlooked. -/
example :
    (((empty .one).run [.enqueue 0 true, .dequeue false]).map Prod.fst =
      some [.accepted true, .taken none]) ∧
    ((empty .one).run [.enqueue 0 false, .dequeue false]).map Prod.fst =
      some [.accepted true, .taken (some 0)] := by
  decide

end CircularQueue.Ring
