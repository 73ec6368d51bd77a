import CircularQueue.Proofs.Ring.Safety

/-!
# Rings that hand out what they hold

A consumer's walk from the head comes to the first live index, if the threshold lasts for the gaps
before it and the index is before the tail. On its way it passes gaps only, and each look at one
costs a unit of the threshold, so the threshold must be as large as the number of the gaps.
-/

namespace CircularQueue.Ring

variable {k : Order} {r : Ring k} {reach : Int}

/-- `gaps` cursors before the first live one, at which the index `i` is live. -/
structure FirstLive (r : Ring k) (gaps i : Nat) : Prop where
  ahead : (gaps : Int) < gap r.tail r.head
  live : r.liveAt (r.head + gaps.toUInt64) = some i
  not_live : ∀ j < gaps, r.liveAt (r.head + j.toUInt64) = none

theorem exists_firstLive (h : r.live ≠ []) : ∃ gaps i, r.FirstLive gaps i := by
  obtain ⟨i, is, hlive⟩ := List.exists_cons_of_ne_nil h
  have hmem : i ∈ r.live := hlive ▸ List.mem_cons_self
  obtain ⟨j, hj, hat⟩ := List.mem_filterMap.1 hmem
  have hexists : ∃ j : Nat, (r.liveAt (r.head + j.toUInt64)).isSome := ⟨j, by rw [hat]; rfl⟩
  have hle : Nat.find hexists ≤ j := Nat.find_min' hexists (by rw [hat]; rfl)
  obtain ⟨i', hi'⟩ := Option.isSome_iff_exists.1 (Nat.find_spec hexists)
  have hlt := List.mem_range.1 hj
  rw [distance] at hlt
  refine ⟨Nat.find hexists, i', by omega, hi', fun j' hj' => ?_⟩
  exact Option.not_isSome_iff_eq_none.1 (Nat.find_min hexists hj')

/-- If an index is live in the ring, the threshold is enough to come to the first one, and a call
that may give up takes it. -/
def HandsOut (r : Ring k) : Prop :=
  ∀ i is, r.live = i :: is →
    ∃ gaps, r.FirstLive gaps i ∧ 0 ≤ r.threshold ∧ gaps ≤ r.threshold ∧
      ∃ r', r.dequeue = (some i, r') ∧ r'.live = is

namespace FirstLive

variable {gaps i : Nat}

theorem due_of_zero (h : r.FirstLive 0 i) : r.Due ∧ k.indexOf (r.word r.head) = i := by
  have hlive := h.live
  have hzero : r.head + (0 : Nat).toUInt64 = r.head := UInt64.add_zero r.head
  rw [hzero, liveAt] at hlive
  split at hlive
  · rename_i hdue
    exact ⟨hdue.1, Option.some.inj hlive⟩
  · cases hlive

/-- After a look at the first gap there is one gap less. -/
theorem step (h : r.FirstLive (gaps + 1) i) (hsettled : r.Settled reach)
    (hreach : reach ≤ maxReach) :
    ¬ r.Due ∧ 0 < gap r.tail (r.head + 1) ∧ r.step.spend.FirstLive gaps i := by
  have hahead := h.ahead
  have hlt := gap_lt r.tail r.head
  have hsucc := gap_succ_right (c := r.tail) (d := r.head) (by omega)
  have hstep (j : Nat) (hj : (j : Int) < gap r.tail r.head) :
      r.step.spend.liveAt (r.step.spend.head + j.toUInt64) =
        r.liveAt (r.head + (j + 1).toUInt64) := by
    have hgap := gap_add_self (c := r.head) (j := j + 1) (by omega)
    have hlive : r.step.liveAt (r.head + (j + 1).toUInt64) =
        r.liveAt (r.head + (j + 1).toUInt64) := liveAt_step (by omega)
    rw [head_spend, head_step, ← add_toUInt64_succ]
    exact hlive
  refine ⟨fun hdue => ?_, by omega, ?_, ?_, ?_⟩
  · have hnone := h.not_live 0 (Nat.succ_pos gaps)
    have hzero : r.head + (0 : Nat).toUInt64 = r.head := UInt64.add_zero r.head
    rw [hzero, hsettled.liveAt_head_of_due hreach hdue] at hnone
    cases hnone
  · rw [tail_spend, head_spend, tail_step, head_step]
    omega
  · rw [hstep gaps (by omega)]
    exact h.live
  · intro j hj
    rw [hstep j (by omega)]
    exact h.not_live (j + 1) (Nat.succ_lt_succ hj)

theorem probe (h : r.FirstLive gaps i) (hsettled : r.Settled reach) (hreach : reach ≤ maxReach)
    (patience : Nat) {budget : Nat} (hbudget : gaps ≤ budget) :
    (r.probe patience budget).1 = some i := by
  induction gaps generalizing r budget with
  | zero =>
    obtain ⟨hdue, hindex⟩ := h.due_of_zero
    rw [probe_of_due hdue, hindex]
  | succ gaps ih =>
    obtain ⟨hdue, hgap, hrest⟩ := h.step hsettled hreach
    have hpos := hsettled.gap_pos_of_ahead hgap
    obtain ⟨budget, rfl⟩ : ∃ b, budget = b + 1 := ⟨budget - 1, by omega⟩
    rw [probe_succ hdue hgap]
    exact ih hrest (hsettled.step hreach hpos).spend (Nat.le_of_succ_le_succ hbudget)

theorem dequeue (h : r.FirstLive gaps i) (hsettled : r.Settled reach) (hreach : reach ≤ maxReach)
    (hthreshold : gaps ≤ r.threshold) : r.dequeue.1 = some i := by
  rw [Ring.dequeue, dequeueWith, if_neg (by omega)]
  exact h.probe hsettled hreach publishPatience (by omega)

end FirstLive

namespace Settled

/-- A settled ring hands out what it holds, if its threshold lasts up to the first live index. -/
theorem handsOut (h : r.Settled reach) (hreach : reach ≤ maxReach)
    (hthreshold : ∀ gaps i, r.FirstLive gaps i → gaps ≤ r.threshold) : r.HandsOut := by
  intro i is hlive
  obtain ⟨gaps, i', hfirst⟩ := exists_firstLive (r := r) (by rw [hlive]; simp)
  have hle := hthreshold gaps i' hfirst
  have htaken := hfirst.dequeue h hreach hle
  have hrest := (h.dequeue hreach).1
  rw [htaken, hlive, Option.toList_some, List.singleton_append, List.cons_eq_cons] at hrest
  obtain ⟨rfl, hrest⟩ := hrest
  exact ⟨gaps, hfirst, by omega, hle, r.dequeue.2, by rw [← htaken], hrest⟩

/-- A ring that holds nothing answers that there is none. -/
theorem dequeue_of_live_eq_nil (h : r.Settled reach) (hreach : reach ≤ maxReach)
    (hlive : r.live = []) : ∃ r', r.dequeue = (none, r') := by
  have hrest := (h.dequeue hreach).1
  rw [hlive, List.append_eq_nil_iff] at hrest
  exact ⟨r.dequeue.2, by rw [← Option.toList_eq_nil_iff.1 hrest.1]⟩

end Settled

/-- A ring as it is when all threads have returned: whatever gaps they have left, it hands out what
it holds and has room for one more index. -/
structure AtRest (r : Ring k) : Prop where
  settled : ∃ reach, reach ≤ maxReach ∧ r.Settled reach
  handsOut : r.HandsOut
  vacant : ∃ c, k.Vacant (r.word c)

namespace AtRest

theorem dequeue_of_live_eq_nil (h : r.AtRest) (hlive : r.live = []) :
    ∃ r', r.dequeue = (none, r') := by
  obtain ⟨reach, hreach, hsettled⟩ := h.settled
  exact hsettled.dequeue_of_live_eq_nil hreach hlive

theorem dequeue_of_live_eq_cons (h : r.AtRest) {i : Nat} {is : List Nat}
    (hlive : r.live = i :: is) : ∃ r', r.dequeue = (some i, r') := by
  obtain ⟨gaps, -, -, -, r', hdequeue, -⟩ := h.handsOut i is hlive
  exact ⟨r', hdequeue⟩

theorem enqueue (h : r.AtRest) {i : Nat} (hi : i < k.capacity) (nonempty : Bool) :
    ∃ r', r.enqueue i nonempty = some (true, r') := by
  obtain ⟨reach, hreach, hsettled⟩ := h.settled
  obtain ⟨c, hvacant⟩ := h.vacant
  obtain ⟨r', henqueue, -, -⟩ := hsettled.enqueue hreach hi hvacant nonempty
  exact ⟨r', henqueue⟩

end AtRest

end CircularQueue.Ring
