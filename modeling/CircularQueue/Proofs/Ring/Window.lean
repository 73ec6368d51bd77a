import CircularQueue.Proofs.Ring.Steps

/-!
# The looks of a consumer at arbitrary words

A call that may give up takes one look after the other, from the head on. Whatever the words are,
looks that find nothing leave the cells as they are for the cursors to come: a word of the lap of a
later cursor is not touched, and no word is given that lap. So the whole call is told by the words
before it. It looks through a window of cursors, which ends at the tail or where the threshold gives
out and may be longer than a lap, and its answer is the first index due there.
-/

namespace CircularQueue

namespace Order

variable {k : Order} {c h : Cursor}

theorem lap_ne_lap (hcell : k.cell c = k.cell h) (hlo : 0 < gap c h) : k.lap c ≠ k.lap h := by
  intro hlap
  rw [eq_of_lap_eq hcell hlap (by omega), gap_self] at hlo
  omega

/-- A consumer does not touch an index that is due to a later one. -/
theorem visited_eq_of_lapOf_eq (hcell : k.cell c = k.cell h) (hlo : 0 < gap c h)
    (hhi : gap c h < 2 ^ 62) {w : Word} (hlap : k.lapOf w = k.lap c) : k.visited h w = w := by
  have hbehind : ¬ k.Behind w h := by
    rw [behind_iff hcell hlap.symm (by omega) hhi]
    omega
  exact visited_eq_self (hlap ▸ lap_ne_lap hcell hlo) hbehind

/-- Nor does it leave anything that would be due to a later one and was not. -/
theorem lapOf_visited_eq_lap_iff (hcell : k.cell c = k.cell h) (hlo : 0 < gap c h)
    (hhi : gap c h < 2 ^ 62) {w : Word} :
    k.lapOf (k.visited h w) = k.lap c ↔ k.lapOf w = k.lap c := by
  constructor
  · intro hlap
    rw [lapOf_visited] at hlap
    split at hlap
    · exact absurd hlap.symm (lap_ne_lap hcell hlo)
    · exact hlap
  · intro hlap
    rw [visited_eq_of_lapOf_eq hcell hlo hhi hlap, hlap]

end Order

namespace Ring

variable {k : Order} {r : Ring k} {c : Cursor}

/-- The index published for the cursor `c` is due in its cell. -/
def DueAt (r : Ring k) (c : Cursor) : Prop := k.lapOf (r.word c) = k.lap c

instance (r : Ring k) (c : Cursor) : Decidable (r.DueAt c) := inferInstanceAs (Decidable (_ = _))

theorem dueAt_step_iff (hlo : 0 < gap c r.head) (hhi : gap c r.head < 2 ^ 62) :
    r.step.DueAt c ↔ r.DueAt c := by
  by_cases hcell : k.cell r.head = k.cell c
  · rw [DueAt, DueAt, word_step_of_cell_eq hcell, word_eq_of_cell_eq hcell]
    exact Order.lapOf_visited_eq_lap_iff hcell.symm hlo hhi
  · rw [DueAt, DueAt, word_step_of_cell_ne hcell]

theorem word_step_of_dueAt (hlo : 0 < gap c r.head) (hhi : gap c r.head < 2 ^ 62)
    (hdue : r.DueAt c) : r.step.word c = r.word c := by
  by_cases hcell : k.cell r.head = k.cell c
  · rw [word_step_of_cell_eq hcell, word_eq_of_cell_eq hcell]
    exact Order.visited_eq_of_lapOf_eq hcell.symm hlo hhi hdue
  · exact word_step_of_cell_ne hcell

/-- The ring after `m` looks that found nothing and did not come to the tail. -/
def afterLooks (r : Ring k) : Nat → Ring k
  | 0 => r
  | m + 1 => (r.afterLooks m).step.spend

theorem afterLooks_succ (r : Ring k) (m : Nat) :
    r.step.spend.afterLooks m = r.afterLooks (m + 1) := by
  induction m with
  | zero => rfl
  | succ m ih => exact congrArg (spend ·.step) ih

@[simp] theorem head_afterLooks (r : Ring k) (m : Nat) :
    (r.afterLooks m).head = r.head + m.toUInt64 := by
  induction m with
  | zero => exact (UInt64.add_zero r.head).symm
  | succ m ih => rw [afterLooks, head_spend, head_step, ih, add_toUInt64_add_one]

@[simp] theorem tail_afterLooks (r : Ring k) (m : Nat) : (r.afterLooks m).tail = r.tail := by
  induction m with
  | zero => rfl
  | succ m ih => rw [afterLooks, tail_spend, tail_step, ih]

@[simp] theorem threshold_afterLooks (r : Ring k) (m : Nat) :
    (r.afterLooks m).threshold = r.threshold - m := by
  induction m with
  | zero => exact (Int.sub_zero _).symm
  | succ m ih =>
    rw [afterLooks, threshold_spend, threshold_step, ih]
    omega

section

variable {j m : Nat}

theorem gap_head_afterLooks (hmj : m ≤ j) (hj : j < 2 ^ 62) :
    gap (r.head + j.toUInt64) (r.afterLooks m).head = j - m := by
  rw [head_afterLooks, gap_offsets (by omega) (by omega)]

/-- What is due later is due, whatever has been looked at. -/
theorem dueAt_afterLooks_iff (hmj : m ≤ j) (hj : j < 2 ^ 62) :
    (r.afterLooks m).DueAt (r.head + j.toUInt64) ↔ r.DueAt (r.head + j.toUInt64) := by
  induction m with
  | zero => exact Iff.rfl
  | succ m ih =>
    have hgap := gap_head_afterLooks (r := r) (m := m) (by omega) hj
    exact (dueAt_step_iff (by omega) (by omega)).trans (ih (by omega))

theorem word_afterLooks_of_dueAt (hmj : m ≤ j) (hj : j < 2 ^ 62)
    (hdue : r.DueAt (r.head + j.toUInt64)) :
    (r.afterLooks m).word (r.head + j.toUInt64) = r.word (r.head + j.toUInt64) := by
  induction m with
  | zero => rfl
  | succ m ih =>
    have hgap := gap_head_afterLooks (r := r) (m := m) (by omega) hj
    have hstep := word_step_of_dueAt (r := r.afterLooks m) (by omega) (by omega)
      ((dueAt_afterLooks_iff (by omega) hj).2 hdue)
    exact hstep.trans (ih (by omega))

theorem due_afterLooks_iff (hm : m < 2 ^ 62) :
    (r.afterLooks m).Due ↔ r.DueAt (r.head + m.toUInt64) := by
  rw [← dueAt_afterLooks_iff (Nat.le_refl m) hm, ← head_afterLooks]
  rfl

end

/-- How a call ends that has looked `m` times and found nothing: with an index that is due, past the
tail, or because the threshold has given out. -/
inductive EndsAfter (r : Ring k) (budget m : Nat) : Option Nat × Ring k → Prop
  | due (hdue : (r.afterLooks m).Due) :
      EndsAfter r budget m
        (some (k.indexOf ((r.afterLooks m).word (r.afterLooks m).head)), (r.afterLooks m).step)
  | overtaken (hdue : ¬ (r.afterLooks m).Due) (hgap : gap r.tail (r.afterLooks (m + 1)).head ≤ 0) :
      EndsAfter r budget m (none, (r.afterLooks (m + 1)).catchUp)
  | exhausted (hdue : ¬ (r.afterLooks m).Due)
      (hgap : 0 < gap r.tail (r.afterLooks (m + 1)).head) (hlast : m = budget) :
      EndsAfter r budget m (none, r.afterLooks (m + 1))

theorem EndsAfter.succ {budget m : Nat} {result : Option Nat × Ring k}
    (h : r.step.spend.EndsAfter budget m result) : r.EndsAfter (budget + 1) (m + 1) result := by
  cases h with
  | due hdue =>
    rw [afterLooks_succ] at hdue ⊢
    exact .due hdue
  | overtaken hdue hgap =>
    rw [afterLooks_succ] at hdue hgap ⊢
    exact .overtaken hdue hgap
  | exhausted hdue hgap hlast =>
    rw [afterLooks_succ] at hdue hgap ⊢
    exact .exhausted hdue hgap (congrArg (· + 1) hlast)

/-- Every call ends after some looks that found nothing and had the tail ahead. -/
theorem exists_endsAfter (r : Ring k) (patience budget : Nat) :
    ∃ m ≤ budget, r.EndsAfter budget m (r.probe patience budget) ∧
      ∀ i < m, ¬ (r.afterLooks i).Due ∧ 0 < gap r.tail (r.afterLooks (i + 1)).head := by
  induction budget generalizing r with
  | zero =>
    refine ⟨0, Nat.le_refl 0, ?_, by simp⟩
    by_cases hdue : r.Due
    · rw [probe_of_due hdue]
      exact .due hdue
    · by_cases hgap : gap r.tail (r.head + 1) ≤ 0
      · rw [probe_of_overtaken hdue hgap]
        exact .overtaken hdue hgap
      · rw [probe_zero hdue (Int.not_le.1 hgap)]
        exact .exhausted hdue (Int.not_le.1 hgap) rfl
  | succ budget ih =>
    by_cases hdue : r.Due
    · refine ⟨0, Nat.zero_le _, ?_, by simp⟩
      rw [probe_of_due hdue]
      exact .due hdue
    · by_cases hgap : gap r.tail (r.head + 1) ≤ 0
      · refine ⟨0, Nat.zero_le _, ?_, by simp⟩
        rw [probe_of_overtaken hdue hgap]
        exact .overtaken hdue hgap
      · obtain ⟨m, hm, hends, hbefore⟩ := ih r.step.spend
        rw [probe_succ hdue (Int.not_le.1 hgap)]
        refine ⟨m + 1, Nat.succ_le_succ hm, hends.succ, fun i hi => ?_⟩
        cases i with
        | zero => exact ⟨hdue, Int.not_le.1 hgap⟩
        | succ i =>
          have hi := hbefore i (Nat.lt_of_succ_lt_succ hi)
          rwa [afterLooks_succ, afterLooks_succ] at hi

/-- The patience at reserved cells never matters while nobody else moves. -/
theorem probe_eq_probe (r : Ring k) (patience patience' budget : Nat) :
    r.probe patience budget = r.probe patience' budget := by
  induction budget generalizing r with
  | zero => rw [probe, probe, visit_eq, visit_eq]
  | succ budget ih =>
    rw [probe, probe, visit_eq, visit_eq]
    simp only [ih]

theorem dequeueWith_eq_dequeue (r : Ring k) (patience : Nat) :
    r.dequeueWith patience = r.dequeue := by
  rw [dequeue, dequeueWith, dequeueWith, r.probe_eq_probe patience publishPatience]

/-- How many cursors a call may look at: one more than the threshold allows to find nothing, and not
past the tail, but one in any case. -/
def window (r : Ring k) : Nat := (min (r.threshold + 1) (max 1 (gap r.tail r.head))).toNat

theorem lt_window_iff (hspent : 0 ≤ r.threshold) {j : Nat} :
    j < r.window ↔ (j : Int) ≤ r.threshold ∧ (j = 0 ∨ (j : Int) < gap r.tail r.head) := by
  rw [window]
  omega

theorem gap_tail_afterLooks {m : Nat} (h : -2 ^ 63 ≤ gap r.tail r.head - m) :
    gap r.tail (r.afterLooks m).head = gap r.tail r.head - m := by
  rw [head_afterLooks, gap_add_right h]

section

variable {patience : Nat} (hspent : 0 ≤ r.threshold) (hfull : r.threshold ≤ k.fullThreshold)

include hspent hfull

/-- A call takes the first index that is due in its window. -/
theorem dequeueWith_of_dueAt {j : Nat} (hj : j < r.window) (hdue : r.DueAt (r.head + j.toUInt64))
    (hfirst : ∀ i < j, ¬ r.DueAt (r.head + i.toUInt64)) :
    r.dequeueWith patience =
      (some (k.indexOf (r.word (r.head + j.toUInt64))), (r.afterLooks j).step) := by
  have hcount := k.cellCount_le
  have hcapacity := k.cellCount_eq
  rw [Order.fullThreshold] at hfull
  obtain ⟨hlast, hahead⟩ := (lt_window_iff hspent).1 hj
  obtain ⟨m, hm, hends, hbefore⟩ := r.exists_endsAfter patience r.threshold.toNat
  rw [dequeueWith, if_neg (Int.not_lt.2 hspent)]
  generalize r.probe patience r.threshold.toNat = result at hends ⊢
  rcases lt_trichotomy m j with hlt | rfl | hlt
  · have hnot := mt (due_afterLooks_iff (by omega)).1 (hfirst m hlt)
    have hnext := gap_tail_afterLooks (r := r) (m := m + 1) (by omega)
    cases hends with
    | due hdue' => exact absurd hdue' hnot
    | overtaken hdue' hgap => omega
    | exhausted hdue' hgap hbudget => omega
  · have hnow := (due_afterLooks_iff (by omega)).2 hdue
    have hword := word_afterLooks_of_dueAt (r := r) (Nat.le_refl m) (by omega) hdue
    cases hends with
    | due hdue' => rw [head_afterLooks, hword]
    | overtaken hdue' hgap => exact absurd hnow hdue'
    | exhausted hdue' hgap hbudget => exact absurd hnow hdue'
  · exact absurd ((due_afterLooks_iff (by omega)).2 hdue) (hbefore j hlt).1

/-- A call that finds nothing due in its window has looked through all of it. -/
theorem dequeueWith_of_not_dueAt (hgap : gap r.tail r.head ≠ -2 ^ 63)
    (hnone : ∀ j < r.window, ¬ r.DueAt (r.head + j.toUInt64)) :
    r.dequeueWith patience = (none,
      if gap r.tail (r.afterLooks r.window).head ≤ 0 then (r.afterLooks r.window).catchUp
      else r.afterLooks r.window) := by
  have hcount := k.cellCount_le
  have hcapacity := k.cellCount_eq
  have hlo := neg_le_gap r.tail r.head
  rw [Order.fullThreshold] at hfull
  obtain ⟨m, hm, hends, hbefore⟩ := r.exists_endsAfter patience r.threshold.toNat
  -- The tail was ahead after the first look if there was a second one.
  have hahead : m = 0 ∨ (m : Int) < gap r.tail r.head := by
    cases m with
    | zero => exact Or.inl rfl
    | succ m =>
      have hfirst := (hbefore 0 (Nat.succ_pos m)).2
      have hlast := (hbefore m (Nat.lt_succ_self m)).2
      rw [gap_tail_afterLooks (by omega)] at hfirst
      rw [gap_tail_afterLooks (by omega)] at hlast
      exact Or.inr (by omega)
  have hlt : m < r.window := (lt_window_iff hspent).2 ⟨by omega, hahead⟩
  have hnext := gap_tail_afterLooks (r := r) (m := m + 1) (by omega)
  have hnot := mt (due_afterLooks_iff (by omega)).1 (hnone m hlt)
  rw [dequeueWith, if_neg (Int.not_lt.2 hspent)]
  generalize r.probe patience r.threshold.toNat = result at hends ⊢
  cases hends with
  | due hdue => exact absurd hdue hnot
  | overtaken hdue hgap' =>
    have hwindow : m + 1 = r.window := by
      rw [window] at hlt ⊢
      omega
    rw [← hwindow, if_pos hgap']
  | exhausted hdue hgap' hbudget =>
    have hwindow : m + 1 = r.window := by
      rw [window] at hlt ⊢
      omega
    rw [← hwindow, if_neg (Int.not_le.2 hgap')]

end

/-- A ring of order one in which a call looks at five cursors. The index one is due at the last, in
the cell of the first. The cells in between hold an index of an earlier lap and two empty marks, one
of them unsafe. -/
def ahead : Ring Order.one where
  head := 1
  tail := 10
  threshold := 5
  cells := #v[3, 13, 0xFFFFFFFFFFFFFFFC, 0xFFFFFFFFFFFFFFFF]

end Ring

end CircularQueue
