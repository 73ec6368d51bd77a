import CircularQueue.Proofs.Ring.Orderly

/-!
# Calls on rings that other threads have left behind

A consumer's step changes one cell. It changes what is live at the head and nothing else, so the
live indices of the ring are the one at the head, if there is one, and those that the step leaves.
The rest of a call adds steps up: a consumer that finds nothing has passed only gaps, and one that
finds an index has found the first. A producer's cursors before the one it uses are gaps as well.
-/

namespace CircularQueue.Ring

variable {k : Order}

/-! The live indices from the head on. -/

theorem distance_eq_of_gap {r : Ring k} {n : Nat} (h : gap r.tail r.head = n) :
    r.distance = n := by
  rw [distance, h, Int.toNat_natCast]

theorem live_eq_nil_of_gap {r : Ring k} (h : gap r.tail r.head = 0) : r.live = [] :=
  live_of_distance_eq_zero (distance_eq_of_gap h)

theorem live_eq_head_append {r : Ring k} (h : 0 < gap r.tail r.head) :
    r.live = (r.liveAt r.head).toList ++
      (List.range (r.distance - 1)).filterMap fun j => r.liveAt (r.head + 1 + j.toUInt64) := by
  have hdistance : r.distance = r.distance - 1 + 1 := by
    rw [distance]
    omega
  have hzero : r.head + (0 : Nat).toUInt64 = r.head := UInt64.add_zero r.head
  rw [live, hdistance, List.range_succ_eq_map, List.filterMap_cons, hzero, List.filterMap_map]
  simp only [Function.comp_def, Nat.succ_eq_add_one, add_toUInt64_succ, Nat.add_sub_cancel]
  cases r.liveAt r.head <;> rfl

/-- A consumer at the cursor `h` leaves alone what is live at the other cursors of its cell. -/
theorem liveAt_eq_of_visited {r s : Ring k} {h c : Cursor}
    (hword : s.word c = k.visited h (r.word c))
    (hlap : k.lap h ≠ k.lap c) : s.liveAt c = r.liveAt c := by
  have hlapleft := k.lapOf_visited h (r.word c)
  by_cases hdue : k.lapOf (r.word c) = k.lap h
  · rw [if_neg fun hand => Order.not_behind_of_lapOf_eq hdue hand.1, hdue, ← hword] at hlapleft
    rw [liveAt_eq_none_of_lap (hlapleft ▸ hlap), liveAt_eq_none_of_lap (hdue ▸ hlap)]
  -- The index published for `h` is not the one live at `c`, and what else is in the cell keeps its
  -- lap and its index.
  · by_cases hvacant : k.Vacant (r.word c)
    · have hvisited : k.Vacant (s.word c) := by
        rw [hword, Order.vacant_visited_iff]
        exact Or.inl hvacant
      rw [liveAt_eq_none_of_vacant hvisited, liveAt_eq_none_of_vacant hvacant]
    · have hvisited : ¬ k.Vacant (s.word c) := by
        rw [hword, Order.vacant_visited_iff]
        exact not_or.2 ⟨hvacant, hdue⟩
      rw [if_neg fun hand => hvacant hand.2, ← hword] at hlapleft
      by_cases hlive : k.lapOf (r.word c) = k.lap c
      · rw [liveAt_eq_some hlive hvacant, liveAt_eq_some (hlapleft.trans hlive) hvisited, hword,
          Order.indexOf_visited hdue hvacant]
      · rw [liveAt_eq_none_of_lap hlive, liveAt_eq_none_of_lap (hlapleft ▸ hlive)]

/-- A consumer's step leaves alone what is live at later cursors. -/
theorem liveAt_step {r : Ring k} {c : Cursor} (hlo : 0 < gap c r.head) :
    r.step.liveAt c = r.liveAt c := by
  by_cases hcell : k.cell r.head = k.cell c
  · have hword := word_step_of_cell_eq hcell
    rw [word_eq_of_cell_eq hcell] at hword
    refine liveAt_eq_of_visited hword fun hlap => ?_
    have heq := Order.eq_of_lap_eq hcell.symm hlap.symm (by omega)
    rw [heq, gap_self] at hlo
    omega
  · rw [liveAt, liveAt, word_step_of_cell_ne hcell]

/-- A producer that writes a vacant cell leaves alone what is live at other cursors. -/
theorem liveAt_publish {r : Ring k} {t c : Cursor} {i : Nat} {nonempty : Bool} (hi : i < k.capacity)
    (hvacant : k.Vacant (r.word t)) (hne : gap c t ≠ 0) (hlo : -2 ^ 63 < gap c t) :
    (r.publish t i nonempty).liveAt c = r.liveAt c := by
  have hfield := Nat.lt_trans hi k.capacity_lt_cellCount
  by_cases hcell : k.cell t = k.cell c
  · rw [word_eq_of_cell_eq hcell] at hvacant
    rw [liveAt_eq_none_of_vacant hvacant, liveAt_eq_none_of_lap]
    rw [word_publish_of_cell_eq hcell, k.lapOf_published _ hfield]
    intro hlap
    exact hne (gap_eq_zero_iff.2 (Order.eq_of_lap_eq hcell.symm hlap.symm hlo))
  · rw [liveAt, liveAt, word_publish_of_cell_ne hcell]

theorem distance_step {r : Ring k} (h : 0 < gap r.tail r.head) :
    r.step.distance = r.distance - 1 := by
  have hgap := gap_succ_right (c := r.tail) (d := r.head) (by omega)
  rw [distance, distance, tail_step, head_step, hgap]
  omega

/-- The live indices are the one at the head, if any, and those that a consumer's step leaves. -/
theorem live_eq_of_step {r : Ring k} (h : 0 < gap r.tail r.head) :
    r.live = (r.liveAt r.head).toList ++ r.step.live := by
  have hlt := gap_lt r.tail r.head
  have htail : (List.range (r.distance - 1)).filterMap
      (fun j => r.liveAt (r.head + 1 + j.toUInt64)) = r.step.live := by
    rw [live, distance_step h, head_step]
    apply List.filterMap_congr
    intro j hj
    have hj := List.mem_range.1 hj
    rw [distance] at hj
    rw [← add_toUInt64_succ, liveAt_step]
    rw [gap_add_self (by omega)]
    omega
  rw [live_eq_head_append h, htail]

namespace Settled

variable {r : Ring k} {reach : Int}

theorem gap_pos_of_due (h : r.Settled reach) (hreach : reach ≤ maxReach) (hdue : r.Due) :
    0 < gap r.tail r.head := by
  have hnonneg := h.gap_nonneg
  by_contra hle
  have hzero : gap r.tail r.head = 0 := by omega
  rw [gap_eq_zero_iff] at hzero
  have hgap : gap r.head r.tail = 0 := gap_eq_zero_iff.2 hzero.symm
  exact h.lapOf_ne_lap hreach (by omega) (by omega) hdue

/-- What is due at the head is live there. -/
theorem liveAt_head_of_due (h : r.Settled reach) (hreach : reach ≤ maxReach) (hdue : r.Due) :
    r.liveAt r.head = some (k.indexOf (r.word r.head)) := by
  have hnonneg := h.gap_nonneg
  have hpos := k.cellCount_pos
  refine liveAt_eq_some hdue fun hvacant => ?_
  have hbehind := h.behind_of_vacant hreach (by rw [gap_self]) (by rw [gap_self]; omega) hvacant
  exact Order.not_behind_of_lapOf_eq hdue hbehind

/-- A cell that a consumer leaves vacant has the lap of that consumer. -/
theorem lapOf_visited_of_vacant (h : r.Settled reach) (hreach : reach ≤ maxReach)
    (hvacant : k.Vacant (k.visited r.head (r.word r.head))) :
    k.lapOf (k.visited r.head (r.word r.head)) = k.lap r.head := by
  have hnonneg := h.gap_nonneg
  have hpos := k.cellCount_pos
  rw [Order.lapOf_visited]
  rcases Order.vacant_visited_iff.1 hvacant with hvacant | hdue
  · have hbehind := h.behind_of_vacant hreach (by rw [gap_self]) (by rw [gap_self]; omega) hvacant
    rw [if_pos ⟨hbehind, hvacant⟩]
  · rw [if_neg fun hand => Order.not_behind_of_lapOf_eq hdue hand.1, hdue]

/-- A consumer's step leaves each cell with a word written before, except that it may have closed or
emptied the cell at the head. -/
theorem written_step (h : r.Settled reach) (hreach : reach ≤ maxReach) (c : Cursor) :
    ∃ d, k.cell d = k.cell c ∧ k.lap d = k.lapOf (r.step.word c) ∧
      (d = r.head ∧ k.Vacant (r.step.word c) ∨
        -reach < gap d r.tail ∧ gap d r.tail < 0 ∧
          (k.Vacant (r.step.word c) → gap d r.head < 0)) := by
  obtain ⟨d, hd, hlap, hlo, hhi, hbefore⟩ := h.written c
  by_cases hcell : k.cell r.head = k.cell c
  · rw [word_step_of_cell_eq hcell]
    by_cases hvacant : k.Vacant (k.visited r.head (r.word r.head))
    · exact ⟨r.head, hcell, (h.lapOf_visited_of_vacant hreach hvacant).symm,
        Or.inl ⟨rfl, hvacant⟩⟩
    · rw [← word_eq_of_cell_eq hcell] at hlap
      obtain ⟨hword, -⟩ := not_or.1 (mt Order.vacant_visited_iff.2 hvacant)
      refine ⟨d, hd, ?_, Or.inr ⟨hlo, hhi, fun hv => absurd hv hvacant⟩⟩
      rw [Order.lapOf_visited, if_neg fun hand => hword hand.2, hlap]
  · rw [word_step_of_cell_ne hcell]
    exact ⟨d, hd, hlap, Or.inr ⟨hlo, hhi, hbefore⟩⟩

theorem index_lt_step (h : r.Settled reach) (c : Cursor) (hvacant : ¬ k.Vacant (r.step.word c)) :
    k.indexOf (r.step.word c) < k.capacity := by
  by_cases hcell : k.cell r.head = k.cell c
  · rw [word_step_of_cell_eq hcell] at hvacant ⊢
    obtain ⟨hword, hdue⟩ := not_or.1 (mt Order.vacant_visited_iff.2 hvacant)
    rw [Order.indexOf_visited hdue hword]
    exact h.index_lt r.head hword
  · rw [word_step_of_cell_ne hcell] at hvacant ⊢
    exact h.index_lt c hvacant

/-- A consumer that passes the head with the tail ahead keeps the ring settled. -/
theorem step (h : r.Settled reach) (hreach : reach ≤ maxReach) (hpos : 0 < gap r.tail r.head) :
    r.step.Settled reach where
  gap_nonneg := by
    rw [tail_step, head_step, gap_succ_right (by omega)]
    omega
  gap_lt := by
    have hlt := h.gap_lt
    rw [tail_step, head_step, gap_succ_right (by omega)]
    omega
  index_lt := h.index_lt_step
  written := by
    intro c
    have hlt := h.gap_lt
    obtain ⟨d, hd, hlap, ⟨rfl, -⟩ | ⟨hlo, hhi, hbefore⟩⟩ := h.written_step hreach c
    · have hself := gap_comm (a := r.tail) (b := r.head) (by omega)
      refine ⟨r.head, hd, hlap, ?_, ?_, fun _ => ?_⟩
      · rw [tail_step, hself]
        omega
      · rw [tail_step, hself]
        omega
      · rw [head_step, gap_succ_right (by rw [gap_self]; omega), gap_self]
        omega
    · refine ⟨d, hd, hlap, hlo, hhi, fun hvacant => ?_⟩
      have hneg := hbefore hvacant
      have hgap := h.gap_head hreach hlo hhi
      have hnonneg := h.gap_nonneg
      simp only [maxReach] at hreach
      rw [head_step, gap_succ_right (by omega)]
      omega

/-- A consumer that overtakes the tail and pulls it along keeps the ring settled. -/
theorem step_catchUp (h : r.Settled reach) (hreach : reach ≤ maxReach)
    (hzero : gap r.tail r.head = 0) : r.step.catchUp.Settled (reach + 1) where
  gap_nonneg := by rw [tail_catchUp, head_catchUp, gap_self]
  gap_lt := by
    have hlt := h.gap_lt
    rw [tail_catchUp, head_catchUp, gap_self]
    omega
  index_lt := h.index_lt_step
  written := by
    intro c
    have hlt := h.gap_lt
    have heq := gap_eq_zero_iff.1 hzero
    obtain ⟨d, hd, hlap, ⟨rfl, -⟩ | ⟨hlo, hhi, -⟩⟩ := h.written_step hreach c
    · have hself := gap_succ_right (c := r.head) (d := r.head) (by rw [gap_self]; omega)
      rw [gap_self] at hself
      refine ⟨r.head, hd, hlap, ?_, ?_, fun _ => ?_⟩
      · rw [tail_catchUp, head_step, hself]
        omega
      · rw [tail_catchUp, head_step, hself]
        omega
      · rw [head_catchUp, head_step, hself]
        omega
    · rw [heq] at hlo hhi
      simp only [maxReach] at hreach
      have hgap := gap_succ_right (c := d) (d := r.head) (by omega)
      refine ⟨d, hd, hlap, ?_, ?_, fun _ => ?_⟩
      · rw [tail_catchUp, head_step, hgap]
        omega
      · rw [tail_catchUp, head_step, hgap]
        omega
      · rw [head_catchUp, head_step, hgap]
        omega

theorem spend (h : r.Settled reach) : r.spend.Settled reach where
  gap_nonneg := h.gap_nonneg
  gap_lt := h.gap_lt
  index_lt := h.index_lt
  written := h.written

end Settled

end CircularQueue.Ring
