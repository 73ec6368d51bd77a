import CircularQueue.Proofs.Ring.Traffic

/-!
# No index is lost, repeated or overtaken

A call of a consumer takes some of the live indices from the front, none or one, and leaves the
rest. That is an equation between lists, which each look keeps, so it holds of a whole walk. A
producer finds a cell as soon as there is a vacant one anywhere, for the cursor that comes to that
cell in the lap after the tail may use it, and the cursors before it stay gaps. Nothing in this
depends on the threshold, except whether a consumer looks at all.
-/

namespace CircularQueue.Ring

variable {k : Order}

theorem live_catchUp (r : Ring k) : r.catchUp.live = [] :=
  live_eq_nil_of_gap (gap_self _)

theorem catchUp_of_gap {r : Ring k} (h : gap r.tail r.head = 0) : r.catchUp = r := by
  obtain ⟨head, tail, threshold, cells⟩ := r
  have heq : tail = head := gap_eq_zero_iff.1 h
  rw [heq]
  rfl

theorem live_eq_live_step {r : Ring k} (hdue : ¬ r.Due) (hpos : 0 < gap r.tail r.head) :
    r.live = r.step.live := by
  rw [live_eq_of_step hpos, liveAt_eq_none_of_lap hdue]
  rfl

namespace Settled

variable {r : Ring k} {reach : Int}

theorem gap_pos_of_ahead (h : r.Settled reach) (hgap : 0 < gap r.tail (r.head + 1)) :
    0 < gap r.tail r.head := by
  have hnonneg := h.gap_nonneg
  have hsucc := gap_succ_right (c := r.tail) (d := r.head) (by omega)
  omega

theorem gap_pos_of_live (h : r.Settled reach) {i : Nat} {is : List Nat} (hlive : r.live = i :: is) :
    0 < gap r.tail r.head := by
  have hnonneg := h.gap_nonneg
  by_contra hle
  rw [live_eq_nil_of_gap (by omega)] at hlive
  exact List.cons_ne_nil _ _ hlive.symm

/-- A consumer that finds the index due takes the first one. -/
theorem take (h : r.Settled reach) (hreach : reach ≤ maxReach) (hdue : r.Due) :
    r.live = k.indexOf (r.word r.head) :: r.step.live ∧ r.step.Settled reach := by
  have hpos := h.gap_pos_of_due hreach hdue
  rw [live_eq_of_step hpos, h.liveAt_head_of_due hreach hdue]
  exact ⟨rfl, h.step hreach hpos⟩

/-- A consumer that overtakes the tail leaves nothing live behind it. -/
theorem overtake (h : r.Settled reach) (hreach : reach ≤ maxReach) (hdue : ¬ r.Due)
    (hgap : gap r.tail (r.head + 1) ≤ 0) :
    r.step.catchUp.live = r.live ∧ r.step.catchUp.Settled (reach + 1) := by
  have hnonneg := h.gap_nonneg
  rw [live_catchUp]
  rcases hnonneg.eq_or_lt with hzero | hpos
  · exact ⟨(live_eq_nil_of_gap hzero.symm).symm, h.step_catchUp hreach hzero.symm⟩
  · have hlt := h.gap_lt
    have hsucc := gap_succ_right (c := r.tail) (d := r.head) (by omega)
    have hmet : gap r.step.tail r.step.head = 0 := by
      rw [tail_step, head_step]
      omega
    rw [catchUp_of_gap hmet, live_eq_live_step hdue hpos, live_eq_nil_of_gap hmet]
    exact ⟨rfl, (h.step hreach hpos).mono (by omega)⟩

/-- A look that is the last one, since it finds an index or overtakes the tail. -/
theorem probe_of_stop (h : r.Settled reach) (hreach : reach ≤ maxReach)
    (hstop : r.Due ∨ gap r.tail (r.head + 1) ≤ 0) (patience budget : Nat) :
    (r.probe patience budget).1.toList ++ (r.probe patience budget).2.live = r.live ∧
      (r.probe patience budget).2.Settled (reach + 1) := by
  by_cases hdue : r.Due
  · obtain ⟨hlive, hsettled⟩ := h.take hreach hdue
    rw [probe_of_due hdue]
    exact ⟨hlive.symm, hsettled.mono (by omega)⟩
  · have hgap := hstop.resolve_left hdue
    obtain ⟨hlive, hsettled⟩ := h.overtake hreach hdue hgap
    rw [probe_of_overtaken hdue hgap]
    exact ⟨hlive, hsettled.spend⟩

/-- What a consumer takes, followed by what it leaves, is what was live. -/
theorem probe (h : r.Settled reach) (hreach : reach ≤ maxReach) (patience budget : Nat) :
    (r.probe patience budget).1.toList ++ (r.probe patience budget).2.live = r.live ∧
      (r.probe patience budget).2.Settled (reach + 1) := by
  induction budget generalizing r with
  | zero =>
    by_cases hstop : r.Due ∨ gap r.tail (r.head + 1) ≤ 0
    · exact h.probe_of_stop hreach hstop patience 0
    · obtain ⟨hdue, hgap⟩ := not_or.1 hstop
      have hpos := h.gap_pos_of_ahead (Int.not_le.1 hgap)
      have hsettled := (h.step hreach hpos).spend
      rw [probe_zero hdue (Int.not_le.1 hgap), live_eq_live_step hdue hpos]
      exact ⟨rfl, hsettled.mono (by omega)⟩
  | succ budget ih =>
    by_cases hstop : r.Due ∨ gap r.tail (r.head + 1) ≤ 0
    · exact h.probe_of_stop hreach hstop patience (budget + 1)
    · obtain ⟨hdue, hgap⟩ := not_or.1 hstop
      have hpos := h.gap_pos_of_ahead (Int.not_le.1 hgap)
      rw [probe_succ hdue (Int.not_le.1 hgap), live_eq_live_step hdue hpos]
      exact ih (h.step hreach hpos).spend

theorem dequeue (h : r.Settled reach) (hreach : reach ≤ maxReach) :
    r.dequeue.1.toList ++ r.dequeue.2.live = r.live ∧ r.dequeue.2.Settled (reach + 1) := by
  rw [Ring.dequeue, dequeueWith]
  by_cases hspent : r.threshold < 0
  · rw [if_pos hspent]
    exact ⟨rfl, h.mono (by omega)⟩
  · rw [if_neg hspent]
    exact h.probe hreach publishPatience r.threshold.toNat

/-- A consumer that does not give up takes the first live index. -/
theorem seek (h : r.Settled reach) (hreach : reach ≤ maxReach) {i : Nat} {is : List Nat}
    (hlive : r.live = i :: is) (patience : Nat) {looks : Nat} (hlooks : gap r.tail r.head ≤ looks) :
    ∃ r', r.seek patience looks = some (i, r') ∧ r'.live = is ∧ r'.Settled reach := by
  have hpos := h.gap_pos_of_live hlive
  -- Each look that finds nothing brings the head one nearer to the tail.
  induction looks generalizing r with
  | zero => exact absurd hpos (by omega)
  | succ looks ih =>
    by_cases hdue : r.Due
    · obtain ⟨htaken, hsettled⟩ := h.take hreach hdue
      obtain ⟨rfl, rfl⟩ := List.cons_eq_cons.1 (hlive.symm.trans htaken)
      exact ⟨r.step, by rw [Ring.seek, visit_of_due hdue], rfl, hsettled⟩
    · have hsettled := h.step hreach hpos
      have hsucc := gap_succ_right (c := r.tail) (d := r.head) (by omega)
      rw [live_eq_live_step hdue hpos] at hlive
      rw [Ring.seek, visit_of_not_due hdue]
      refine ih hsettled hlive ?_ (hsettled.gap_pos_of_live hlive)
      rw [tail_step, head_step]
      omega

theorem dequeueNonempty (h : r.Settled reach) (hreach : reach ≤ maxReach) {i : Nat}
    {is : List Nat} (hlive : r.live = i :: is) :
    ∃ r', r.dequeueNonempty = some (i, r') ∧ r'.live = is ∧ r'.Settled reach := by
  have hlt := CircularQueue.gap_lt r.tail r.head
  have hcount : (cursorCount : Int) = 2 ^ 64 := by decide
  exact h.seek hreach hlive publishPatience (by omega)

/-- A vacant cell is usable at the tail or in the lap that follows. -/
theorem usable_of_vacant (h : r.Settled reach) (hreach : reach ≤ maxReach) {j : Nat}
    (hj : j < k.cellCount) (hvacant : k.Vacant (r.word (r.tail + j.toUInt64))) :
    r.usable (r.tail + j.toUInt64) = true := by
  have hle := k.cellCount_le
  have hnonneg := h.gap_nonneg
  have hlt := h.gap_lt
  simp only [maxReach] at hreach
  have hgap := gap_add_left (c := r.tail) (d := r.head) (j := j) (by omega)
  have hback := gap_comm (a := r.tail + j.toUInt64) (b := r.head) (by omega)
  have hbehind := h.behind_of_vacant hreach (by omega) (by omega) hvacant
  exact usable_iff.2 ⟨hbehind, hvacant, Or.inr (by omega)⟩

/-- A producer finds a cell within a lap if any is vacant. -/
theorem exists_firstUsable? (h : r.Settled reach) (hreach : reach ≤ maxReach) {c : Cursor}
    (hvacant : k.Vacant (r.word c)) :
    ∃ j < k.cellCount, r.firstUsable? r.tail cursorCount = some (r.tail + j.toUInt64) ∧
      k.Vacant (r.word (r.tail + j.toUInt64)) := by
  obtain ⟨m, hm, hcell⟩ := k.exists_cell_add_eq r.tail c
  rw [← word_eq_of_cell_eq hcell] at hvacant
  -- The first usable cursor may come before that of the vacant cell, but not after it.
  obtain ⟨j, hj, hsearch⟩ := exists_firstUsable?_eq (hm.trans k.cellCount_lt)
    (h.usable_of_vacant hreach hm hvacant)
  exact ⟨j, by omega, hsearch, (usable_iff.1 (firstUsable?_eq_some hsearch)).2.1⟩

/-! A producer at a cursor `j` past the tail. -/

theorem publish (h : r.Settled reach) (hreach : reach ≤ maxReach) {i j : Nat}
    (hi : i < k.capacity) (hj : j < k.cellCount) (nonempty : Bool) :
    (r.publish (r.tail + j.toUInt64) i nonempty).Settled (reach + (j + 1)) where
  gap_nonneg := by
    have hnonneg := h.gap_nonneg
    have hlt := h.gap_lt
    have hle := k.cellCount_le
    simp only [maxReach] at hreach
    rw [tail_publish, head_publish, add_toUInt64_add_one, gap_add_left (by omega)]
    omega
  gap_lt := by
    have hlt := h.gap_lt
    have hle := k.cellCount_le
    simp only [maxReach] at hreach
    rw [tail_publish, head_publish, add_toUInt64_add_one, gap_add_left (by omega)]
    omega
  index_lt := by
    intro c hvacant
    have hfield := Nat.lt_trans hi k.capacity_lt_cellCount
    by_cases hcell : k.cell (r.tail + j.toUInt64) = k.cell c
    · rw [word_publish_of_cell_eq hcell, k.indexOf_published _ hfield]
      exact hi
    · rw [word_publish_of_cell_ne hcell] at hvacant ⊢
      exact h.index_lt c hvacant
  written := by
    intro c
    have hfield := Nat.lt_trans hi k.capacity_lt_cellCount
    have hle := k.cellCount_le
    have hmove := gap_add_self (c := r.tail) (j := j + 1) (by omega)
    rw [tail_publish, head_publish, add_toUInt64_add_one]
    by_cases hcell : k.cell (r.tail + j.toUInt64) = k.cell c
    · have hself := gap_add_self (c := r.tail) (j := j) (by omega)
      have hback := gap_eq_sub (a := r.tail + j.toUInt64) (b := r.tail + (j + 1).toUInt64) r.tail
        (by omega) (by omega)
      have hnonneg := h.gap_nonneg
      have hlt := h.gap_lt
      rw [word_publish_of_cell_eq hcell, k.lapOf_published _ hfield]
      exact ⟨_, hcell, rfl, by omega, by omega, fun hv => absurd hv (k.not_vacant_published _ hi)⟩
    · obtain ⟨d, hd, hlap, hlo, hhi, hbefore⟩ := h.written c
      simp only [maxReach] at hreach
      have hback := gap_eq_sub (a := d) (b := r.tail + (j + 1).toUInt64) r.tail
        (by omega) (by omega)
      rw [word_publish_of_cell_ne hcell]
      exact ⟨d, hd, hlap, by omega, by omega, hbefore⟩

theorem tail_add_eq (h : r.Settled reach) (j : Nat) :
    r.tail + j.toUInt64 = r.head + (r.distance + j).toUInt64 := by
  have htail : r.tail = r.head + r.distance.toUInt64 := eq_add_gap h.gap_nonneg
  rw [add_toUInt64_add, ← htail]

theorem gap_tail_add (h : r.Settled reach) (hreach : reach ≤ maxReach) {j : Nat}
    (hj : j ≤ k.cellCount) : gap (r.tail + j.toUInt64) r.head = (r.distance + j : Nat) := by
  have hle := k.cellCount_le
  have hlt := h.gap_lt
  have hdistance : (r.distance : Int) = gap r.tail r.head := Int.toNat_of_nonneg h.gap_nonneg
  simp only [maxReach] at hreach
  rw [h.tail_add_eq, gap_add_self (by omega)]

/-- Cursors from the tail on add nothing to the live indices. -/
theorem filterMap_liveAt (h : r.Settled reach) (hreach : reach ≤ maxReach) {j : Nat}
    (hj : j < k.cellCount) :
    (List.range (r.distance + j)).filterMap (fun m => r.liveAt (r.head + m.toUInt64)) =
      r.live := by
  have hle := k.cellCount_le
  have hnone : (List.range j).filterMap
      (fun m => r.liveAt (r.head + (r.distance + m).toUInt64)) = [] := by
    rw [List.filterMap_eq_nil_iff]
    intro m hm
    have hlt := List.mem_range.1 hm
    have hgap := gap_add_self (c := r.tail) (j := m) (by omega)
    rw [← h.tail_add_eq]
    exact h.liveAt_eq_none hreach (by omega) (by omega)
  rw [List.range_add, List.filterMap_append, List.filterMap_map]
  simp only [Function.comp_def]
  rw [hnone, List.append_nil, live]

theorem distance_publish (h : r.Settled reach) (hreach : reach ≤ maxReach) {j : Nat}
    (hj : j < k.cellCount) (i : Nat) (nonempty : Bool) :
    (r.publish (r.tail + j.toUInt64) i nonempty).distance = r.distance + j + 1 := by
  apply distance_eq_of_gap
  rw [tail_publish, head_publish, add_toUInt64_add_one, h.gap_tail_add hreach hj, Nat.add_assoc]

theorem live_publish (h : r.Settled reach) (hreach : reach ≤ maxReach) {i j : Nat}
    (hi : i < k.capacity) (hj : j < k.cellCount)
    (hvacant : k.Vacant (r.word (r.tail + j.toUInt64))) (nonempty : Bool) :
    (r.publish (r.tail + j.toUInt64) i nonempty).live = r.live ++ [i] := by
  have hcursor := h.tail_add_eq j
  have hfar := h.gap_tail_add hreach hj.le
  have hlt := CircularQueue.gap_lt (r.tail + j.toUInt64) r.head
  have hlast : (r.publish (r.tail + j.toUInt64) i nonempty).liveAt
      (r.head + (r.distance + j).toUInt64) = some i := by
    have hfield := Nat.lt_trans hi k.capacity_lt_cellCount
    rw [← hcursor, liveAt, word_publish_of_cell_eq rfl, k.lapOf_published _ hfield,
      k.indexOf_published _ hfield]
    exact if_pos ⟨rfl, k.not_vacant_published _ hi⟩
  have hearlier : (List.range (r.distance + j)).filterMap (fun m =>
      (r.publish (r.tail + j.toUInt64) i nonempty).liveAt (r.head + m.toUInt64)) = r.live := by
    rw [← h.filterMap_liveAt hreach hj]
    apply List.filterMap_congr
    intro m hm
    have hm := List.mem_range.1 hm
    have hnear := gap_add_self (c := r.head) (j := m) (by omega)
    have hgap := gap_eq_sub (a := r.head + m.toUInt64) (b := r.tail + j.toUInt64) r.head
      (by omega) (by omega)
    exact liveAt_publish hi hvacant (by omega) (by omega)
  rw [live, h.distance_publish hreach hj, List.range_succ, List.filterMap_append, head_publish,
    hearlier]
  simp only [List.filterMap_cons, hlast, List.filterMap_nil]

/-- While a cell is vacant an index in range is accepted and comes last. -/
theorem enqueue (h : r.Settled reach) (hreach : reach ≤ maxReach) {i : Nat} (hi : i < k.capacity)
    {c : Cursor} (hvacant : k.Vacant (r.word c)) (nonempty : Bool) :
    ∃ r', r.enqueue i nonempty = some (true, r') ∧ r'.live = r.live ++ [i] ∧
      r'.Settled (reach + k.cellCount) := by
  obtain ⟨j, hj, hsearch, hcell⟩ := h.exists_firstUsable? hreach hvacant
  refine ⟨_, by rw [Ring.enqueue, if_pos hi, hsearch], h.live_publish hreach hi hj hcell nonempty,
    (h.publish hreach hi hj nonempty).mono (by omega)⟩

end Settled

/-- In every orderly state, whatever the threshold: a call that may give up either finds nothing and
leaves the live indices as they are, or takes the first of them; a call that knows of an index takes
the first one; and an index in range is accepted and comes last, while a cell is vacant. The state
keeps its order. -/
theorem Orderly.live_after_calls {r : Ring k} (h : r.Orderly) :
    (∀ r', r.dequeue = (none, r') → r'.live = r.live ∧ r'.Ordered) ∧
    (∀ i r', r.dequeue = (some i, r') → r.live = i :: r'.live ∧ r'.Ordered) ∧
    (∀ i is, r.live = i :: is →
      ∃ r', r.dequeueNonempty = some (i, r') ∧ r'.live = is ∧ r'.Ordered) ∧
    (∀ i nonempty, i < k.capacity → (∃ c, k.Vacant (r.word c)) →
      ∃ r', r.enqueue i nonempty = some (true, r') ∧ r'.live = r.live ++ [i] ∧ r'.Ordered) := by
  have hsettled := h.settled
  have hcount := k.cellCount_le
  have hreach : (2 ^ 61 : Int) ≤ maxReach := by decide
  have hnext : (2 ^ 61 : Int) + 1 ≤ maxReach := by decide
  have hfar : (2 ^ 61 : Int) + k.cellCount ≤ maxReach := by
    simp only [maxReach]
    omega
  obtain ⟨hlive, hleft⟩ := hsettled.dequeue hreach
  refine ⟨?_, ?_, ?_, ?_⟩
  · intro r' heq
    rw [heq] at hlive hleft
    exact ⟨hlive, hleft.ordered hnext⟩
  · intro i r' heq
    rw [heq] at hlive hleft
    exact ⟨hlive.symm, hleft.ordered hnext⟩
  · intro i is his
    obtain ⟨r', heq, hrest, hkept⟩ := hsettled.dequeueNonempty hreach his
    exact ⟨r', heq, hrest, hkept.ordered hreach⟩
  · rintro i nonempty hi ⟨c, hvacant⟩
    obtain ⟨r', heq, hlive', hkept⟩ := hsettled.enqueue hreach hi hvacant nonempty
    exact ⟨r', heq, hlive', hkept.ordered hfar⟩

/-- A ring of order one with the tail three cursors ahead of the head. The index one is live at the
middle one. The first was vacant and unsafe before, the last holds an index of the lap before. The
threshold allows one more look. -/
def scarred : Ring Order.one where
  head := 1
  tail := 4
  threshold := 0
  cells := #v[7, 0xFFFFFFFFFFFFFFFB, 5, 0xFFFFFFFFFFFFFFF8]

theorem settled_scarred : scarred.Settled 8 := settled_of_cells #v[0, -3, 2, -1] (by decide)

/-- The first look at `scarred` exhausts the threshold and finds nothing, though an index is live.
A call that knows of the index takes it, and the next one comes after it. -/
theorem live_after_calls_scarred :
    scarred.Orderly ∧ scarred.live = [1] ∧
    (∃ r', scarred.dequeue = (none, r') ∧ r'.live = [1]) ∧
    (∃ r', scarred.dequeueNonempty = some (1, r') ∧ r'.live = []) ∧
    ∃ r', scarred.enqueue 0 true = some (true, r') ∧ r'.live = [1, 0] := by
  have horderly : scarred.Orderly := settled_scarred.orderly (by decide)
  have hlive : scarred.live = [1] := by decide
  have hnone : scarred.dequeue = (none, scarred.step.spend) := by
    rw [dequeue, dequeueWith, if_neg (by decide)]
    exact probe_zero (by decide) (by decide) _
  obtain ⟨hempty, -, htake, hput⟩ := horderly.live_after_calls
  obtain ⟨hleft, -⟩ := hempty _ hnone
  obtain ⟨r, hr, hrest, -⟩ := htake 1 [] hlive
  obtain ⟨s, hs, hlast, -⟩ := hput 0 true (by decide) ⟨0, by decide⟩
  refine ⟨horderly, hlive, ⟨_, hnone, hleft.trans hlive⟩, ⟨r, hr, hrest⟩, ⟨s, hs, ?_⟩⟩
  rw [hlast, hlive]
  rfl

end CircularQueue.Ring
