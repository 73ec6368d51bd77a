import CircularQueue.Proofs.Ring.Steps
import CircularQueue.Ring.Live
import Mathlib.Data.List.Basic

/-!
# Rings that other threads have left behind

Between two calls of many threads a ring may have gaps: cursors between head and tail at which
nothing is live, cells closed by consumers or marked unsafe, indices of earlier laps that nobody has
taken yet. What remains of its order is that every word was written at a cursor of its own cell that
lies before the tail, and before the head if the word is vacant. `Ordered` says this through the
cursors from head and tail on; `Near` keeps the distances small enough for signed differences to
mean what they say.

`Settled` is the same in terms of the cursor at which each word was written. It measures from the
tail alone, so that a consumer on its way leaves it as it is.
-/

namespace CircularQueue.Ring

variable {k : Order}

/-- The order that calls keep: no index is live at the tail or later, and vacant cells belong to
laps that the head has left. -/
structure Ordered (r : Ring k) : Prop where
  gap_nonneg : 0 ≤ gap r.tail r.head
  index_lt : ∀ c, ¬ k.Vacant (r.word c) → k.indexOf (r.word c) < k.capacity
  not_live : ∀ c, 0 ≤ gap c r.tail → gap c r.tail < 2 ^ 61 → r.liveAt c = none
  vacant_behind : ∀ c, 0 ≤ gap c r.head → gap c r.head < k.cellCount → k.Vacant (r.word c) →
    k.Behind (r.word c) c

/-- Head and tail, and each word and the next cursor of its cell, are less than `2 ^ 60` apart. In
words a step between cursors counts twice. -/
structure Near (r : Ring k) : Prop where
  gap_lt : gap r.tail r.head < 2 ^ 60
  occupied : ∀ c, 0 ≤ gap c r.tail → gap c r.tail < k.cellCount → ¬ k.Vacant (r.word c) →
    |gap (k.lapOf (r.word c)) (k.lap c)| < 2 ^ 61
  vacant : ∀ c, 0 ≤ gap c r.head → gap c r.head < k.cellCount → k.Vacant (r.word c) →
    |gap (k.lapOf (r.word c)) (k.lap c)| < 2 ^ 61

/-- A state in which any number of threads may leave a ring. -/
structure Orderly (r : Ring k) : Prop extends Ordered r, Near r

/-- Each word was written at a cursor of its cell within `reach` before the tail, a vacant one
before the head. -/
structure Settled (r : Ring k) (reach : Int) : Prop where
  gap_nonneg : 0 ≤ gap r.tail r.head
  gap_lt : gap r.tail r.head < reach
  index_lt : ∀ c, ¬ k.Vacant (r.word c) → k.indexOf (r.word c) < k.capacity
  written : ∀ c, ∃ d, k.cell d = k.cell c ∧ k.lap d = k.lapOf (r.word c) ∧
    -reach < gap d r.tail ∧ gap d r.tail < 0 ∧ (k.Vacant (r.word c) → gap d r.head < 0)

/-- For a given ring it is enough to name the cursor at which the word of each cell was written. -/
theorem settled_of_cells {r : Ring k} {reach : Int} (source : Vector Cursor k.cellCount)
    (h : 0 ≤ gap r.tail r.head ∧ gap r.tail r.head < reach ∧ ∀ x : Fin k.cellCount,
      (¬ k.Vacant (r.cells.get x) → k.indexOf (r.cells.get x) < k.capacity) ∧
      k.cell (source.get x) = x ∧ k.lap (source.get x) = k.lapOf (r.cells.get x) ∧
      -reach < gap (source.get x) r.tail ∧ gap (source.get x) r.tail < 0 ∧
      (k.Vacant (r.cells.get x) → gap (source.get x) r.head < 0)) : r.Settled reach := by
  obtain ⟨hnonneg, hlt, hcells⟩ := h
  exact ⟨hnonneg, hlt, fun c => (hcells (k.cell c)).1,
    fun c => ⟨source.get (k.cell c), (hcells (k.cell c)).2⟩⟩

/-- How far before the tail the words may have been written for signed differences to be right. -/
def maxReach : Int := 2 ^ 61 + 2 ^ 33

theorem liveAt_eq_none_of_vacant {r : Ring k} {c : Cursor} (h : k.Vacant (r.word c)) :
    r.liveAt c = none := by
  have hword : r.word c ||| k.indexMask = r.word c := h
  simp [liveAt, hword]

theorem liveAt_eq_none_of_lap {r : Ring k} {c : Cursor} (h : k.lapOf (r.word c) ≠ k.lap c) :
    r.liveAt c = none := by
  simp [liveAt, h]

theorem liveAt_eq_some {r : Ring k} {c : Cursor} (hlap : k.lapOf (r.word c) = k.lap c)
    (hvacant : ¬ k.Vacant (r.word c)) : r.liveAt c = some (k.indexOf (r.word c)) := by
  have hword : r.word c ||| k.indexMask ≠ r.word c := hvacant
  simp [liveAt, hlap, hword]

namespace Settled

variable {r : Ring k} {reach : Int}

theorem mono (h : r.Settled reach) {reach' : Int} (hle : reach ≤ reach') : r.Settled reach' where
  gap_nonneg := h.gap_nonneg
  gap_lt := by
    have hlt := h.gap_lt
    omega
  index_lt := h.index_lt
  written := by
    intro c
    obtain ⟨d, hcell, hlap, hlo, hhi, hvacant⟩ := h.written c
    exact ⟨d, hcell, hlap, by omega, hhi, hvacant⟩

/-- The cursor at which a word was written, seen from the head. -/
theorem gap_head (h : r.Settled reach) (hreach : reach ≤ maxReach) {d : Cursor}
    (hlo : -reach < gap d r.tail) (hhi : gap d r.tail < 0) :
    gap d r.head = gap d r.tail + gap r.tail r.head := by
  have hnonneg := h.gap_nonneg
  have hlt := h.gap_lt
  simp only [maxReach] at hreach
  exact gap_add_gap (by omega) (by omega)

/-- From the tail on no word has the lap of its cursor. -/
theorem lapOf_ne_lap (h : r.Settled reach) (hreach : reach ≤ maxReach) {c : Cursor}
    (hlo : 0 ≤ gap c r.tail) (hhi : gap c r.tail < 2 ^ 62) : k.lapOf (r.word c) ≠ k.lap c := by
  intro hlapc
  obtain ⟨d, hcell, hlap, hdlo, hdhi, -⟩ := h.written c
  simp only [maxReach] at hreach
  have hgap := gap_eq_sub (a := d) (b := c) r.tail (by omega) (by omega)
  have heq := Order.eq_of_lap_eq hcell (hlap.trans hlapc) (by omega)
  rw [heq] at hdhi
  omega

/-- From the head to a lap past the tail, a vacant word has the lap of an earlier cursor. -/
theorem behind_of_vacant (h : r.Settled reach) (hreach : reach ≤ maxReach) {c : Cursor}
    (hlo : 0 ≤ gap c r.head) (hhi : gap c r.head < gap r.tail r.head + k.cellCount)
    (hvacant : k.Vacant (r.word c)) : k.Behind (r.word c) c := by
  obtain ⟨d, hcell, hlap, hdlo, hdhi, hdhead⟩ := h.written c
  have hcount := k.cellCount_le
  have hd := h.gap_head hreach hdlo hdhi
  have hneg := hdhead hvacant
  have hnonneg := h.gap_nonneg
  have hlt := h.gap_lt
  simp only [maxReach] at hreach
  have hgap := gap_eq_sub (a := d) (b := c) r.head (by omega) (by omega)
  rw [Order.behind_iff hcell hlap (by omega) (by omega)]
  omega

theorem liveAt_eq_none (h : r.Settled reach) (hreach : reach ≤ maxReach) {c : Cursor}
    (hlo : 0 ≤ gap c r.tail) (hhi : gap c r.tail < 2 ^ 62) : r.liveAt c = none :=
  liveAt_eq_none_of_lap (h.lapOf_ne_lap hreach hlo hhi)

theorem ordered (h : r.Settled reach) (hreach : reach ≤ maxReach) : r.Ordered where
  gap_nonneg := h.gap_nonneg
  index_lt := h.index_lt
  not_live := fun c hlo hhi => h.liveAt_eq_none hreach hlo (by omega)
  vacant_behind := by
    intro c hlo hhi hvacant
    have hnonneg := h.gap_nonneg
    exact h.behind_of_vacant hreach hlo (by omega) hvacant

end Settled

/-- Where the words were written says that the ring is orderly, if they are near enough. -/
theorem Settled.orderly {r : Ring k} {reach : Int} (h : r.Settled reach)
    (hreach : reach ≤ 2 ^ 60 - 2 ^ 31) : r.Orderly where
  toOrdered := by
    refine h.ordered ?_
    simp only [maxReach]
    omega
  gap_lt := by
    have hlt := h.gap_lt
    omega
  occupied := by
    intro c hlo hhi _
    have hcount := k.cellCount_le
    obtain ⟨d, hcell, hlap, hdlo, hdhi, -⟩ := h.written c
    have hgap := gap_eq_sub (a := d) (b := c) r.tail (by omega) (by omega)
    rw [← hlap, Order.gap_lap hcell (by omega) (by omega), abs_lt]
    omega
  vacant := by
    intro c hlo hhi _
    have hcount := k.cellCount_le
    have hnonneg := h.gap_nonneg
    have hlt := h.gap_lt
    obtain ⟨d, hcell, hlap, hdlo, hdhi, -⟩ := h.written c
    have hc := gap_eq_sub (a := c) (b := r.tail) r.head (by omega) (by omega)
    have hgap := gap_eq_sub (a := d) (b := c) r.tail (by omega) (by omega)
    rw [← hlap, Order.gap_lap hcell (by omega) (by omega), abs_lt]
    omega

/-- The cursor at which the word of a vacant cell was written. -/
theorem Orderly.written_vacant {r : Ring k} (h : r.Orderly) {c : Cursor}
    (hlo : 0 ≤ gap c r.head) (hhi : gap c r.head < k.cellCount) (hvacant : k.Vacant (r.word c)) :
    ∃ d, k.cell d = k.cell c ∧ k.lap d = k.lapOf (r.word c) ∧
      -2 ^ 60 < gap d r.head ∧ gap d r.head < 0 := by
  have hcount := k.cellCount_le
  obtain ⟨d, hcell, hlap, hdlo, hdhi⟩ := k.exists_lap_eq_lapOf (r.word c) c
  have hbehind := h.vacant_behind c hlo hhi hvacant
  have hnear := abs_lt.1 (h.vacant c hlo hhi hvacant)
  rw [Order.behind_iff hcell hlap hdlo hdhi] at hbehind
  rw [← hlap, Order.gap_lap hcell hdlo hdhi] at hnear
  have hgap := gap_add_gap (a := d) (b := c) (c := r.head) (by omega) (by omega)
  have hdvd := Order.cell_eq_iff_dvd_gap.1 hcell
  have hle := Int.le_of_dvd (by omega) (Int.dvd_neg.2 hdvd)
  exact ⟨d, hcell, hlap, by omega, by omega⟩

/-- The cursor at which the word of an occupied cell was written. -/
theorem Orderly.written_occupied {r : Ring k} (h : r.Orderly) {c : Cursor}
    (hlo : 0 ≤ gap c r.tail) (hhi : gap c r.tail < k.cellCount) (hvacant : ¬ k.Vacant (r.word c)) :
    ∃ d, k.cell d = k.cell c ∧ k.lap d = k.lapOf (r.word c) ∧
      -2 ^ 60 < gap d r.tail ∧ gap d r.tail < 0 := by
  have hcount := k.cellCount_le
  obtain ⟨d, hcell, hlap, hdlo, hdhi⟩ := k.exists_lap_eq_lapOf (r.word c) c
  have hnear := abs_lt.1 (h.occupied c hlo hhi hvacant)
  rw [← hlap, Order.gap_lap hcell hdlo hdhi] at hnear
  have hgap := gap_add_gap (a := d) (b := c) (c := r.tail) (by omega) (by omega)
  refine ⟨d, hcell, hlap, by omega, ?_⟩
  by_contra hge
  have hnone := h.not_live d (by omega) (by omega)
  rw [← word_eq_of_cell_eq hcell] at hlap hvacant
  rw [liveAt_eq_some hlap.symm hvacant] at hnone
  exact Option.some_ne_none _ hnone

theorem Orderly.settled {r : Ring k} (h : r.Orderly) : r.Settled (2 ^ 61) where
  gap_nonneg := h.gap_nonneg
  gap_lt := by
    have hlt := h.gap_lt
    omega
  index_lt := h.index_lt
  written := by
    intro c
    have hcount := k.cellCount_le
    have hnonneg := h.gap_nonneg
    have hlt := h.gap_lt
    -- What is known of a cell is about its first cursor from the head on if it is vacant, and from
    -- the tail on if it is not.
    by_cases hvacant : k.Vacant (r.word c)
    · obtain ⟨j, hj, hcell⟩ := k.exists_cell_add_eq r.head c
      have hgap := gap_add_self (c := r.head) (j := j) (by omega)
      rw [← word_eq_of_cell_eq hcell] at hvacant ⊢
      obtain ⟨d, hd, hlap, hdlo, hdhi⟩ := h.written_vacant (by omega) (by omega) hvacant
      have htail := gap_eq_sub (a := d) (b := r.tail) r.head (by omega) (by omega)
      exact ⟨d, hd.trans hcell, hlap, by omega, by omega, fun _ => hdhi⟩
    · obtain ⟨j, hj, hcell⟩ := k.exists_cell_add_eq r.tail c
      have hgap := gap_add_self (c := r.tail) (j := j) (by omega)
      rw [← word_eq_of_cell_eq hcell] at hvacant ⊢
      obtain ⟨d, hd, hlap, hdlo, hdhi⟩ := h.written_occupied (by omega) (by omega) hvacant
      exact ⟨d, hd.trans hcell, hlap, by omega, hdhi, fun hv => absurd hv hvacant⟩

end CircularQueue.Ring
