import CircularQueue.Ring.Basic

/-!
# Live indices

What a ring holds, apart from how it holds it: an index is live at a cursor if it was published
there and has not been taken since, and the content of the ring is the list of the indices live at
the cursors between head and tail, in the order of the cursors. A cursor in between at which nothing
is live is a gap and adds nothing to the list.
-/

namespace CircularQueue.Ring

variable {k : Order}

/-- The index live at the cursor `c`: the cell has the lap of `c` and is not empty. -/
def liveAt (r : Ring k) (c : Cursor) : Option Nat :=
  if k.lapOf (r.word c) = k.lap c ∧ r.word c ||| k.indexMask ≠ r.word c then
    some (k.indexOf (r.word c))
  else none

/-- The live indices, oldest first. -/
def live (r : Ring k) : List Nat :=
  (List.range r.distance).filterMap fun j => r.liveAt (r.head + j.toUInt64)

theorem live_of_distance_eq_zero {r : Ring k} (h : r.distance = 0) : r.live = [] := by
  simp [live, h]

@[simp] theorem live_empty (k : Order) : (empty k).live = [] :=
  live_of_distance_eq_zero (by simp [distance, empty, gap_self])

@[simp] theorem live_clear (r : Ring k) : r.clear.live = [] := by simp [clear_eq_empty]

end CircularQueue.Ring
