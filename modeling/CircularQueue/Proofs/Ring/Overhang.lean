import CircularQueue.Proofs.Ring.Landing
import Mathlib.Data.Finset.Lattice.Fold
import Mathlib.Order.Lattice.Nat

/-!
# How far a producer has to go

A producer's walk has no bound of its own. It passes a cursor whose cell holds an index, is marked
while a consumer has gone past, or has been closed for this lap or a later one. But the walk moves
on and the words stay: a lap after the tail has come past the head and past the beginning of every
cell's lap, neither the laps nor the marks stand in the way any more, and one more lap comes to
every cell. So a single vacant cell anywhere is enough, whatever the other words are, and the walk
is no longer than the lead of the head or of the laps over the tail, and two laps.
-/

namespace CircularQueue

namespace Order

variable {k : Order} {w : Word} {c d : Cursor}

/-- The lap that the word `w` names begins at the cursor `d`. -/
def StartsLap (k : Order) (d : Cursor) (w : Word) : Prop :=
  d.toNat % k.cellCount = 0 ∧ k.lap d = k.lapOf w

instance (k : Order) (d : Cursor) (w : Word) : Decidable (k.StartsLap d w) :=
  inferInstanceAs (Decidable (_ ∧ _))

/-- A cursor of the lap lies after its beginning by its place in the lap. -/
theorem StartsLap.gap_eq (hstart : k.StartsLap d w) (hlap : k.lap c = k.lapOf w)
    (hlo : -2 ^ 62 ≤ gap c d) : gap c d = (c.toNat % k.cellCount : Nat) := by
  obtain ⟨hfirst, hlapd⟩ := hstart
  have hcount := k.cellCount_le
  have hplace := Nat.mod_lt c.toNat k.cellCount_pos
  have hc := k.toNat_lap c
  have hd := k.toNat_lap d
  rw [hlap] at hc
  rw [hlapd, hfirst] at hd
  simp only [gap_eq_bmod, Int.bmod] at *
  omega

/-- A word is behind every cursor that comes a lap or more after the beginning of the word's lap. -/
theorem StartsLap.behind (hstart : k.StartsLap d w) (hlo : k.cellCount ≤ gap c d)
    (hhi : gap c d < 2 ^ 62) : k.Behind w c := by
  obtain ⟨e, hcell, hlap, helo, hehi⟩ := k.exists_lap_eq_lapOf w c
  have hplace := Nat.mod_lt e.toNat k.cellCount_pos
  have hsum := gap_add_gap (a := e) (b := c) (c := d) (by omega) (by omega)
  have hgap := hstart.gap_eq hlap (by omega)
  rw [behind_iff hcell hlap helo hehi]
  omega

end Order

namespace Ring

open Interleaving

variable {k : Order} {r : Ring k}

/-- How far the head, or a lap that begins at one of the cursors `start`, is ahead of the tail. -/
def overhang (r : Ring k) (start : Fin k.cellCount → Cursor) : Nat :=
  max (gap r.head r.tail).toNat (Finset.univ.sup fun x => (gap (start x) r.tail).toNat)

theorem gap_head_le_overhang (r : Ring k) (start : Fin k.cellCount → Cursor) :
    gap r.head r.tail ≤ r.overhang start := by
  have hle : (gap r.head r.tail).toNat ≤ r.overhang start := le_max_left _ _
  omega

theorem gap_start_le_overhang (r : Ring k) (start : Fin k.cellCount → Cursor)
    (x : Fin k.cellCount) : gap (start x) r.tail ≤ r.overhang start := by
  have hsup : (gap (start x) r.tail).toNat ≤ r.overhang start :=
    (Finset.le_sup (f := fun x => (gap (start x) r.tail).toNat) (Finset.mem_univ x)).trans
      (le_max_right _ _)
  omega

theorem overhang_le {start : Fin k.cellCount → Cursor} {m : Nat} (hhead : gap r.head r.tail ≤ m)
    (hstart : ∀ x, gap (start x) r.tail ≤ m) : r.overhang start ≤ m := by
  refine max_le (by omega) (Finset.sup_le fun x _ => ?_)
  have hx := hstart x
  omega

section

variable {start : Fin k.cellCount → Cursor} (hstart : ∀ x, k.StartsLap (start x) (r.cells.get x))
  (hnear : ∀ x, |gap (start x) r.tail| < 2 ^ 60) (hhead : |gap r.head r.tail| < 2 ^ 60)

include hstart hnear hhead

/-- A lap past the overhang every vacant cell is open. -/
theorem openAt_of_overhang_le {m : Nat} (hm : r.overhang start + k.cellCount ≤ m)
    (hfar : m < 2 ^ 61) (hvacant : k.Vacant (r.word (r.tail + m.toUInt64))) :
    r.OpenAt (r.tail + m.toUInt64) := by
  have hgap := gap_add_self (c := r.tail) (j := m) (by omega)
  have hahead := r.gap_head_le_overhang start
  have hlap := r.gap_start_le_overhang start (k.cell (r.tail + m.toUInt64))
  have hhead := abs_lt.1 hhead
  have hnear := abs_lt.1 (hnear (k.cell (r.tail + m.toUInt64)))
  have hlead := gap_eq_sub (a := r.head) (b := r.tail + m.toUInt64) r.tail (by omega) (by omega)
  have hlate := gap_eq_sub (a := r.tail + m.toUInt64)
    (b := start (k.cell (r.tail + m.toUInt64))) r.tail (by omega) (by omega)
  have hbehind := (hstart (k.cell (r.tail + m.toUInt64))).behind (c := r.tail + m.toUInt64)
    (by omega) (by omega)
  exact ⟨hbehind, hvacant, .inr (by omega)⟩

/-- The walk of a producer ends within the overhang and two laps. -/
theorem exists_firstOpen {x : Fin k.cellCount} (hvacant : k.Vacant (r.cells.get x)) :
    ∃ j < r.overhang start + 2 * k.cellCount,
      r.firstUsable? r.tail cursorCount = some (r.tail + j.toUInt64) := by
  have hcount := k.cellCount_le
  have hcursors : cursorCount = 2 ^ 64 := by decide
  have hover : r.overhang start ≤ 2 ^ 60 :=
    overhang_le (abs_lt.1 hhead).2.le fun x => (abs_lt.1 (hnear x)).2.le
  obtain ⟨j, hj, rfl⟩ := k.exists_cell_eq
    (r.tail + (r.overhang start + k.cellCount).toUInt64) x
  have hword : k.Vacant (r.word (r.tail + (r.overhang start + k.cellCount + j).toUInt64)) := by
    rw [add_toUInt64_add]
    exact hvacant
  have hopen := openAt_of_overhang_le hstart hnear hhead (by omega) (by omega) hword
  have hlt : r.overhang start + k.cellCount + j < cursorCount := by omega
  obtain ⟨m, hm, hsearch⟩ := exists_firstUsable?_eq hlt (usable_iff_openAt.2 hopen)
  exact ⟨m, by omega, hsearch⟩

end

/-- As long as a cell is vacant a call with an index in range returns, whatever the other cells
hold, and so does a producer that goes from access to access. It publishes at the first open cursor
and moves the tail on by no more than the overhang and two laps. -/
theorem enqueue_returns (r : Ring k) {i : Nat} (hi : i < k.capacity) (nonempty : Bool)
    {start : Fin k.cellCount → Cursor} (hstart : ∀ x, k.StartsLap (start x) (r.cells.get x))
    (hnear : ∀ x, |gap (start x) r.tail| < 2 ^ 60) (hhead : |gap r.head r.tail| < 2 ^ 60)
    (hvacant : ∃ x, k.Vacant (r.cells.get x)) :
    ∃ t r', r.enqueue i nonempty = some (true, r') ∧ Producer.Ends i nonempty r .reserve r' ∧
      r.FirstOpen t ∧ r.Lands r' t i nonempty ∧
      ∃ j ≤ r.overhang start + 2 * k.cellCount, r'.tail = r.tail + j.toUInt64 := by
  obtain ⟨x, hvacant⟩ := hvacant
  obtain ⟨j, hj, hsearch⟩ := exists_firstOpen hstart hnear hhead hvacant
  have hopen := usable_iff_openAt.1 (firstUsable?_eq_some hsearch)
  refine ⟨_, _, by rw [enqueue, if_pos hi, hsearch], Producer.ends_of_firstUsable hsearch,
    firstUsable?_eq_some_iff.1 hsearch, lands_publish hi hopen nonempty, j + 1, by omega, ?_⟩
  rw [tail_publish, add_toUInt64_add_one]

/-- A ring of order one whose only vacant cell is the last of a lap, unsafe, and closed in the lap
that begins at the head. The others hold indices of four laps. -/
def closedAhead : Ring Order.one where
  head := 8
  tail := 4
  threshold := 0
  cells := #v[5, 12, 0xFFFFFFFFFFFFFFF9, 19]

/-- The first cursors of the laps of its cells. -/
def closedAheadLaps : Vector Cursor Order.one.cellCount := #v[0, 4, -4, 8]

/-- The producer comes to the vacant cell three times before it may use it: its walk is as long as a
walk can be. -/
theorem enqueue_returns_closedAhead :
    (∀ x, Order.one.StartsLap (closedAheadLaps.get x) (closedAhead.cells.get x)) ∧
    closedAhead.overhang closedAheadLaps.get = 4 ∧
    ∃ r', closedAhead.enqueue 1 false = some (true, r') ∧
      (∃ j ≤ 4 + 2 * Order.one.cellCount, r'.tail = closedAhead.tail + j.toUInt64) ∧
      r'.tail = closedAhead.tail + (4 + 2 * Order.one.cellCount).toUInt64 := by
  have hlaps : ∀ x, Order.one.StartsLap (closedAheadLaps.get x) (closedAhead.cells.get x) := by
    decide
  have hnear : ∀ x, |gap (closedAheadLaps.get x) closedAhead.tail| < 2 ^ 60 := by decide
  have hover : closedAhead.overhang closedAheadLaps.get = 4 := by decide
  have henqueue : closedAhead.enqueue 1 false = some (true, closedAhead.publish 15 1 false) := by
    decide +kernel
  obtain ⟨t, r', hcall, -, -, -, hwalk⟩ := enqueue_returns closedAhead (i := 1) (by decide) false
    hlaps hnear (by decide) ⟨Order.one.cell 3, by decide⟩
  rw [hover] at hwalk
  refine ⟨hlaps, hover, r', hcall, hwalk, ?_⟩
  rw [henqueue] at hcall
  cases hcall
  decide

end Ring

end CircularQueue
