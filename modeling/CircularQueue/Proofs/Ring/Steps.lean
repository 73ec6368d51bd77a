import CircularQueue.Proofs.Cells
import CircularQueue.Ring.Call
import Mathlib.Data.Nat.Find

/-!
# The single steps of producers and consumers

A call on a ring is a walk along the cursors with one step at each cell. A consumer's step is one
equation: it moves the head on and leaves in the cell what `Order.visited` says, whatever the cell
held. A producer's step is a test, and its walk ends at the first cursor that passes it.
-/

namespace CircularQueue.Ring

variable {k : Order}

theorem word_eq_of_cell_eq {r : Ring k} {c d : Cursor} (h : k.cell c = k.cell d) :
    r.word c = r.word d := by
  simp only [word, h]

theorem word_write_of_cell_eq {r : Ring k} {c d : Cursor} {w : Word} (h : k.cell c = k.cell d) :
    (r.write c w).word d = w := by
  rw [word_write, if_pos h]

theorem word_write_of_cell_ne {r : Ring k} {c d : Cursor} {w : Word} (h : k.cell c ≠ k.cell d) :
    (r.write c w).word d = r.word d := by
  rw [word_write, if_neg h]

theorem get_cells_write (r : Ring k) (c : Cursor) (w : Word) (x : Fin k.cellCount) :
    (r.write c w).cells.get x = if k.cell c = x then w else r.cells.get x := by
  simp only [Fin.ext_iff]
  exact Vector.getElem_set (k.cell c).isLt x.isLt

/-- The ring after a consumer has passed the cell at its head. -/
def step (r : Ring k) : Ring k :=
  { r with head := r.head + 1 }.write r.head (k.visited r.head (r.word r.head))

@[simp] theorem head_step (r : Ring k) : r.step.head = r.head + 1 := rfl

@[simp] theorem tail_step (r : Ring k) : r.step.tail = r.tail := rfl

@[simp] theorem threshold_step (r : Ring k) : r.step.threshold = r.threshold := rfl

theorem word_step_of_cell_eq {r : Ring k} {c : Cursor} (h : k.cell r.head = k.cell c) :
    r.step.word c = k.visited r.head (r.word r.head) :=
  word_write_of_cell_eq h

theorem word_step_of_cell_ne {r : Ring k} {c : Cursor} (h : k.cell r.head ≠ k.cell c) :
    r.step.word c = r.word c :=
  word_write_of_cell_ne h

theorem get_cells_step (r : Ring k) (x : Fin k.cellCount) :
    r.step.cells.get x =
      if k.cell r.head = x then k.visited r.head (r.cells.get x) else r.cells.get x := by
  rw [step, get_cells_write]
  split
  · rename_i hcell
    rw [← hcell]
    rfl
  · rfl

/-- The index published for the cursor at the head is due there. -/
def Due (r : Ring k) : Prop := k.lapOf (r.word r.head) = k.lap r.head

instance (r : Ring k) : Decidable r.Due := inferInstanceAs (Decidable (_ = _))

theorem visit_eq (r : Ring k) (patience : Nat) :
    r.visit patience =
      (if r.Due then some (k.indexOf (r.word r.head)) else none, r.step) := by
  have hword : ({ r with head := r.head + 1 } : Ring k).word r.head = r.word r.head := rfl
  have hself := ({ r with head := r.head + 1 } : Ring k).write_word_self r.head
  rw [hword] at hself
  unfold visit step Order.visited Due
  simp only [look_eq_sight, hword, Order.sight, ← Order.vacant_iff_or_safeFlag]
  by_cases hlap : k.lapOf (r.word r.head) = k.lap r.head
  · simp [hlap]
  · by_cases hvacant : k.Vacant (r.word r.head)
    · by_cases hbehind : k.Behind (r.word r.head) r.head
      · simp [hlap, hvacant, hbehind]
      · simp [hlap, hvacant, hbehind, hself]
    · by_cases hbehind : k.Behind (r.word r.head) r.head
      · by_cases hsafe : r.word r.head = k.clearSafe (r.word r.head)
        · simp [hlap, hvacant, hbehind, ← hsafe, hself]
        · simp [hlap, hvacant, hbehind, hsafe]
      · simp [hlap, hvacant, hbehind, hself]

/-- The ring with one unit of the threshold used up. -/
def spend (r : Ring k) : Ring k := { r with threshold := r.threshold - 1 }

/-- The ring with the tail pulled up to the head. -/
def catchUp (r : Ring k) : Ring k := { r with tail := r.head }

@[simp] theorem head_spend (r : Ring k) : r.spend.head = r.head := rfl

@[simp] theorem tail_spend (r : Ring k) : r.spend.tail = r.tail := rfl

@[simp] theorem threshold_spend (r : Ring k) : r.spend.threshold = r.threshold - 1 := rfl

@[simp] theorem word_spend (r : Ring k) (c : Cursor) : r.spend.word c = r.word c := rfl

@[simp] theorem head_catchUp (r : Ring k) : r.catchUp.head = r.head := rfl

@[simp] theorem tail_catchUp (r : Ring k) : r.catchUp.tail = r.head := rfl

@[simp] theorem threshold_catchUp (r : Ring k) : r.catchUp.threshold = r.threshold := rfl

@[simp] theorem word_catchUp (r : Ring k) (c : Cursor) : r.catchUp.word c = r.word c := rfl

theorem visit_of_due {r : Ring k} (h : r.Due) (patience : Nat) :
    r.visit patience = (some (k.indexOf (r.word r.head)), r.step) := by
  rw [visit_eq, if_pos h]

theorem visit_of_not_due {r : Ring k} (h : ¬ r.Due) (patience : Nat) :
    r.visit patience = (none, r.step) := by
  rw [visit_eq, if_neg h]

theorem probe_of_due {r : Ring k} (h : r.Due) (patience budget : Nat) :
    r.probe patience budget = (some (k.indexOf (r.word r.head)), r.step) := by
  cases budget <;> rw [probe, visit_of_due h]

theorem probe_of_overtaken {r : Ring k} (h : ¬ r.Due) (hgap : gap r.tail (r.head + 1) ≤ 0)
    (patience budget : Nat) : r.probe patience budget = (none, r.step.catchUp.spend) := by
  cases budget <;> rw [probe, visit_of_not_due h] <;> exact if_pos hgap

theorem probe_zero {r : Ring k} (h : ¬ r.Due) (hgap : 0 < gap r.tail (r.head + 1))
    (patience : Nat) : r.probe patience 0 = (none, r.step.spend) := by
  rw [probe, visit_of_not_due h]
  exact if_neg (Int.not_le.2 hgap)

theorem probe_succ {r : Ring k} (h : ¬ r.Due) (hgap : 0 < gap r.tail (r.head + 1))
    (patience budget : Nat) :
    r.probe patience (budget + 1) = r.step.spend.probe patience budget := by
  rw [probe, visit_of_not_due h]
  exact if_neg (Int.not_le.2 hgap)

/-- A producer may write a cell that is empty and of an earlier lap, if it is safe or no consumer
has gone past. -/
theorem usable_iff {r : Ring k} {t : Cursor} :
    r.usable t = true ↔ k.Behind (r.word t) t ∧ k.Vacant (r.word t) ∧
      (r.word t = k.lapOf (r.word t) ∨ gap r.head t ≤ 0) := by
  rw [Order.vacant_iff_eq_lapOf, usable, Order.admission]
  by_cases hbehind : k.Behind (r.word t) t
  · by_cases hfree : r.word t = k.lapOf (r.word t)
    · simp [hbehind, ← hfree]
    · by_cases hguarded : r.word t = k.lapOf (r.word t) ^^^ k.safeFlag
      · simp [hbehind, hfree, ← hguarded]
      · simp [hbehind, hfree, hguarded]
  · simp [hbehind]

@[simp] theorem head_publish (r : Ring k) (t : Cursor) (i : Nat) (nonempty : Bool) :
    (r.publish t i nonempty).head = r.head := rfl

@[simp] theorem tail_publish (r : Ring k) (t : Cursor) (i : Nat) (nonempty : Bool) :
    (r.publish t i nonempty).tail = t + 1 := rfl

@[simp] theorem threshold_publish (r : Ring k) (t : Cursor) (i : Nat) (nonempty : Bool) :
    (r.publish t i nonempty).threshold = if nonempty then r.threshold else k.fullThreshold := rfl

theorem word_publish_of_cell_eq {r : Ring k} {t c : Cursor} {i : Nat} {nonempty : Bool}
    (h : k.cell t = k.cell c) : (r.publish t i nonempty).word c = k.published t i :=
  word_write_of_cell_eq h

theorem word_publish_of_cell_ne {r : Ring k} {t c : Cursor} {i : Nat} {nonempty : Bool}
    (h : k.cell t ≠ k.cell c) : (r.publish t i nonempty).word c = r.word c :=
  word_write_of_cell_ne h

theorem get_cells_publish (r : Ring k) (t : Cursor) (i : Nat) (nonempty : Bool)
    (x : Fin k.cellCount) :
    (r.publish t i nonempty).cells.get x =
      if k.cell t = x then k.published t i else r.cells.get x :=
  r.get_cells_write t (k.published t i) x

theorem firstUsable?_eq_find? (r : Ring k) (t : Cursor) (attempts : Nat) :
    r.firstUsable? t attempts =
      ((List.range attempts).find? fun j => r.usable (t + j.toUInt64)).map
        (t + ·.toUInt64) := by
  induction attempts generalizing t with
  | zero => rfl
  | succ attempts ih =>
    have hzero : t + (0 : Nat).toUInt64 = t := UInt64.add_zero t
    rw [firstUsable?, List.range_succ_eq_map, List.find?_cons, hzero]
    cases husable : r.usable t with
    | true => simp
    | false =>
      rw [ih, List.find?_map]
      simp only [Function.comp_def, Nat.succ_eq_add_one, add_toUInt64_succ, Option.map_map]
      rfl

/-- The search ends at the first usable cursor. -/
theorem firstUsable?_eq_of_forall {r : Ring k} {t : Cursor} {j attempts : Nat}
    (hlt : j < attempts) (husable : r.usable (t + j.toUInt64) = true)
    (hfirst : ∀ i < j, r.usable (t + i.toUInt64) = false) :
    r.firstUsable? t attempts = some (t + j.toUInt64) := by
  have hfind : ((List.range attempts).find? fun i => r.usable (t + i.toUInt64)) = some j := by
    rw [List.find?_range_eq_some]
    exact ⟨husable, List.mem_range.2 hlt, fun i hi => by simp [hfirst i hi]⟩
  rw [firstUsable?_eq_find?, hfind, Option.map_some]

/-- A search that would come to a usable cursor ends there or before. -/
theorem exists_firstUsable?_eq {r : Ring k} {t : Cursor} {m attempts : Nat} (hlt : m < attempts)
    (husable : r.usable (t + m.toUInt64) = true) :
    ∃ j ≤ m, r.firstUsable? t attempts = some (t + j.toUInt64) := by
  have hexists : ∃ j : Nat, r.usable (t + j.toUInt64) = true := ⟨m, husable⟩
  have hle : Nat.find hexists ≤ m := Nat.find_min' hexists husable
  refine ⟨Nat.find hexists, hle,
    firstUsable?_eq_of_forall (by omega) (Nat.find_spec hexists) fun i hi => ?_⟩
  exact eq_false_of_ne_true (Nat.find_min hexists hi)

/-! Filling a ring writes every cell once. -/

theorem fold_writeCell (f : Nat → Word) (cells : Vector Word k.cellCount) (c : Cursor) {m : Nat}
    (hm : m ≤ k.cellCount) :
    (m.fold (fun j _ cells => writeCell cells j.toUInt64 (f j)) cells)[k.cell c] =
      if c.toNat % k.cellCount < m then f (c.toNat % k.cellCount) else cells[k.cell c] := by
  induction m with
  | zero => rfl
  | succ m ih =>
    have hle := k.cellCount_le
    have hm64 : m.toUInt64.toNat = m := Nat.mod_eq_of_lt (show m < 2 ^ 64 by omega)
    have hcell : (k.cell m.toUInt64 : Nat) = k.cell c ↔ m = c.toNat % k.cellCount := by
      rw [← Fin.ext_iff, Order.cell_eq_iff, hm64, Nat.mod_eq_of_lt hm]
    rw [Nat.fold_succ, writeCell, Fin.getElem_fin, Vector.getElem_set]
    by_cases hlast : m = c.toNat % k.cellCount
    · rw [if_pos (hcell.2 hlast), if_pos (by omega), hlast]
    · rw [if_neg (mt hcell.1 hlast), ← Fin.getElem_fin, ih (by omega)]
      grind

theorem word_fillRange (r : Ring k) {start stop : Nat} (hrange : start ≤ stop)
    (hstop : stop ≤ k.capacity) (c : Cursor) :
    (r.fillRange start stop hrange hstop).word c =
      filledWord k start stop (c.toNat % k.cellCount) := by
  have hlt := Nat.mod_lt c.toNat k.cellCount_pos
  rw [word, fillRange, fold_writeCell _ _ _ (Nat.le_refl _), if_pos hlt]

end CircularQueue.Ring
