import CircularQueue.Proofs.Cells
import Mathlib.Data.Fintype.Fin
import Mathlib.Order.Interval.Finset.Nat

/-!
# Neighbours lie on different cache lines

The low bits of a cursor are rotated to give its cell, so the bits of the cell that choose its line
are the lowest of the cursor: the line of a cursor is the cursor modulo the number of lines. As many
consecutive cursors as there are lines have a line each, and the next ones come back to the same
lines in the same order. A lap visits each cell once, so it comes to a line once for each cell that
lies on it.
-/

namespace CircularQueue

/-- The number of bytes of a cell. -/
def cellBytes : Nat := 8

/-- The number of cells that share a cache line. -/
def cellsPerLine : Nat := cacheLineBytes / cellBytes

theorem two_pow_lineOrder : 2 ^ lineOrder = cellsPerLine := rfl

namespace Order

variable {k : Order}

/-- The cache line on which the cell of the cursor `c` lies, counted from that of the first cell. -/
def line (k : Order) (c : Cursor) : Nat := (k.position c).toNat * cellBytes / cacheLineBytes

/-- The number of cache lines that the cells take up, unless they take up less than one. -/
def lineCount (k : Order) : Nat := k.cellCount / cellsPerLine

theorem line_eq_div (k : Order) (c : Cursor) : k.line c = (k.position c).toNat / cellsPerLine :=
  Nat.mul_div_mul_right _ cellsPerLine (show 0 < cellBytes by decide)

theorem testBit_line (k : Order) (c : Cursor) (i : Nat) :
    (k.line c).testBit i = (k.position c).toNat.testBit (i + lineOrder) := by
  rw [line_eq_div, ← two_pow_lineOrder, Nat.testBit_div_two_pow]

theorem lineCount_eq_two_pow (h : lineOrder ≤ k.exponent) :
    k.lineCount = 2 ^ (k.exponent + 1 - lineOrder) := by
  rw [lineCount, ← two_pow_lineOrder, cellCount_eq_two_pow,
    Nat.pow_div (Nat.le_succ_of_le h) Nat.two_pos]

theorem lineCount_dvd_two_pow (h : lineOrder ≤ k.exponent) : k.lineCount ∣ 2 ^ 64 := by
  have hwidth := k.exponent_add_two_lt
  rw [lineCount_eq_two_pow h]
  exact Nat.pow_dvd_pow 2 (by omega)

theorem placeOfBit_of_lt {i : Nat} (hi : i < k.exponent + 1 - lineOrder) :
    k.placeOfBit i = i + lineOrder := by
  rw [placeOfBit, if_neg (by omega), if_pos (by omega)]

theorem line_eq_mod (h : lineOrder ≤ k.exponent) (c : Cursor) :
    k.line c = c.toNat % k.lineCount := by
  apply Nat.eq_of_testBit_eq
  intro i
  rw [testBit_line, lineCount_eq_two_pow h, Nat.testBit_mod_two_pow]
  by_cases hi : i < k.exponent + 1 - lineOrder
  · rw [← placeOfBit_of_lt hi, k.testBit_position c (by omega)]
    simp [hi]
  · -- The number of cells is a power of two, so that no cell has a bit as high as this one.
    have hlt : (k.position c).toNat < 2 ^ (i + lineOrder) :=
      Nat.lt_of_lt_of_le (k.cellCount_eq_two_pow ▸ k.toNat_position_lt c)
        (Nat.pow_le_pow_right Nat.two_pos (by omega))
    simp [Nat.testBit_lt_two_pow hlt, hi]

/-- The order of the rings of sixteen cells, which lie on two lines. -/
def three : Order := ⟨3, by decide⟩

/-- The first cursors of a ring of sixteen cells go to its two lines by turns. -/
example : (List.range 4).map (fun c => three.position c.toUInt64) = [0, 8, 1, 9] := by decide

/-- Cursors that are fewer steps apart than there are lines lie on different lines. -/
theorem injective_line_add (h : lineOrder ≤ k.exponent) (base : Cursor) :
    Function.Injective fun j : Fin k.lineCount => k.line (base + (j : Nat).toUInt64) := by
  intro i j hline
  simp only [line_eq_mod h, toNat_add_toUInt64, Nat.mod_mod_of_dvd _ (lineCount_dvd_two_pow h)]
    at hline
  have hmod : (i : Nat) ≡ j [MOD k.lineCount] := Nat.ModEq.add_left_cancel' base.toNat hline
  exact Fin.ext (hmod.eq_of_lt_of_lt i.isLt j.isLt)

theorem card_cells_of_line {l : Nat} (hl : l < k.lineCount) :
    Finset.card {x : Fin k.cellCount | (x : Nat) / cellsPerLine = l} = cellsPerLine := by
  have hfits : l * cellsPerLine + cellsPerLine ≤ k.cellCount := by
    rw [← Nat.succ_mul]
    exact (Nat.mul_le_mul_right _ hl).trans (Nat.div_mul_le_self _ _)
  have hcells : Finset.map Fin.valEmbedding {x : Fin k.cellCount | (x : Nat) / cellsPerLine = l} =
      Finset.Ico (l * cellsPerLine) (l * cellsPerLine + cellsPerLine) := by
    ext x
    have hpos : 0 < cellsPerLine := by decide
    have hline : x / cellsPerLine = l ↔
        l * cellsPerLine ≤ x ∧ x < l * cellsPerLine + cellsPerLine := by
      rw [Nat.div_eq_iff hpos]
      omega
    simp only [Finset.mem_map, Finset.mem_filter, Finset.mem_univ, true_and, Fin.valEmbedding_apply,
      Finset.mem_Ico, ← hline]
    constructor
    · rintro ⟨y, hy, rfl⟩
      exact hy
    · intro hx
      exact ⟨⟨x, by omega⟩, hx, rfl⟩
  rw [← Finset.card_map Fin.valEmbedding, hcells, Nat.card_Ico, Nat.add_sub_cancel_left]

/-- A lap comes to each line as often as the line has cells. -/
theorem card_cursors_of_line (base : Cursor) {l : Nat} (hl : l < k.lineCount) :
    Finset.card {j : Fin k.cellCount | k.line (base + (j : Nat).toUInt64) = l} = cellsPerLine := by
  rw [← card_cells_of_line hl]
  refine Finset.card_bijective _ (k.bijective_cell_add base) fun j => ?_
  simp only [Finset.mem_filter, Finset.mem_univ, true_and, line_eq_div, cell]

theorem position_eq_iff {c d : Cursor} :
    k.position c = k.position d ↔ c.toNat ≡ d.toNat [MOD k.cellCount] := by
  rw [Nat.ModEq, ← cell_eq_iff, cell, cell, Fin.mk.injEq, UInt64.toNat_inj]

/-- The cells are dealt out to the cursors lap by lap, wherever a lap begins, and their lines in
turn. -/
theorem cells_spread (k : Order) :
    k.cellCount = 2 ^ (k.exponent + 1) ∧
    (∀ c, (k.position c).toNat < k.cellCount) ∧
    (∀ c d, k.position c = k.position d ↔ c.toNat ≡ d.toNat [MOD k.cellCount]) ∧
    (∀ base, Function.Bijective fun j : Fin k.cellCount => k.cell (base + (j : Nat).toUInt64)) ∧
    (3 ≤ k.exponent →
      (∀ c, k.line c = (k.position c).toNat / 8 ∧ k.line c = c.toNat % (k.cellCount / 8)) ∧
      (∀ base, Function.Injective fun j : Fin (k.cellCount / 8) =>
        k.line (base + (j : Nat).toUInt64)) ∧
      ∀ base, ∀ l < k.cellCount / 8,
        Finset.card {j : Fin k.cellCount | k.line (base + (j : Nat).toUInt64) = l} = 8) := by
  refine ⟨k.cellCount_eq_two_pow, k.toNat_position_lt, fun _ _ => position_eq_iff,
    k.bijective_cell_add, fun h => ⟨?_, injective_line_add h, ?_⟩⟩
  · exact fun c => ⟨k.line_eq_div c, line_eq_mod h c⟩
  · exact fun base _ hl => card_cursors_of_line base hl

theorem cells_spread_sixteen :
    3 ≤ three.exponent ∧
      (∀ c, three.line c = (three.position c).toNat / 8 ∧ three.line c = c.toNat % 2) ∧
      (Function.Injective fun j : Fin 2 =>
        three.line (0xFFFFFFFFFFFFFFFF + (j : Nat).toUInt64)) ∧
      ∀ l < 2, Finset.card {j : Fin 16 |
        three.line (0xFFFFFFFFFFFFFFFF + (j : Nat).toUInt64) = l} = 8 := by
  obtain ⟨-, -, -, -, hlines⟩ := cells_spread three
  obtain ⟨hline, hdistinct, hvisits⟩ := hlines (by decide)
  exact ⟨by decide, hline, hdistinct _, hvisits _⟩

end Order

end CircularQueue
