import CircularQueue.Proofs.Gap
import CircularQueue.Proofs.Words
import Mathlib.Data.Nat.ModEq
import Mathlib.Data.Int.ModEq
import Mathlib.Data.Fintype.EquivFin

/-!
# Cursors of one cell and their laps

Two cursors have the same cell exactly if they agree modulo the number of cells: the rotation of
the low bits is undone by reading them in another order. Among the cursors of one cell the lap
words are ordered as the cursors are, a step of one lap being a step of `2 * cellCount` in the
words, as long as the cursors are less than `2 ^ 62` apart.

Every word in a cell has the lap of some cursor of that cell, and only one such cursor is near a
given one. So a word is read as "written at the cursor `d`", and comparing laps is comparing
cursors.
-/

namespace CircularQueue

namespace Order

theorem cellCount_dvd_two_pow (k : Order) : k.cellCount ∣ 2 ^ 64 := by
  rw [cellCount_eq_two_pow]
  exact Nat.pow_dvd_pow 2 (by have := k.exponent_add_two_lt; omega)

theorem two_mul_cellCount_dvd_two_pow (k : Order) : 2 * k.cellCount ∣ 2 ^ 64 := by
  rw [two_mul_cellCount_eq_two_pow]
  exact Nat.pow_dvd_pow 2 (by have := k.exponent_add_two_lt; omega)

theorem toNat_and_indexMask (k : Order) (c : Cursor) :
    (c &&& k.indexMask).toNat = c.toNat % k.cellCount := by
  rw [UInt64.toNat_and, toNat_indexMask, cellCount_eq_two_pow, Nat.and_two_pow_sub_one_eq_mod]

/-- Where the bit `i` of a cursor is found in the place of its cell. -/
def placeOfBit (k : Order) (i : Nat) : Nat :=
  if k.exponent + 1 ≤ lineOrder then i
  else if i + lineOrder < k.exponent + 1 then i + lineOrder
  else i + lineOrder - (k.exponent + 1)

/-- The place of a cell is made of the bits of the cursor, so it gives them back. -/
theorem testBit_position (k : Order) (c : Cursor) {i : Nat} (hi : i < k.exponent + 1) :
    (k.position c).toNat.testBit (k.placeOfBit i) = c.toNat.testBit i := by
  have hwidth := k.exponent_add_two_lt
  unfold position placeOfBit
  by_cases hbits : k.exponent + 1 ≤ lineOrder
  · simp only [hbits, ↓reduceIte, UInt64.toNat_and, Nat.testBit_and, testBit_indexMask, hi]
    simp
  · have hright : (k.exponent + 1 - lineOrder).toUInt64.toNat % 64 = k.exponent + 1 - 3 := by
      simp [lineOrder]
      omega
    have hleft : lineOrder.toUInt64.toNat % 64 = 3 := rfl
    simp only [hbits, ↓reduceIte, UInt64.toNat_or, Nat.testBit_or, UInt64.toNat_shiftRight, hright,
      Nat.testBit_shiftRight, UInt64.toNat_and, Nat.testBit_and, testBit_indexMask,
      UInt64.toNat_shiftLeft, hleft, Nat.testBit_mod_two_pow, Nat.testBit_shiftLeft]
    simp only [lineOrder] at *
    grind

theorem cell_eq_iff {k : Order} {c d : Cursor} :
    k.cell c = k.cell d ↔ c.toNat % k.cellCount = d.toNat % k.cellCount := by
  constructor
  · intro h
    rw [cell, cell, Fin.mk.injEq] at h
    rw [cellCount_eq_two_pow]
    apply Nat.eq_of_testBit_eq
    intro i
    rw [Nat.testBit_mod_two_pow, Nat.testBit_mod_two_pow]
    by_cases hi : i < k.exponent + 1
    · rw [← k.testBit_position c hi, ← k.testBit_position d hi, h]
    · simp [hi]
  · intro h
    have hmask : c &&& k.indexMask = d &&& k.indexMask := by
      apply UInt64.toNat_inj.1
      rw [toNat_and_indexMask, toNat_and_indexMask, h]
    have hshift : c <<< lineOrder.toUInt64 &&& k.indexMask =
        d <<< lineOrder.toUInt64 &&& k.indexMask := by
      apply UInt64.toNat_inj.1
      have hthree : lineOrder.toUInt64.toNat % 64 = 3 := rfl
      rw [toNat_and_indexMask, toNat_and_indexMask, UInt64.toNat_shiftLeft, UInt64.toNat_shiftLeft,
        hthree, Nat.shiftLeft_eq, Nat.shiftLeft_eq, Nat.mod_mod_of_dvd _ k.cellCount_dvd_two_pow,
        Nat.mod_mod_of_dvd _ k.cellCount_dvd_two_pow, Nat.mul_mod, h, ← Nat.mul_mod]
    apply Fin.ext
    simp only [cell, position, hmask, hshift]

theorem gap_emod (c d : Cursor) {m : Nat} (hm : m ∣ 2 ^ 64) :
    gap c d % m = ((c.toNat : Int) - d.toNat) % m := by
  have hpow : (m : Int) ∣ (2 ^ 64 : Nat) := Int.natCast_dvd_natCast.2 hm
  rw [← Int.emod_emod_of_dvd _ hpow, gap_eq_bmod, Int.bmod_emod, Int.emod_emod_of_dvd _ hpow]

theorem cell_eq_iff_dvd_gap {k : Order} {c d : Cursor} :
    k.cell c = k.cell d ↔ (k.cellCount : Int) ∣ gap c d := by
  rw [cell_eq_iff, Int.dvd_iff_emod_eq_zero, gap_emod c d k.cellCount_dvd_two_pow,
    ← Int.emod_eq_emod_iff_emod_sub_eq_zero]
  exact_mod_cast Iff.rfl

/-- Fewer than `cellCount` steps never lead back to the same cell. -/
theorem eq_of_cell_eq {k : Order} {c d : Cursor} (h : k.cell c = k.cell d)
    (hlo : -(k.cellCount : Int) < gap c d) (hhi : gap c d < k.cellCount) : c = d := by
  rw [← gap_eq_zero_iff]
  exact Int.eq_zero_of_abs_lt_dvd (cell_eq_iff_dvd_gap.1 h) (abs_lt.2 ⟨hlo, hhi⟩)

theorem cell_ne_of_gap {k : Order} {c d : Cursor} (base : Cursor)
    (hne : gap c base ≠ gap d base) (hlo : -(k.cellCount : Int) < gap c base - gap d base)
    (hhi : gap c base - gap d base < k.cellCount) : k.cell c ≠ k.cell d := by
  have hle := k.cellCount_le
  have hgap := gap_eq_sub (a := c) (b := d) base (by omega) (by omega)
  intro hcell
  exact hne (congrArg (gap · base) (eq_of_cell_eq hcell (by omega) (by omega)))

theorem cell_sub_cellCount (k : Order) (c : Cursor) :
    k.cell (c - k.cellCount.toUInt64) = k.cell c := by
  have hle := k.cellCount_le
  rw [cell_eq_iff_dvd_gap, gap_sub_self (by omega)]
  exact Int.dvd_neg.2 (Int.dvd_refl _)

/-- From any cursor on, one lap visits each cell once. -/
theorem bijective_cell_add (k : Order) (base : Cursor) :
    Function.Bijective fun j : Fin k.cellCount => k.cell (base + (j : Nat).toUInt64) := by
  have hle := k.cellCount_le
  rw [Fintype.bijective_iff_injective_and_card]
  refine ⟨?_, rfl⟩
  intro i j hcell
  have hi := gap_add_self (c := base) (j := i) (by omega)
  have hj := gap_add_self (c := base) (j := j) (by omega)
  by_contra hne
  have hval : (i : Nat) ≠ j := fun heq => hne (Fin.ext heq)
  exact cell_ne_of_gap base (by omega) (by omega) (by omega) hcell

theorem exists_cell_eq (k : Order) (base : Cursor) (x : Fin k.cellCount) :
    ∃ j < k.cellCount, k.cell (base + j.toUInt64) = x := by
  obtain ⟨j, hj⟩ := (k.bijective_cell_add base).surjective x
  exact ⟨j, j.isLt, hj⟩

/-- From any cursor on, each cell comes up within one lap. -/
theorem exists_cell_add_eq (k : Order) (base c : Cursor) :
    ∃ j < k.cellCount, k.cell (base + j.toUInt64) = k.cell c :=
  k.exists_cell_eq base (k.cell c)

theorem toNat_lapOf (k : Order) (w : Word) :
    (k.lapOf w).toNat + w.toNat % (2 * k.cellCount) + 1 = w.toNat + 2 * k.cellCount := by
  have hwidth := k.two_mul_cellCount_eq_two_pow
  have hlow : 2 ^ (k.exponent + 2) - 1 < 2 ^ (k.exponent + 2) :=
    Nat.sub_lt (Nat.two_pow_pos _) Nat.one_pos
  have hsplit : (k.lapOf w).toNat =
      2 ^ (k.exponent + 2) * (w.toNat / 2 ^ (k.exponent + 2)) + (2 ^ (k.exponent + 2) - 1) := by
    apply Nat.eq_of_testBit_eq
    intro i
    rw [lapOf, UInt64.toNat_or, Nat.testBit_or, testBit_belowLap,
      Nat.testBit_two_pow_mul_add _ hlow, Nat.testBit_div_two_pow, Nat.testBit_two_pow_sub_one]
    by_cases hi : i < k.exponent + 2
    · simp [hi]
    · simp [hi, Nat.sub_add_cancel (Nat.le_of_not_lt hi)]
  have hmod := Nat.div_add_mod w.toNat (2 ^ (k.exponent + 2))
  rw [hsplit, hwidth]
  omega

theorem lap_eq_lapOf (k : Order) (c : Cursor) : k.lap c = k.lapOf (c <<< 1) := rfl

/-- The lap word of a cursor is linear in the cursor, apart from its place within the lap. -/
theorem toNat_lap (k : Order) (c : Cursor) :
    (k.lap c).toNat + 2 * (c.toNat % k.cellCount) + 1 =
      2 * c.toNat % 2 ^ 64 + 2 * k.cellCount := by
  have hword : (c <<< 1).toNat = 2 * c.toNat % 2 ^ 64 := by
    simp [Nat.shiftLeft_eq, Nat.mul_comm]
  have hlap := k.toNat_lapOf (c <<< 1)
  rwa [hword, Nat.mod_mod_of_dvd _ k.two_mul_cellCount_dvd_two_pow, Nat.mul_mod_mul_left,
    ← lap_eq_lapOf] at hlap

/-- The first lap. -/
theorem lap_eq_belowLap {k : Order} {c : Cursor} (h : c.toNat < k.cellCount) :
    k.lap c = k.belowLap := by
  have hle := k.cellCount_le
  have hlap := k.toNat_lap c
  have hbelow := k.toNat_belowLap
  have hwidth := k.two_mul_cellCount_eq_two_pow
  rw [Nat.mod_eq_of_lt h] at hlap
  apply UInt64.toNat_inj.1
  omega

theorem toNat_mod_of_gap_neg {k : Order} {c : Cursor} (hlo : -(k.cellCount : Int) ≤ gap c 0)
    (hhi : gap c 0 < 0) : ((c.toNat % k.cellCount : Nat) : Int) = gap c 0 + k.cellCount := by
  have hmod := gap_emod c 0 k.cellCount_dvd_two_pow
  rw [← Int.add_emod_right, Int.emod_eq_of_lt (by omega) (by omega)] at hmod
  rw [hmod, Int.natCast_emod]
  simp

/-- The lap before the first one, which is that of a cell never written. -/
theorem lap_eq_unusedWord {k : Order} {c : Cursor} (hlo : -(k.cellCount : Int) ≤ gap c 0)
    (hhi : gap c 0 < 0) : k.lap c = unusedWord := by
  have hle := k.cellCount_le
  have hlap := k.toNat_lap c
  have hlt := c.toNat_lt
  have hc : (c.toNat : Int) = gap c 0 + 2 ^ 64 := by
    simp only [gap_eq_bmod, Int.bmod, UInt64.toNat_zero] at *
    omega
  have hplace := toNat_mod_of_gap_neg hlo hhi
  have hunused : unusedWord.toNat = 2 ^ 64 - 1 := rfl
  apply UInt64.toNat_inj.1
  omega

theorem lapOf_mod (k : Order) (w : Word) :
    (k.lapOf w).toNat % (2 * k.cellCount) = 2 * k.cellCount - 1 := by
  have hpos := k.cellCount_pos
  have hmod := Nat.div_add_mod w.toNat (2 * k.cellCount)
  have hsplit : (k.lapOf w).toNat =
      2 * k.cellCount * (w.toNat / (2 * k.cellCount)) + (2 * k.cellCount - 1) := by
    have hlap := k.toNat_lapOf w
    omega
  rw [hsplit, Nat.mul_add_mod, Nat.mod_eq_of_lt (by omega)]

/-- Laps differ by a whole number of laps. -/
theorem two_mul_cellCount_dvd_gap (k : Order) (w : Word) (c : Cursor) :
    (2 * k.cellCount : Int) ∣ gap (k.lapOf w) (k.lap c) := by
  have hword : ((k.lapOf w).toNat : Int) % (2 * k.cellCount : Nat) =
      ((k.lap c).toNat : Int) % (2 * k.cellCount : Nat) := by
    exact_mod_cast (k.lapOf_mod w).trans (k.lapOf_mod (c <<< 1)).symm
  apply Int.dvd_of_emod_eq_zero
  have hgap := gap_emod (k.lapOf w) (k.lap c) k.two_mul_cellCount_dvd_two_pow
  rw [Int.emod_eq_emod_iff_emod_sub_eq_zero] at hword
  exact_mod_cast hgap.trans hword

/-- Lap words differ as the beginnings of the two laps do. -/
theorem gap_lap_eq_places {k : Order} {c d : Cursor}
    (hlo : -2 ^ 63 ≤
      2 * gap c d - 2 * (c.toNat % k.cellCount : Nat) + 2 * (d.toNat % k.cellCount : Nat))
    (hhi : 2 * gap c d - 2 * (c.toNat % k.cellCount : Nat) + 2 * (d.toNat % k.cellCount : Nat) <
      2 ^ 63) :
    gap (k.lap c) (k.lap d) =
      2 * gap c d - 2 * (c.toNat % k.cellCount : Nat) + 2 * (d.toNat % k.cellCount : Nat) := by
  have hc := k.toNat_lap c
  have hd := k.toNat_lap d
  have hsteps := toNat_eq_add_gap c d
  have hword := (k.lap c).toNat_lt
  refine gap_eq_of_toNat ?_ hlo hhi
  omega

theorem gap_lap {k : Order} {c d : Cursor} (hcell : k.cell c = k.cell d)
    (hlo : -2 ^ 62 ≤ gap c d) (hhi : gap c d < 2 ^ 62) :
    gap (k.lap c) (k.lap d) = 2 * gap c d := by
  rw [cell_eq_iff] at hcell
  rw [gap_lap_eq_places (by omega) (by omega)]
  omega

/-- Every word in the cell of `c` has the lap of just one cursor `d` of that cell near `c`. -/
theorem exists_lap_eq_lapOf (k : Order) (w : Word) (c : Cursor) :
    ∃ d, k.cell d = k.cell c ∧ k.lap d = k.lapOf w ∧
      -2 ^ 62 ≤ gap d c ∧ gap d c < 2 ^ 62 := by
  obtain ⟨m, hm⟩ := k.two_mul_cellCount_dvd_gap w c
  rw [Int.mul_assoc] at hm
  have hlo := neg_le_gap (k.lapOf w) (k.lap c)
  have hhi := gap_lt (k.lapOf w) (k.lap c)
  let d : Cursor := UInt64.ofNat ((c.toNat + k.cellCount * m) % 2 ^ 64).toNat
  have hd : (d.toNat : Int) = (c.toNat + k.cellCount * m) % 2 ^ 64 := by
    simp only [d, UInt64.toNat_ofNat']
    omega
  have hgap : gap d c = k.cellCount * m := gap_eq_of_toNat hd (by omega) (by omega)
  have hplace : d.toNat % k.cellCount = c.toNat % k.cellCount := by
    have hpow : (k.cellCount : Int) ∣ 2 ^ 64 := by exact_mod_cast k.cellCount_dvd_two_pow
    have hint : (d.toNat : Int) % k.cellCount = (c.toNat : Int) % k.cellCount := by
      rw [hd, Int.emod_emod_of_dvd _ hpow, Int.add_mul_emod_self_left]
    exact_mod_cast hint
  refine ⟨d, cell_eq_iff.2 hplace, ?_, by omega, by omega⟩
  have hlapc := k.toNat_lap c
  have hlapd := k.toNat_lap d
  have hltw := (k.lapOf w).toNat_lt
  have hltd := (k.lap d).toNat_lt
  apply UInt64.toNat_inj.1
  simp only [gap_eq_bmod, Int.bmod] at *
  omega

/-- The lap of a cell tells its cursors apart up to `2 ^ 63` steps. -/
theorem eq_of_lap_eq {k : Order} {c d : Cursor} (hcell : k.cell c = k.cell d)
    (hlap : k.lap c = k.lap d) (hlo : -2 ^ 63 < gap c d) : c = d := by
  have hc := k.toNat_lap c
  have hd := k.toNat_lap d
  rw [cell_eq_iff] at hcell
  rw [← gap_eq_zero_iff]
  rw [hlap] at hc
  simp only [gap_eq_bmod, Int.bmod] at *
  omega

/-- A word written at the cursor `d` lies behind another cursor of its cell if `d` does. -/
theorem behind_iff {k : Order} {w : Word} {c d : Cursor} (hcell : k.cell d = k.cell c)
    (hlap : k.lap d = k.lapOf w) (hlo : -2 ^ 62 ≤ gap d c) (hhi : gap d c < 2 ^ 62) :
    k.Behind w c ↔ gap d c < 0 := by
  rw [Behind, ← hlap, gap_lap hcell hlo hhi]
  omega

end Order

end CircularQueue
