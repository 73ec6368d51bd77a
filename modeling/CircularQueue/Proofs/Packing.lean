import CircularQueue.Proofs.Cells
import Mathlib.Algebra.Order.Group.Unbundled.Abs

/-!
# What a packed word tells

The three fields of a word do not overlap and leave no bit out, so a word is settled by its fields.
The index field has one bit more than an index needs, which tells every index from the empty mark,
also in the smallest ring, where the only index is `0` and the mark is `1`.

The lap loses the top bit of the cursor. Two cursors of one cell have the same lap exactly if they
agree modulo `2 ^ 63`, so a consumer that mistakes the index of another lap for its own has come at
least `2 ^ 63` steps too far or not far enough. Of cursors closer than `2 ^ 61` steps the signed
difference of the laps says how often the ring is gone round in between, wherever the count of
cursors wraps round.
-/

namespace CircularQueue

/-- The gap is the number of steps from `b` to `a`. -/
theorem gap_eq_of_modEq {a b : Cursor} {d : Int} (hd : |d| < 2 ^ 63)
    (h : (a.toNat : Int) ≡ b.toNat + d [ZMOD 2 ^ 64]) : gap a b = d := by
  obtain ⟨hlo, hhi⟩ := abs_lt.1 hd
  have hlt := a.toNat_lt
  refine gap_eq_of_toNat ?_ hlo.le hhi
  rw [← h.eq]
  omega

namespace Order

variable {k : Order}

/-! ## The fields of one word -/

/-- A word is made of its fields. -/
theorem eq_of_fields {v w : Word} (hindex : k.indexOf v = k.indexOf w)
    (hsafe : v &&& k.safeFlag = w &&& k.safeFlag) (hlap : k.lapOf v = k.lapOf w) : v = w := by
  apply eq_of_testBit
  intro i hi
  have hindexBit := congrArg (Nat.testBit · i) hindex
  have hsafeBit := congrArg (fun x : Word => x.toNat.testBit i) hsafe
  have hlapBit := congrArg (fun x : Word => x.toNat.testBit i) hlap
  simp only [testBit_indexOf] at hindexBit
  simp only [UInt64.toNat_and, Nat.testBit_and, testBit_safeFlag] at hsafeBit
  simp only [lapOf, UInt64.toNat_or, Nat.testBit_or, testBit_belowLap] at hlapBit
  rcases Nat.lt_trichotomy i (k.exponent + 1) with hlow | hflag | hhigh
  · simpa [hlow] using hindexBit
  · simpa [hflag] using hsafeBit
  · simpa [show ¬ i < k.exponent + 2 by omega] using hlapBit

theorem indexOf_lt (k : Order) (w : Word) : k.indexOf w < k.cellCount := k.toNat_and_indexMask_lt w

/-- The word `w` bears the index `i`, published at the cursor `t`, and gives way to the empty safe
word of that cursor when the index is taken. -/
structure Bears (k : Order) (w : Word) (t : Cursor) (i : Nat) : Prop where
  index : (w &&& k.indexMask).toNat = i
  not_mark : w &&& k.indexMask ≠ k.indexMask
  safe : w &&& k.safeFlag = k.safeFlag
  lap : w ||| k.belowLap = (t <<< 1) ||| k.belowLap
  spent : w ||| k.indexMask = (t <<< 1) ||| k.belowLap

theorem bears_published (t : Cursor) {i : Nat} (hi : i < k.capacity) :
    k.Bears (k.published t i) t i := by
  have hlt : i < k.cellCount := Nat.lt_trans hi k.capacity_lt_cellCount
  have hindex : k.indexOf (k.published t i) = i := k.indexOf_published t hlt
  refine ⟨hindex, ?_, k.published_and_safeFlag t hlt, k.lapOf_published t hlt,
    k.emptied_published t hlt⟩
  -- The mark is the last number of the index field, and the indices are its lower half.
  intro hmark
  have hcount := k.cellCount_eq
  rw [indexOf, hmark, toNat_indexMask] at hindex
  omega

theorem Bears.eq_published {w : Word} {t : Cursor} {i : Nat} (h : k.Bears w t i) :
    w = k.published t i := by
  have hi : i < k.cellCount := h.index ▸ k.indexOf_lt w
  refine eq_of_fields (k := k) ?_ ?_ ?_
  · rw [k.indexOf_published t hi]
    exact h.index
  · rw [k.published_and_safeFlag t hi]
    exact h.safe
  · rw [k.lapOf_published t hi]
    exact h.lap

/-- The lap of a cursor is the one word of that lap which is empty and safe. -/
theorem eq_lap_iff {w : Word} {t : Cursor} :
    w = k.lap t ↔ w &&& k.indexMask = k.indexMask ∧ w &&& k.safeFlag = k.safeFlag ∧
      w ||| k.belowLap = k.lap t := by
  have hindex := indexOf_of_vacant (k.vacant_lap t)
  constructor
  · rintro rfl
    refine ⟨UInt64.toNat_inj.1 ?_, k.lap_and_safeFlag t, k.lapOf_lap t⟩
    rw [toNat_indexMask]
    exact hindex
  · rintro ⟨hmark, hsafe, hlap⟩
    refine eq_of_fields ?_ ?_ (hlap.trans (k.lapOf_lap t).symm)
    · rw [hindex, indexOf, hmark, toNat_indexMask]
    · rw [hsafe, lap_and_safeFlag]

/-! ## The laps of two cursors -/

section

variable {a b : Cursor} {w : Word}

theorem lap_eq_lap_iff (hcell : k.cell a = k.cell b) :
    k.lap a = k.lap b ↔ a.toNat ≡ b.toNat [MOD 2 ^ 63] := by
  have ha := k.toNat_lap a
  have hb := k.toNat_lap b
  rw [cell_eq_iff] at hcell
  rw [← UInt64.toNat_inj, Nat.ModEq]
  omega

/-- A consumer takes the index of a word for its own by the lap alone. -/
theorem sight_eq_due_iff_modEq (hcell : k.cell a = k.cell b) (hw : k.lapOf w = k.lap a) (i : Nat) :
    k.sight b w = .due i ↔ a.toNat ≡ b.toNat [MOD 2 ^ 63] ∧ k.indexOf w = i := by
  rw [sight_eq_due_iff, hw, lap_eq_lap_iff hcell]

/-- An index of another lap is never taken for a fresh one, unless it is `2 ^ 63` steps away. -/
theorem sight_ne_due (hcell : k.cell a = k.cell b) (hw : k.lapOf w = k.lap a) (hne : a ≠ b)
    (hlo : -2 ^ 63 < gap a b) (i : Nat) : k.sight b w ≠ .due i := by
  rw [ne_eq, sight_eq_due_iff]
  rintro ⟨hlap, -⟩
  exact hne (eq_of_lap_eq hcell (hw.symm.trans hlap) hlo)

/-- Lap words differ by the number of laps between them, whatever the places of the cursors in
their laps. -/
theorem gap_lap_eq_laps (hlo : -2 ^ 61 ≤ gap a b) (hhi : gap a b ≤ 2 ^ 61) :
    gap (k.lap a) (k.lap b) =
      2 * k.cellCount * ((b.toNat + gap a b) / k.cellCount - (b.toNat : Int) / k.cellCount) := by
  have hcount := k.cellCount_le
  have hplacea := Nat.mod_lt a.toNat k.cellCount_pos
  have hplaceb := Nat.mod_lt b.toNat k.cellCount_pos
  have hplace : (b.toNat + gap a b) % k.cellCount = (a.toNat % k.cellCount : Nat) := by
    have hmod : gap a b ≡ a.toNat - b.toNat [ZMOD k.cellCount] :=
      gap_emod a b k.cellCount_dvd_two_pow
    rw [(hmod.add_left b.toNat).eq, add_sub_cancel]
    rfl
  have ha := Int.mul_ediv_add_emod (b.toNat + gap a b) k.cellCount
  have hb := Int.mul_ediv_add_emod b.toNat k.cellCount
  rw [hplace] at ha
  rw [gap_lap_eq_places (by omega) (by omega), Int.mul_assoc, Int.mul_sub]
  omega

/-- The laps of the cursors `a` and `b` compare as `a` and `b` do, if `a` is `d` steps from `b`, and
every word `w` of the lap of `a` compares with `b` accordingly. -/
structure LapsCompare (k : Order) (a b : Cursor) (d : Int) : Prop where
  gap_lap : gap (k.lap a) (k.lap b) =
    2 * k.cellCount * ((b.toNat + d) / k.cellCount - (b.toNat : Int) / k.cellCount)
  lap_eq_iff : k.lap a = k.lap b ↔ (b.toNat + d) / k.cellCount = (b.toNat : Int) / k.cellCount
  behind_iff : ∀ w, k.lapOf w = k.lap a →
    (k.Behind w b ↔ (b.toNat + d) / k.cellCount < (b.toNat : Int) / k.cellCount)
  gap_lap_of_cell_eq : k.cell a = k.cell b → gap (k.lap a) (k.lap b) = 2 * d
  behind_iff_of_cell_eq : k.cell a = k.cell b → ∀ w, k.lapOf w = k.lap a → (k.Behind w b ↔ d < 0)

theorem lapsCompare (hlo : -2 ^ 61 ≤ gap a b) (hhi : gap a b ≤ 2 ^ 61) :
    k.LapsCompare a b (gap a b) where
  gap_lap := gap_lap_eq_laps hlo hhi
  lap_eq_iff := by
    have hpos := k.cellCount_pos
    rw [← gap_eq_zero_iff, gap_lap_eq_laps hlo hhi, Int.mul_eq_zero, Int.sub_eq_zero]
    exact or_iff_right (by omega)
  behind_iff := by
    intro w hw
    have hpos := k.cellCount_pos
    rw [Behind, hw, gap_lap_eq_laps hlo hhi, Int.mul_neg_iff]
    omega
  gap_lap_of_cell_eq := fun hcell => gap_lap hcell (by omega) (by omega)
  behind_iff_of_cell_eq := fun hcell _ hw => Order.behind_iff hcell hw.symm (by omega) (by omega)

end

/-- The order of the rings of two cells, which hold one index. -/
def zero : Order := ⟨0, by decide⟩

/-- A word gives back the index and the lap it was made from, and laps compare as the cursors do. -/
theorem words_faithful (k : Order) :
    (k.cellCount = 2 ^ (k.exponent + 1) ∧ k.safeFlag.toNat = k.cellCount ∧
      k.indexMask.toNat = k.cellCount - 1 ∧ k.belowLap.toNat = 2 * k.cellCount - 1) ∧
    (∀ (t : Cursor) (i : Nat), i < 2 ^ k.exponent →
      k.published t i = ((t <<< 1) ||| k.belowLap) ^^^ i.toUInt64 ^^^ k.indexMask ∧
      ∀ w, w = k.published t i ↔ k.Bears w t i) ∧
    (∀ (t : Cursor) (w : Word), w = (t <<< 1) ||| k.belowLap ↔
      w &&& k.indexMask = k.indexMask ∧ w &&& k.safeFlag = k.safeFlag ∧
        w ||| k.belowLap = (t <<< 1) ||| k.belowLap) ∧
    (∀ a b, k.cell a = k.cell b →
      (k.lap a = k.lap b ↔ a.toNat ≡ b.toNat [MOD 2 ^ 63]) ∧
      (∀ w, k.lapOf w = k.lap a →
        ∀ i, k.sight b w = .due i ↔ a.toNat ≡ b.toNat [MOD 2 ^ 63] ∧ k.indexOf w = i) ∧
      ∀ d : Int, d ≠ 0 → |d| < 2 ^ 63 → (a.toNat : Int) ≡ b.toNat + d [ZMOD 2 ^ 64] →
        ∀ w, k.lapOf w = k.lap a → ∀ i, k.sight b w ≠ .due i) ∧
    ∀ (a b : Cursor) (d : Int), |d| < 2 ^ 61 → (a.toNat : Int) ≡ b.toNat + d [ZMOD 2 ^ 64] →
      k.LapsCompare a b d := by
  refine ⟨⟨k.cellCount_eq_two_pow, k.toNat_safeFlag, k.toNat_indexMask, ?_⟩, ?_, ?_, ?_, ?_⟩
  · rw [toNat_belowLap, two_mul_cellCount_eq_two_pow]
  · intro t i hi
    rw [← capacity_eq_two_pow] at hi
    refine ⟨(UInt64.xor_assoc _ _ _).symm, fun w => ⟨?_, Bears.eq_published⟩⟩
    rintro rfl
    exact bears_published t hi
  · exact fun t w => eq_lap_iff
  · intro a b hcell
    refine ⟨lap_eq_lap_iff hcell, fun w hw i => sight_eq_due_iff_modEq hcell hw i, ?_⟩
    intro d hd habs hsteps w hw
    have hgap := gap_eq_of_modEq habs hsteps
    have hbounds := abs_lt.1 habs
    refine sight_ne_due hcell hw ?_ (by omega)
    rw [ne_eq, ← gap_eq_zero_iff, hgap]
    exact hd
  · intro a b d habs hsteps
    have hbounds := abs_lt.1 habs
    have hgap := gap_eq_of_modEq (habs.trans (by decide)) hsteps
    rw [← hgap]
    exact lapsCompare (by omega) (by omega)

theorem words_faithful_smallest :
    0 < 2 ^ zero.exponent ∧ zero.Bears (zero.published 5 0) 5 0 ∧
      zero.cell 1 = zero.cell 0xFFFFFFFFFFFFFFFF ∧
      zero.sight 0xFFFFFFFFFFFFFFFF (zero.published 1 0) ≠ .due 0 ∧
      zero.LapsCompare 1 0xFFFFFFFFFFFFFFFF 2 := by
  obtain ⟨-, hpublished, -, hlaps, hcompare⟩ := words_faithful zero
  have hindex : 0 < 2 ^ zero.exponent := by decide
  have hcell : zero.cell 1 = zero.cell 0xFFFFFFFFFFFFFFFF := by decide
  have hsteps :
      ((1 : Cursor).toNat : Int) ≡ (0xFFFFFFFFFFFFFFFF : Cursor).toNat + 2 [ZMOD 2 ^ 64] := by
    decide
  obtain ⟨-, -, hnever⟩ := hlaps _ _ hcell
  exact ⟨hindex, ((hpublished 5 0 hindex).2 _).1 rfl, hcell,
    hnever 2 (by decide) (by decide) hsteps _ (by decide) 0, hcompare _ _ 2 (by decide) hsteps⟩

end Order

end CircularQueue
