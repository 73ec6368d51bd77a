import CircularQueue.Word
import Mathlib.Algebra.Order.Ring.Int
import Mathlib.Algebra.Ring.Nat

/-!
# What the operations on words do to their fields

A word has an index field, a safe flag and a lap, and every operation on words sets, keeps or
compares these. The laws here say which. They are proved bit by bit: `testBit` of the three masks
is a comparison with the width of the index field, and every other word is made from the masks, so
two words are equal as soon as they agree below the width, at the flag and above it.

A word is `Vacant` if its index field is the empty mark.
-/

namespace CircularQueue

theorem eq_of_testBit {v w : Word}
    (h : ∀ i < 64, v.toNat.testBit i = w.toNat.testBit i) : v = w := by
  apply UInt64.toNat_inj.1
  apply Nat.eq_of_testBit_eq
  intro i
  rcases Nat.lt_or_ge i 64 with hi | hi
  · exact h i hi
  · have hlt (x : Word) : x.toNat.testBit i = false :=
      Nat.testBit_lt_two_pow (Nat.lt_of_lt_of_le x.toNat_lt (Nat.pow_le_pow_right (by decide) hi))
    rw [hlt, hlt]

theorem testBit_shiftLeft_one (c : UInt64) {i : Nat} (hi : i < 64) :
    (c <<< 1).toNat.testBit i = (decide (0 < i) && c.toNat.testBit (i - 1)) := by
  have hword : (c <<< 1).toNat = 2 * c.toNat % 2 ^ 64 := by
    simp [Nat.shiftLeft_eq, Nat.mul_comm]
  rw [hword, Nat.testBit_mod_two_pow]
  cases i with
  | zero => simp
  | succ i => simp [hi, Nat.testBit_succ]

@[simp] theorem testBit_not (w : Word) {i : Nat} (hi : i < 64) :
    (~~~w).toNat.testBit i = !w.toNat.testBit i := by
  rw [← UInt64.toNat_toBitVec, ← UInt64.toNat_toBitVec, BitVec.testBit_toNat, BitVec.testBit_toNat,
    UInt64.toBitVec_not, BitVec.getLsbD_not]
  simp [hi]

namespace Order

theorem cellCount_eq_two_pow (k : Order) : k.cellCount = 2 ^ (k.exponent + 1) := by
  rw [cellCount_eq, capacity, Nat.one_shiftLeft, Nat.pow_succ, Nat.mul_comm]

theorem two_mul_cellCount_eq_two_pow (k : Order) : 2 * k.cellCount = 2 ^ (k.exponent + 2) := by
  rw [cellCount_eq_two_pow, ← Nat.pow_succ']

theorem capacity_eq_two_pow (k : Order) : k.capacity = 2 ^ k.exponent := by
  rw [capacity, Nat.one_shiftLeft]

theorem cellCount_le (k : Order) : k.cellCount ≤ 2 ^ 31 := by
  have h := k.capacity_le
  rw [cellCount_eq]
  simp only [maxOrder] at h
  omega

theorem capacity_lt_cellCount (k : Order) : k.capacity < k.cellCount := by
  have hpos := k.capacity_pos
  rw [cellCount_eq]
  omega

theorem fullThreshold_pos (k : Order) : 0 < k.fullThreshold := by
  have hpos := k.capacity_pos
  simp only [fullThreshold]
  omega

theorem exponent_add_two_lt (k : Order) : k.exponent + 2 < 64 := by
  have h := k.exponent_le
  simp only [maxOrder] at h
  omega

theorem toNat_double_safeFlag (k : Order) : (2 * k.safeFlag).toNat = 2 * k.cellCount := by
  have hle := k.cellCount_le
  rw [UInt64.toNat_mul, toNat_safeFlag]
  exact Nat.mod_eq_of_lt (show 2 * k.cellCount < 2 ^ 64 by omega)

theorem toNat_belowLap (k : Order) : k.belowLap.toNat = 2 ^ (k.exponent + 2) - 1 := by
  have hpos := k.cellCount_pos
  have hone : 1 ≤ 2 * k.safeFlag := by
    rw [UInt64.le_iff_toNat_le, toNat_double_safeFlag]
    simp
    omega
  rw [belowLap, UInt64.toNat_sub_of_le _ _ hone, toNat_double_safeFlag,
    two_mul_cellCount_eq_two_pow]
  rfl

@[simp] theorem testBit_safeFlag (k : Order) (i : Nat) :
    k.safeFlag.toNat.testBit i = decide (i = k.exponent + 1) := by
  rw [toNat_safeFlag, cellCount_eq_two_pow, Nat.testBit_two_pow]
  simp only [eq_comm]

@[simp] theorem testBit_indexMask (k : Order) (i : Nat) :
    k.indexMask.toNat.testBit i = decide (i < k.exponent + 1) := by
  rw [toNat_indexMask, cellCount_eq_two_pow, Nat.testBit_two_pow_sub_one]

@[simp] theorem testBit_belowLap (k : Order) (i : Nat) :
    k.belowLap.toNat.testBit i = decide (i < k.exponent + 2) := by
  rw [toNat_belowLap, Nat.testBit_two_pow_sub_one]

theorem testBit_lap (k : Order) (c : Cursor) {i : Nat} (hi : i < 64) :
    (k.lap c).toNat.testBit i = (decide (i < k.exponent + 2) || c.toNat.testBit (i - 1)) := by
  simp only [lap, UInt64.toNat_or, Nat.testBit_or, testBit_shiftLeft_one c hi, testBit_belowLap]
  grind

theorem testBit_index {k : Order} {i : Nat} (hi : i < k.cellCount) (j : Nat) :
    i.toUInt64.toNat.testBit j = (decide (j < k.exponent + 1) && i.testBit j) := by
  have hle := k.cellCount_le
  have hword : i.toUInt64.toNat = i := Nat.mod_eq_of_lt (show i < 2 ^ 64 by omega)
  rw [hword]
  by_cases hj : j < k.exponent + 1
  · simp [hj]
  · rw [cellCount_eq_two_pow] at hi
    have hbit : i.testBit j = false :=
      Nat.testBit_lt_two_pow (Nat.lt_of_lt_of_le hi (Nat.pow_le_pow_right (by decide) (by omega)))
    simp [hj, hbit]

theorem testBit_published (k : Order) (c : Cursor) {i j : Nat} (hi : i < k.cellCount)
    (hj : j < 64) :
    (k.published c i).toNat.testBit j =
      if j < k.exponent + 1 then i.testBit j else (k.lap c).toNat.testBit j := by
  simp only [published, UInt64.toNat_xor, Nat.testBit_xor, testBit_index hi, testBit_indexMask,
    testBit_lap k c hj]
  by_cases h : j < k.exponent + 1
  · have h' : j < k.exponent + 2 := by omega
    simp [h, h']
  · simp [h]

/-! The lap of a word. -/

@[simp] theorem lapOf_lap (k : Order) (c : Cursor) : k.lapOf (k.lap c) = k.lap c := by
  rw [lapOf, lap, UInt64.or_assoc, UInt64.or_self]

@[simp] theorem lapOf_emptied (k : Order) (w : Word) : k.lapOf (k.emptied w) = k.lapOf w := by
  apply eq_of_testBit
  intro i hi
  simp only [lapOf, emptied, UInt64.toNat_or, Nat.testBit_or, testBit_belowLap, testBit_indexMask]
  grind

theorem behind_emptied_iff {k : Order} {w : Word} {c : Cursor} :
    k.Behind (k.emptied w) c ↔ k.Behind w c := by
  rw [Behind, Behind, lapOf_emptied]

@[simp] theorem lapOf_clearSafe (k : Order) (w : Word) :
    k.lapOf (k.clearSafe w) = k.lapOf w := by
  apply eq_of_testBit
  intro i hi
  simp only [lapOf, clearSafe, UInt64.toNat_or, UInt64.toNat_and, Nat.testBit_or, Nat.testBit_and,
    testBit_not _ hi, testBit_belowLap, testBit_safeFlag]
  grind

@[simp] theorem lapOf_closed (k : Order) (h : Cursor) (w : Word) :
    k.lapOf (k.closed h w) = k.lap h := by
  apply eq_of_testBit
  intro i hi
  simp only [lapOf, closed, UInt64.toNat_or, UInt64.toNat_and, UInt64.toNat_xor, Nat.testBit_or,
    Nat.testBit_xor, Nat.testBit_and, testBit_not _ hi, testBit_belowLap, testBit_safeFlag,
    testBit_lap k h hi]
  grind

@[simp] theorem lapOf_published (k : Order) (c : Cursor) {i : Nat} (hi : i < k.cellCount) :
    k.lapOf (k.published c i) = k.lap c := by
  apply eq_of_testBit
  intro j hj
  simp only [lapOf, UInt64.toNat_or, Nat.testBit_or, testBit_published k c hi hj, testBit_belowLap,
    testBit_lap k c hj]
  grind

/-! The index field of a word. -/

/-- The index field of the word `w` is the empty mark. -/
def Vacant (k : Order) (w : Word) : Prop := k.emptied w = w

instance (k : Order) (w : Word) : Decidable (k.Vacant w) := inferInstanceAs (Decidable (_ = _))

theorem vacant_iff_testBit {k : Order} {w : Word} :
    k.Vacant w ↔ ∀ i < k.exponent + 1, w.toNat.testBit i = true := by
  have hwidth := k.exponent_add_two_lt
  constructor
  · intro h i hi
    rw [← show k.emptied w = w from h, emptied, UInt64.toNat_or, Nat.testBit_or, testBit_indexMask]
    simp [hi]
  · intro h
    apply eq_of_testBit
    intro i hi
    rw [emptied, UInt64.toNat_or, Nat.testBit_or, testBit_indexMask]
    by_cases hlow : i < k.exponent + 1
    · simp [h i hlow]
    · simp [hlow]

@[simp] theorem vacant_emptied (k : Order) (w : Word) : k.Vacant (k.emptied w) := by
  rw [Vacant, emptied, emptied, UInt64.or_assoc, UInt64.or_self]

@[simp] theorem vacant_lap (k : Order) (c : Cursor) : k.Vacant (k.lap c) := by
  rw [vacant_iff_testBit]
  intro i hi
  have hwidth := k.exponent_add_two_lt
  rw [testBit_lap k c (by omega)]
  simp only [Bool.or_eq_true, decide_eq_true_eq]
  omega

@[simp] theorem vacant_closed (k : Order) (h : Cursor) (w : Word) : k.Vacant (k.closed h w) := by
  rw [vacant_iff_testBit]
  intro i hi
  have hwidth := k.exponent_add_two_lt
  simp only [closed, UInt64.toNat_and, UInt64.toNat_xor, Nat.testBit_xor, Nat.testBit_and,
    testBit_lap k h (show i < 64 by omega), testBit_safeFlag]
  grind

@[simp] theorem vacant_clearSafe_iff {k : Order} {w : Word} :
    k.Vacant (k.clearSafe w) ↔ k.Vacant w := by
  have hwidth := k.exponent_add_two_lt
  rw [vacant_iff_testBit, vacant_iff_testBit]
  refine forall₂_congr fun i hi => ?_
  rw [clearSafe, UInt64.toNat_and, Nat.testBit_and, testBit_not _ (by omega), testBit_safeFlag]
  grind

theorem vacant_iff_or_safeFlag {k : Order} {w : Word} :
    k.Vacant w ↔ w ||| k.safeFlag = k.lapOf w := by
  have hwidth := k.exponent_add_two_lt
  rw [vacant_iff_testBit]
  constructor
  · intro h
    apply eq_of_testBit
    intro i hi
    simp only [lapOf, UInt64.toNat_or, Nat.testBit_or, testBit_safeFlag, testBit_belowLap]
    grind
  · intro h i hi
    have hbit := congrArg (fun v : Word => v.toNat.testBit i) h
    simp only [lapOf, UInt64.toNat_or, Nat.testBit_or, testBit_safeFlag, testBit_belowLap] at hbit
    grind

theorem vacant_iff_eq_lapOf {k : Order} {w : Word} :
    k.Vacant w ↔ w = k.lapOf w ∨ w = k.lapOf w ^^^ k.safeFlag := by
  have hwidth := k.exponent_add_two_lt
  rw [vacant_iff_testBit]
  constructor
  · intro h
    by_cases hsafe : w.toNat.testBit (k.exponent + 1) = true
    · left
      apply eq_of_testBit
      intro i hi
      simp only [lapOf, UInt64.toNat_or, Nat.testBit_or, testBit_belowLap]
      grind
    · right
      apply eq_of_testBit
      intro i hi
      simp only [lapOf, UInt64.toNat_or, UInt64.toNat_xor, Nat.testBit_or, Nat.testBit_xor,
        testBit_belowLap, testBit_safeFlag]
      grind
  · rintro (h | h) i hi
    · rw [h, lapOf, UInt64.toNat_or, Nat.testBit_or, testBit_belowLap]
      grind
    · rw [h]
      simp only [lapOf, UInt64.toNat_or, UInt64.toNat_xor, Nat.testBit_or, Nat.testBit_xor,
        testBit_belowLap, testBit_safeFlag]
      grind

theorem testBit_indexOf (k : Order) (w : Word) (j : Nat) :
    (k.indexOf w).testBit j = (decide (j < k.exponent + 1) && w.toNat.testBit j) := by
  rw [indexOf, UInt64.toNat_and, Nat.testBit_and, testBit_indexMask, Bool.and_comm]

/-- The index field of a vacant word is full. -/
theorem indexOf_of_vacant {k : Order} {w : Word} (hw : k.Vacant w) :
    k.indexOf w = k.cellCount - 1 := by
  rw [← k.toNat_indexMask, ← show k.emptied w = w from hw, indexOf, emptied]
  apply Nat.eq_of_testBit_eq
  intro i
  rw [UInt64.toNat_and, UInt64.toNat_or, Nat.testBit_and, Nat.testBit_or]
  cases k.indexMask.toNat.testBit i <;> simp

@[simp] theorem indexOf_clearSafe (k : Order) (w : Word) :
    k.indexOf (k.clearSafe w) = k.indexOf w := by
  have hwidth := k.exponent_add_two_lt
  apply Nat.eq_of_testBit_eq
  intro j
  rw [testBit_indexOf, testBit_indexOf]
  by_cases hj : j < k.exponent + 1
  · rw [clearSafe, UInt64.toNat_and, Nat.testBit_and, testBit_not _ (by omega), testBit_safeFlag]
    grind
  · simp [hj]

@[simp] theorem indexOf_published (k : Order) (c : Cursor) {i : Nat} (hi : i < k.cellCount) :
    k.indexOf (k.published c i) = i := by
  have hwidth := k.exponent_add_two_lt
  have hindex := testBit_index hi
  rw [show i.toUInt64.toNat = i from
    Nat.mod_eq_of_lt (show i < 2 ^ 64 by have := k.cellCount_le; omega)] at hindex
  apply Nat.eq_of_testBit_eq
  intro j
  rw [testBit_indexOf, hindex]
  by_cases hj : j < k.exponent + 1
  · rw [testBit_published k c hi (by omega)]
    simp [hj]
  · simp [hj]

/-- In the first lap an index that equals its cursor is published by raising the safe flag. -/
theorem published_self {k : Order} {c : Cursor} (h : c.toNat < k.cellCount) :
    k.published c c.toNat = k.safeFlag + c := by
  have hle := k.cellCount_le
  have hsum : (k.safeFlag + c).toNat = 2 ^ (k.exponent + 1) * 1 + c.toNat := by
    rw [UInt64.toNat_add, toNat_safeFlag, Nat.mod_eq_of_lt (by omega), cellCount_eq_two_pow,
      Nat.mul_one]
  have hc : c.toNat < 2 ^ (k.exponent + 1) := k.cellCount_eq_two_pow ▸ h
  apply eq_of_testBit
  intro j hj
  rw [testBit_published k c h hj, testBit_lap k c hj, hsum, Nat.testBit_two_pow_mul_add 1 hc]
  by_cases hlow : j < k.exponent + 1
  · simp [hlow]
  · have hone : (1 : Nat).testBit (j - (k.exponent + 1)) = decide (j = k.exponent + 1) := by
      rw [← Nat.pow_zero 2, Nat.testBit_two_pow, decide_eq_decide]
      omega
    simp only [hlow, ↓reduceIte, hone]
    by_cases hflag : j = k.exponent + 1
    · simp [hflag]
    · have hbit : c.toNat.testBit (j - 1) = false :=
        Nat.testBit_lt_two_pow
          (Nat.lt_of_lt_of_le hc (Nat.pow_le_pow_right (by decide) (by omega)))
      simp only [hbit, hflag, Bool.or_false, decide_false, decide_eq_false_iff_not]
      omega

@[simp] theorem emptied_published (k : Order) (c : Cursor) {i : Nat} (hi : i < k.cellCount) :
    k.emptied (k.published c i) = k.lap c := by
  apply eq_of_testBit
  intro j hj
  simp only [emptied, UInt64.toNat_or, Nat.testBit_or, testBit_published k c hi hj,
    testBit_indexMask, testBit_lap k c hj]
  grind

/-- A cell closed by a consumer keeps its safe flag, so an empty safe cell becomes one of the
consumer's lap. -/
@[simp] theorem closed_lap (k : Order) (h c : Cursor) : k.closed h (k.lap c) = k.lap h := by
  apply eq_of_testBit
  intro i hi
  simp only [closed, UInt64.toNat_and, UInt64.toNat_xor, Nat.testBit_xor, Nat.testBit_and,
    testBit_not _ hi, testBit_lap k h hi, testBit_lap k c hi, testBit_safeFlag]
  grind

/-- An index that a ring may hold never fills its field. -/
theorem not_vacant_published (k : Order) (c : Cursor) {i : Nat} (hi : i < k.capacity) :
    ¬ k.Vacant (k.published c i) := by
  have hlt : i < k.cellCount := by rw [cellCount_eq]; omega
  have hwidth := k.exponent_add_two_lt
  rw [vacant_iff_testBit]
  intro h
  have htop := h k.exponent (by omega)
  rw [testBit_published k c hlt (by omega), if_pos (by omega),
    Nat.testBit_lt_two_pow (k.capacity_eq_two_pow ▸ hi)] at htop
  exact absurd htop (by decide)

/-! The safe flag of a word. -/

@[simp] theorem lap_and_safeFlag (k : Order) (c : Cursor) :
    k.lap c &&& k.safeFlag = k.safeFlag := by
  apply eq_of_testBit
  intro i hi
  simp only [UInt64.toNat_and, Nat.testBit_and, testBit_lap k c hi, testBit_safeFlag]
  grind

@[simp] theorem published_and_safeFlag (k : Order) (c : Cursor) {i : Nat} (hi : i < k.cellCount) :
    k.published c i &&& k.safeFlag = k.safeFlag := by
  apply eq_of_testBit
  intro j hj
  simp only [UInt64.toNat_and, Nat.testBit_and, testBit_published k c hi hj, testBit_lap k c hj,
    testBit_safeFlag]
  grind

/-! What a consumer makes of a word. -/

/-- The word that a consumer at the cursor `h` leaves in a cell that read `w`. An index due is
taken, a cell of an earlier lap is barred, and a cell of a later lap is left alone. -/
def visited (k : Order) (h : Cursor) (w : Word) : Word :=
  if k.lapOf w = k.lap h then k.emptied w
  else if k.Behind w h then
    if k.Vacant w then k.closed h w else k.clearSafe w
  else w

/-- A consumer does not touch a word that is neither due nor behind it. -/
theorem visited_eq_self {k : Order} {h : Cursor} {w : Word} (hlap : k.lapOf w ≠ k.lap h)
    (hbehind : ¬ k.Behind w h) : k.visited h w = w := by
  rw [visited, if_neg hlap, if_neg hbehind]

theorem lapOf_visited (k : Order) (h : Cursor) (w : Word) :
    k.lapOf (k.visited h w) = if k.Behind w h ∧ k.Vacant w then k.lap h else k.lapOf w := by
  unfold visited
  split
  · rename_i hlap
    simp [not_behind_of_lapOf_eq hlap]
  · split <;> rename_i hbehind
    · split <;> rename_i hvacant
      · simp [hbehind, hvacant]
      · simp [hbehind, hvacant]
    · simp [hbehind]

theorem vacant_visited_iff {k : Order} {h : Cursor} {w : Word} :
    k.Vacant (k.visited h w) ↔ k.Vacant w ∨ k.lapOf w = k.lap h := by
  unfold visited
  split
  · rename_i hlap
    simp [hlap]
  · rename_i hlap
    split
    · split <;> rename_i hvacant
      · simp [hvacant]
      · simp [hvacant, hlap]
    · simp [hlap]

theorem indexOf_visited {k : Order} {h : Cursor} {w : Word} (hlap : k.lapOf w ≠ k.lap h)
    (hvacant : ¬ k.Vacant w) : k.indexOf (k.visited h w) = k.indexOf w := by
  unfold visited
  simp only [hlap, hvacant, ↓reduceIte]
  split
  · exact k.indexOf_clearSafe w
  · rfl

/-- The order of the rings of four cells. -/
def one : Order := ⟨1, by decide⟩

end Order

end CircularQueue
