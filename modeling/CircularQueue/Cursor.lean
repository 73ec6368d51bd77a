import CircularQueue.Order

/-!
# Cursors and their cells

A cursor counts the positions handed out on one end of a ring. It is a 64-bit word that wraps
round, so two cursors are compared by their difference read as a signed number, which orders them
rightly as long as they are less than `2 ^ 63` apart.

The cell of a cursor is found from the low `k + 1` bits of the cursor alone. They are rotated by
three places, so that consecutive cursors fall on different cache lines of eight cells each. In a
ring that fits into one line the bits are used as they are.
-/

namespace CircularQueue

/-- A position on the endless line that runs round the cells of a ring. -/
abbrev Cursor := UInt64

/-- The number of cursors there are. A search that has tried so many has tried them all. -/
def cursorCount : Nat := 1 <<< 64

/-- The difference `a - b` of two words, read as a signed number. -/
def gap (a b : UInt64) : Int := (a - b).toInt64.toInt

theorem gap_self (a : UInt64) : gap a a = 0 := by simp [gap]

/-- The number of bytes of a cache line. -/
def cacheLineBytes : Nat := 64

/-- The logarithm of the number of cells that share a cache line. -/
def lineOrder : Nat := 3

namespace Order

/-- The number of cells as a word, which is also the place of the safe flag in a cell's word. -/
def safeFlag (k : Order) : UInt64 := 2 <<< k.exponent.toUInt64

/-- The bits that hold the index in a cell's word, and the bits of a cursor that choose its
cell. -/
def indexMask (k : Order) : UInt64 := k.safeFlag - 1

theorem cellCount_lt (k : Order) : k.cellCount < cursorCount := by
  have hle := k.capacity_le
  rw [cellCount_eq]
  exact Nat.lt_of_le_of_lt (Nat.mul_le_mul_left 2 hle) (by decide)

theorem toNat_safeFlag (k : Order) : k.safeFlag.toNat = k.cellCount := by
  have hexponent : k.exponent < 64 := Nat.lt_of_le_of_lt k.exponent_le (by decide)
  have hword : k.exponent.toUInt64.toNat = k.exponent :=
    Nat.mod_eq_of_lt (Nat.lt_trans hexponent (by decide))
  rw [safeFlag, UInt64.toNat_shiftLeft, hword, Nat.mod_eq_of_lt hexponent]
  exact Nat.mod_eq_of_lt k.cellCount_lt

theorem toNat_indexMask (k : Order) : k.indexMask.toNat = k.cellCount - 1 := by
  have hle : 1 ≤ k.safeFlag := by
    rw [UInt64.le_iff_toNat_le, toNat_safeFlag]
    exact k.cellCount_pos
  rw [indexMask, UInt64.toNat_sub_of_le _ _ hle, toNat_safeFlag]
  rfl

/-- Where among the cells the cell of the cursor `c` lies. -/
def position (k : Order) (c : Cursor) : UInt64 :=
  let bits := k.exponent + 1
  if bits ≤ lineOrder then c &&& k.indexMask
  else
    ((c &&& k.indexMask) >>> (bits - lineOrder).toUInt64) |||
      ((c <<< lineOrder.toUInt64) &&& k.indexMask)

theorem toNat_and_indexMask_lt (k : Order) (c : UInt64) :
    (c &&& k.indexMask).toNat < k.cellCount := by
  have hpos := k.cellCount_pos
  rw [UInt64.toNat_and, toNat_indexMask]
  exact Nat.lt_of_le_of_lt Nat.and_le_right (by omega)

theorem toNat_position_lt (k : Order) (c : Cursor) : (k.position c).toNat < k.cellCount := by
  have hpow : k.cellCount = 2 ^ (k.exponent + 1) := by
    rw [cellCount_eq, capacity, Nat.one_shiftLeft, Nat.pow_succ, Nat.mul_comm]
  unfold position
  simp only
  split
  · exact k.toNat_and_indexMask_lt c
  · rw [UInt64.toNat_or, hpow]
    refine Nat.or_lt_two_pow ?_ (hpow ▸ k.toNat_and_indexMask_lt _)
    rw [UInt64.toNat_shiftRight, Nat.shiftRight_eq_div_pow]
    exact Nat.lt_of_le_of_lt (Nat.div_le_self _ _) (hpow ▸ k.toNat_and_indexMask_lt c)

/-- The cell of the cursor `c`. -/
def cell (k : Order) (c : Cursor) : Fin k.cellCount :=
  ⟨(k.position c).toNat, k.toNat_position_lt c⟩

end Order

end CircularQueue
