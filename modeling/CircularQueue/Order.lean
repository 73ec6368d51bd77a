/-!
# Orders of a ring

A ring of order `k` holds up to `2 ^ k` indices in `2 ^ (k + 1)` cells. Twice as many cells as
indices leave a producer that lost its cell a later one to go on with. The bound on the order is
part of the type, so every size below is a machine word with room to spare.
-/

namespace CircularQueue

/-- The largest order a ring may have. -/
def maxOrder : Nat := 30

/-- An order `exponent` that a ring may have. -/
structure Order where
  exponent : Nat
  exponent_le : exponent ≤ maxOrder
deriving DecidableEq

namespace Order

/-- The order with the given exponent, unless it is too large. -/
def ofNat? (exponent : Nat) : Option Order :=
  if h : exponent ≤ maxOrder then some ⟨exponent, h⟩ else none

theorem ofNat?_eq_some_iff {exponent : Nat} {k : Order} :
    ofNat? exponent = some k ↔ k.exponent = exponent := by
  obtain ⟨e, he⟩ := k
  by_cases h : exponent ≤ maxOrder
  · simp [ofNat?, h, eq_comm]
  · simp only [ofNat?, h, ↓reduceDIte, reduceCtorEq, false_iff]
    rintro rfl
    exact h he

/-- The number of indices a ring of order `k` can hold. -/
def capacity (k : Order) : Nat := 1 <<< k.exponent

/-- The number of cells of a ring of order `k`. -/
def cellCount (k : Order) : Nat := 2 <<< k.exponent

/-- The number of failing looks at a ring after which it counts as empty, less one: a lap of the
cells and half a lap more. -/
def fullThreshold (k : Order) : Int := 3 * (k.capacity : Int) - 1

theorem capacity_pos (k : Order) : 0 < k.capacity := by
  rw [capacity, Nat.one_shiftLeft]
  exact Nat.two_pow_pos _

theorem capacity_le (k : Order) : k.capacity ≤ 1 <<< maxOrder := by
  rw [capacity, Nat.one_shiftLeft, Nat.one_shiftLeft]
  exact Nat.pow_le_pow_right (by decide) k.exponent_le

theorem cellCount_eq (k : Order) : k.cellCount = 2 * k.capacity := by
  rw [cellCount, capacity, Nat.shiftLeft_eq, Nat.one_shiftLeft]

theorem cellCount_pos (k : Order) : 0 < k.cellCount := by
  rw [cellCount_eq]
  exact Nat.mul_pos (by decide) k.capacity_pos

end Order

end CircularQueue
