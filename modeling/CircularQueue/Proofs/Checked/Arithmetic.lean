import CircularQueue.Fault
import CircularQueue.Proofs.Gap
import CircularQueue.Proofs.Words
import Mathlib.Data.Nat.Log

/-!
# Arithmetic that is checked at every step

On a machine a number has a width. A sum, a difference or a product that leaves the width is an
error, and so is a shift by the width or more; the same goes for an index past the end of an array
and for an assertion that does not hold. A computation that makes all these checks breaks off at the
first that fails. The definitions of rings and queues make none of them, because their types leave
no room for a failure, and this is what has to be shown. Here are the checks, and a proof that none
fails in what is computed from an order alone.

What is meant to wrap round, such as the next cursor, is not checked.
-/

namespace CircularQueue

/-- Why a checked computation breaks off. -/
inductive Breach
  /-- A result does not fit its width, or a word was to be shifted by its width or more. -/
  | overflow
  /-- An array has no such index. -/
  | outOfBounds (index size : Nat)
  /-- A fault that the computation itself raises. -/
  | fault (fault : Fault)
deriving DecidableEq

/-- A computation with all its checks. -/
abbrev Checked (β : Type) : Type := Except Breach β

namespace Checked

variable {β γ : Type}

@[simp] theorem ok_bind (x : β) (f : β → Checked γ) : (Except.ok x >>= f) = f x := rfl

@[simp] theorem pure_eq_ok (x : β) : (pure x : Checked β) = .ok x := rfl

/-- The value, unless the check fails. -/
def ensure (check : Prop) [Decidable check] (breach : Breach) (x : β) : Checked β :=
  if check then .ok x else .error breach

theorem ensure_of {check : Prop} [Decidable check] {breach : Breach} {x : β} (h : check) :
    ensure check breach x = .ok x :=
  if_pos h

theorem ensure_of_not {check : Prop} [Decidable check] {breach : Breach} {x : β} (h : ¬ check) :
    ensure check breach x = .error breach :=
  if_neg h

/-! ## Operations on words and on half words -/

def plus (a b : UInt64) : Checked UInt64 :=
  ensure (a.toNat + b.toNat < 2 ^ 64) .overflow (a + b)

def minus (a b : UInt64) : Checked UInt64 := ensure (b.toNat ≤ a.toNat) .overflow (a - b)

def times (a b : UInt64) : Checked UInt64 :=
  ensure (a.toNat * b.toNat < 2 ^ 64) .overflow (a * b)

def shiftLeft (a : UInt64) (places : Nat) : Checked UInt64 :=
  ensure (places < 64) .overflow (a <<< places.toUInt64)

def shiftRight (a : UInt64) (places : Nat) : Checked UInt64 :=
  ensure (places < 64) .overflow (a >>> places.toUInt64)

/-- The number as a signed word. -/
def signed (z : Int) : Checked Int := ensure (-(2 ^ 63) ≤ z ∧ z < 2 ^ 63) .overflow z

/-- The sum of two half words. -/
def plusHalf (a b : Nat) : Checked Nat := ensure (a + b < 2 ^ 32) .overflow (a + b)

/-- The difference of two half words. -/
def minusHalf (a b : Nat) : Checked Nat := ensure (b ≤ a) .overflow (a - b)

/-! ## The least order for a capacity -/

/-- The least power of two that is at least `c`. -/
def nextPowerOfTwo (c : Nat) : Checked Nat :=
  ensure (2 ^ Nat.clog 2 c < 2 ^ 64) .overflow (2 ^ Nat.clog 2 c)

/-- How many zeros the word `n` ends in. -/
def trailingZeros (n : Nat) : Nat := ((List.range 64).find? n.testBit).getD 64

theorem trailingZeros_two_pow {e : Nat} (he : e < 64) : trailingZeros (2 ^ e) = e := by
  have hfind : (List.range 64).find? (2 ^ e).testBit = some e := by
    refine List.find?_range_eq_some.2 ⟨?_, List.mem_range.2 he, fun i hi => ?_⟩
    · rw [Nat.testBit_two_pow_self]
    · rw [Nat.testBit_two_pow_of_ne hi.ne', Bool.not_false]
  rw [trailingZeros, hfind, Option.getD_some]

/-- The order of the rings for a queue of capacity `c`. -/
def orderFor (c : Nat) : Checked Nat := do
  let power ← nextPowerOfTwo c
  return trailingZeros power

/-- It is the logarithm of the capacity, rounded up, unless that is no place in a word. -/
theorem orderFor_of_clog_lt {c : Nat} (h : Nat.clog 2 c < 64) :
    orderFor c = .ok (Nat.clog 2 c) := by
  have hpower : nextPowerOfTwo c = .ok (2 ^ Nat.clog 2 c) :=
    ensure_of (Nat.pow_lt_pow_right Nat.one_lt_two h)
  rw [orderFor, hpower, ok_bind, trailingZeros_two_pow h, pure_eq_ok]

theorem orderFor_of_le_clog {c : Nat} (h : 64 ≤ Nat.clog 2 c) : orderFor c = .error .overflow := by
  have hpower : nextPowerOfTwo c = .error .overflow :=
    ensure_of_not (Nat.not_lt.2 (Nat.pow_le_pow_right Nat.two_pos h))
  rw [orderFor, hpower]
  rfl

/-! ## What is computed from an order -/

/-- The number of indices a ring of the order can hold. -/
def capacity (order : Nat) : Checked Nat := do
  let half ← shiftLeft 1 order
  return half.toNat

/-- The number of cells of a ring of the order. -/
def cellCount (order : Nat) : Checked Word := shiftLeft 2 order

/-- The index field of a ring of `n` cells. -/
def indexMask (n : Word) : Checked Word := minus n 1

/-- All bits below the lap in a ring of `n` cells. -/
def belowLap (n : Word) : Checked Word := do
  let double ← times 2 n
  minus double 1

/-- The largest threshold in a ring of the order. -/
def fullThreshold (order : Nat) : Checked Int := do
  let half ← shiftLeft 1 order
  let spent ← signed (3 * half.toInt64.toInt)
  signed (spent - 1)

/-- The number of the cell of the cursor `c`. -/
def position (c : Cursor) (order : Nat) : Checked Nat := do
  let order ← ensure (order ≤ maxOrder) (.fault .cursorOrder) order
  let bits ← plusHalf order 1
  let power ← shiftLeft 1 bits
  let mask ← minus power 1
  if bits ≤ lineOrder then return (c &&& mask).toNat
  else
    let places ← minusHalf bits lineOrder
    let line ← shiftRight (c &&& mask) places
    let rotated ← shiftLeft c lineOrder
    return (line ||| (rotated &&& mask)).toNat

end Checked

/-! ## None of it fails for an order that a ring may have -/

/-- An exponent that covers a capacity is the least that does. -/
theorem Capacity.exponentFor_eq_clog (c : Nat) : exponentFor c = Nat.clog 2 c := by
  refine Nat.le_antisymm (exponentFor_le ?_) (Nat.clog_le_of_le_pow ?_)
  · rw [Nat.one_shiftLeft]
    exact Nat.le_pow_clog Nat.one_lt_two c
  · rw [← Nat.one_shiftLeft]
    exact le_shiftLeft_exponentFor c

theorem toNat_shiftLeft_of_lt {a : UInt64} {places : Nat} (hplaces : places < 64)
    (h : a.toNat <<< places < 2 ^ 64) : (a <<< places.toUInt64).toNat = a.toNat <<< places := by
  have hword : places.toUInt64.toNat = places :=
    Nat.mod_eq_of_lt (Nat.lt_trans hplaces (by decide))
  rw [UInt64.toNat_shiftLeft, hword, Nat.mod_eq_of_lt hplaces]
  exact Nat.mod_eq_of_lt h

namespace Order

open Checked

theorem capacity_lt (k : Order) : k.capacity < 2 ^ 31 :=
  Nat.lt_of_lt_of_le k.capacity_lt_cellCount k.cellCount_le

theorem toNat_one_shiftLeft (k : Order) :
    ((1 : UInt64) <<< k.exponent.toUInt64).toNat = k.capacity := by
  have hexponent := k.exponent_add_two_lt
  exact toNat_shiftLeft_of_lt (by omega) (Nat.lt_trans k.capacity_lt (by decide))

theorem shiftLeft_exponent (k : Order) (a : UInt64) :
    shiftLeft a k.exponent = .ok (a <<< k.exponent.toUInt64) := by
  have hexponent := k.exponent_add_two_lt
  exact ensure_of (by omega)

@[simp] theorem capacity_exponent (k : Order) : Checked.capacity k.exponent = .ok k.capacity := by
  rw [Checked.capacity, shiftLeft_exponent, ok_bind, toNat_one_shiftLeft, pure_eq_ok]

@[simp] theorem cellCount_exponent (k : Order) :
    Checked.cellCount k.exponent = .ok k.safeFlag :=
  k.shiftLeft_exponent 2

@[simp] theorem indexMask_safeFlag (k : Order) :
    Checked.indexMask k.safeFlag = .ok k.indexMask := by
  refine ensure_of ?_
  rw [toNat_safeFlag]
  exact k.cellCount_pos

@[simp] theorem belowLap_safeFlag (k : Order) : Checked.belowLap k.safeFlag = .ok k.belowLap := by
  have hpos := k.cellCount_pos
  have hle := k.cellCount_le
  have hdouble : times 2 k.safeFlag = .ok (2 * k.safeFlag) := by
    refine ensure_of ?_
    rw [toNat_safeFlag]
    exact Nat.lt_of_le_of_lt (Nat.mul_le_mul_left _ hle) (by decide)
  rw [Checked.belowLap, hdouble, ok_bind]
  refine ensure_of ?_
  rw [toNat_double_safeFlag]
  exact Nat.mul_pos Nat.two_pos hpos

theorem toInt_one_shiftLeft (k : Order) :
    ((1 : UInt64) <<< k.exponent.toUInt64).toInt64.toInt = k.capacity := by
  have hlt := k.capacity_lt
  rw [toInt_toInt64, toNat_one_shiftLeft]
  exact Int.bmod_eq_of_le (by omega) (by omega)

@[simp] theorem fullThreshold_exponent (k : Order) :
    Checked.fullThreshold k.exponent = .ok k.fullThreshold := by
  have hlt := k.capacity_lt
  have hpos := k.capacity_pos
  have hspent : signed (3 * (k.capacity : Int)) = .ok (3 * k.capacity) := ensure_of (by omega)
  rw [Checked.fullThreshold, shiftLeft_exponent, ok_bind, toInt_one_shiftLeft, hspent, ok_bind]
  exact ensure_of (by omega)

theorem one_shiftLeft_succ (k : Order) :
    (1 : UInt64) <<< (k.exponent + 1).toUInt64 = k.safeFlag := by
  have hle := k.cellCount_le
  have hexponent := k.exponent_add_two_lt
  apply UInt64.toNat_inj.1
  have hpower : UInt64.toNat 1 <<< (k.exponent + 1) = k.cellCount :=
    Nat.shiftLeft_succ_inside 1 k.exponent
  rw [toNat_shiftLeft_of_lt (by omega) (by omega), hpower, toNat_safeFlag]

/-- The cell of a cursor lies in the ring, whatever the cursor is. -/
@[simp] theorem position_exponent (k : Order) (c : Cursor) :
    Checked.position c k.exponent = .ok (k.cell c).val := by
  have hexponent := k.exponent_add_two_lt
  have hbits : plusHalf k.exponent 1 = .ok (k.exponent + 1) := ensure_of (by omega)
  have hpower : shiftLeft 1 (k.exponent + 1) = .ok k.safeFlag :=
    (ensure_of (by omega)).trans (congrArg Except.ok k.one_shiftLeft_succ)
  rw [Checked.position, ensure_of k.exponent_le]
  have hmask : minus k.safeFlag 1 = .ok k.indexMask := k.indexMask_safeFlag
  simp only [ok_bind, hbits, hpower, hmask, cell, Order.position]
  split
  · rfl
  · rename_i hwide
    have hplaces : minusHalf (k.exponent + 1) lineOrder = .ok (k.exponent + 1 - lineOrder) :=
      ensure_of (Nat.le_of_not_le hwide)
    have hline : shiftRight (c &&& k.indexMask) (k.exponent + 1 - lineOrder) =
        .ok ((c &&& k.indexMask) >>> (k.exponent + 1 - lineOrder).toUInt64) :=
      ensure_of (by omega)
    have hrotated : shiftLeft c lineOrder = .ok (c <<< lineOrder.toUInt64) := ensure_of (by decide)
    simp only [hplaces, hline, hrotated, ok_bind, pure_eq_ok]

end Order

namespace Capacity

/-- The order for a capacity that a queue may have. -/
@[simp] theorem orderFor_val (c : Capacity) : Checked.orderFor c.val = .ok c.order.exponent := by
  have hlt := c.order.exponent_add_two_lt
  have hexponent : Nat.clog 2 c.val = c.order.exponent := (exponentFor_eq_clog c.val).symm
  rw [Checked.orderFor_of_clog_lt (by omega), hexponent]

/-- A number above the largest capacity has no order, or one above the largest. -/
theorem maxOrder_lt_of_orderFor {n order : Nat} (hlt : maxCapacity < n)
    (h : Checked.orderFor n = .ok order) : maxOrder < order := by
  have hclog : maxOrder < Nat.clog 2 n := (Nat.lt_clog_iff_pow_lt Nat.one_lt_two).2 hlt
  by_cases hfits : Nat.clog 2 n < 64
  · rw [Checked.orderFor_of_clog_lt hfits] at h
    cases h
    exact hclog
  · rw [Checked.orderFor_of_le_clog (Nat.not_lt.1 hfits)] at h
    cases h

end Capacity

end CircularQueue
