import CircularQueue.Order
import CircularQueue.Rendering

/-!
# Capacities

A capacity is the number of values a queue may hold at once. Any number from one to
`2 ^ maxOrder` will do, a power of two or not, and a request outside that range is refused with
its reason. A queue keeps its indices in rings of the least order that covers its capacity.
-/

namespace CircularQueue

/-- The largest capacity of a queue. A limit of the index encoding, not of memory. -/
def maxCapacity : Nat := 1 <<< maxOrder

/-- Why a requested capacity is refused. -/
inductive CapacityError
  | zero
  | tooLarge (requested max : Nat)
deriving DecidableEq

/-- The reason in words. -/
def CapacityError.message : CapacityError → String
  | .zero => "capacity must be > 0"
  | .tooLarge requested max => s!"capacity {requested} exceeds maximum ({max})"

/-- The reason as it is shown for inspection. -/
def CapacityError.rendering : CapacityError → Rendering
  | .zero => .atom "Zero"
  | .tooLarge requested max =>
    .record "TooLarge" [("requested", .nat requested), ("max", .nat max)] false

/-- A capacity that a queue may have. -/
structure Capacity where
  val : Nat
  pos : 0 < val
  le_max : val ≤ maxCapacity
deriving DecidableEq

namespace Capacity

/-- The capacity asked for, or why it is refused. -/
def ofNat? (requested : Nat) : Except CapacityError Capacity :=
  if hpos : 0 < requested then
    if hle : requested ≤ maxCapacity then .ok ⟨requested, hpos, hle⟩
    else .error (.tooLarge requested maxCapacity)
  else .error .zero

theorem ofNat?_val (c : Capacity) : ofNat? c.val = .ok c := by
  simp [ofNat?, c.pos, c.le_max]

theorem val_of_ofNat? {requested : Nat} {c : Capacity} (h : ofNat? requested = .ok c) :
    c.val = requested := by
  unfold ofNat? at h
  split at h
  · split at h
    · cases h; rfl
    · cases h
  · cases h

/-- The exponent of the least power of two that is at least `c`. -/
def exponentFor (c : Nat) : Nat := if c ≤ 1 then 0 else (c - 1).log2 + 1

theorem le_shiftLeft_exponentFor (c : Nat) : c ≤ 1 <<< exponentFor c := by
  unfold exponentFor
  split
  · simpa
  · have h : c - 1 < 2 ^ ((c - 1).log2 + 1) := Nat.lt_log2_self
    rw [Nat.one_shiftLeft]
    omega

theorem exponentFor_le {c e : Nat} (h : c ≤ 1 <<< e) : exponentFor c ≤ e := by
  rw [Nat.one_shiftLeft] at h
  unfold exponentFor
  split
  · exact Nat.zero_le e
  · have hlt : (c - 1).log2 < e := (Nat.log2_lt (by omega)).2 (by omega)
    omega

/-- The order of the rings of a queue of this capacity. -/
def order (c : Capacity) : Order :=
  ⟨exponentFor c.val, exponentFor_le c.le_max⟩

theorem val_le_capacity_order (c : Capacity) : c.val ≤ c.order.capacity :=
  le_shiftLeft_exponentFor c.val

end Capacity

end CircularQueue
