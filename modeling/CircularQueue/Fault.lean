import CircularQueue.Capacity

/-!
# Faults

A fault is a call that breaks off instead of answering. The first five are misuse that a caller can
see coming: an order, a range or a capacity outside its bounds. The others would be broken promises
between a queue and its rings, and a call that waits for an index or a cell that never comes; no
queue built here runs into them.
-/

namespace CircularQueue

/-- Why a call breaks off. -/
inductive Fault
  /-- A ring was asked for with an order above the largest. -/
  | ringOrder
  /-- A cursor was to be mapped to a cell in an order above the largest. -/
  | cursorOrder
  /-- A ring was to be filled with a range that ends before it starts. -/
  | fillReversed (start stop : Nat)
  /-- A ring was to be filled with a range that ends above its capacity. -/
  | fillTooLong (stop : Nat)
  /-- A queue was asked for with a capacity that it cannot have. -/
  | capacity (reason : CapacityError)
  /-- A ring gave out an index that is no slot of the queue. -/
  | noSuchSlot (index slots : Nat)
  /-- A slot was read that holds no value. -/
  | slotVacant (index : Nat)
  /-- A slot was written that still holds a value. -/
  | slotOccupied (index : Nat)
  /-- A ring refused a slot index of its own queue. -/
  | indexRefused (index : Nat)
  /-- A ring has no cell that a producer could ever use. -/
  | stalled
deriving DecidableEq

/-- What is reported when a call breaks off. -/
def Fault.message : Fault → String
  | .ringOrder => s!"ring order exceeds maximum ({maxOrder})"
  | .cursorOrder => "ring order exceeds maximum"
  | .fillReversed start stop => s!"fill range start {start} > end {stop}"
  | .fillTooLong stop => s!"fill range end {stop} exceeds ring capacity"
  | .capacity reason => reason.message
  | .noSuchSlot index slots =>
    s!"there is no slot {index} among {slots}"
  | .slotVacant index => s!"slot {index} holds no value"
  | .slotOccupied index => s!"slot {index} already holds a value"
  | .indexRefused index => s!"slot index {index} out of ring range"
  | .stalled => "no cell can ever be used"

end CircularQueue
