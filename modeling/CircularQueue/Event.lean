/-!
# Events

What a queue reports about itself while it works. An event carries numbers only, so it can say
nothing about the values in the queue.
-/

namespace CircularQueue

/-- A report of a queue about itself. -/
inductive Event
  | created (capacity order : Nat)
  /-- The queue was emptied and let go of so many values. -/
  | cleared (dropped : Nat)
  | resizing (old new : Nat)
  /-- The queue is given up while it still holds so many values. -/
  | residual (count : Nat)
deriving DecidableEq

/-- The level, the message and the fields of the event. -/
def Event.line : Event → String
  | .created capacity order => s!"DEBUG creating scq capacity={capacity} order={order}"
  | .cleared dropped => s!"TRACE scq cleared dropped={dropped}"
  | .resizing old new => s!"DEBUG resizing scq old={old} new={new}"
  | .residual count => s!"TRACE dropping non-empty scq residual={count}"

end CircularQueue
