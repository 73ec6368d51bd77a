import CircularQueue.Interleaving.Producer
import CircularQueue.Interleaving.Consumer
import CircularQueue.Ring.Call

/-!
# Threads at one ring

Any number of threads publish indices in one ring and take indices from it.
-/

namespace CircularQueue.Interleaving

/-- A call that threads may make on a ring they share. -/
inductive RingCall
  | enqueue (index : Nat) (nonempty : Bool)
  | dequeue (nonempty : Bool)
deriving DecidableEq

/-- Where a thread stands in a call on a ring. -/
inductive RingLocation
  | publishing (index : Nat) (nonempty : Bool) (location : Producer)
  | taking (nonempty : Bool) (location : Consumer)
deriving DecidableEq

/-- The calls on a ring. An index out of range is refused without any access. -/
def ringMachine (k : Order) (patience : Nat) :
    Machine (Ring k) Unit RingCall RingLocation Ring.Answer where
  start _ call :=
    match call with
    | .enqueue i nonempty =>
      if i < k.capacity then some (.goto (.publishing i nonempty .reserve))
      else some (.answer (.accepted false, ()))
    | .dequeue true => some (.goto (.taking true .reserve))
    | .dequeue false => some (.goto (.taking false .readThreshold))
  step r _ location spurious :=
    match location with
    | .publishing i nonempty location =>
      match location.step i nonempty r spurious with
      | (r, .goto location) => .ok (r, .goto (.publishing i nonempty location))
      | (r, .answer _) => .ok (r, .answer (.accepted true, ()))
    | .taking nonempty location =>
      match location.step patience nonempty r spurious with
      | (r, .goto location) => .ok (r, .goto (.taking nonempty location))
      | (r, .answer index) => .ok (r, .answer (.taken index, ()))

end CircularQueue.Interleaving
