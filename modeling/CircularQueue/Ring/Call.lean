import CircularQueue.Ring.Enqueue
import CircularQueue.Ring.Dequeue

/-!
# Calls of a ring

The calls of a ring and their answers as data, so that a whole run is a list of calls. A call that
breaks off leaves the ring as it was, and the run goes on.
-/

namespace CircularQueue.Ring

variable {k : Order}

/-- A call. The flag `nonempty` is the caller's word that the ring holds an index. -/
inductive Call
  | enqueue (index : Nat) (nonempty : Bool)
  | dequeue (nonempty : Bool)
  | fill (start stop : Nat)
  | clear
deriving DecidableEq

/-- The answer of a call. -/
inductive Answer
  | accepted (inRange : Bool)
  | taken (index : Option Nat)
  | done
  | broken (fault : Fault)
deriving DecidableEq

/-- The answer of one call and the ring it leaves, if the call returns. -/
def perform (r : Ring k) : Call → Option (Answer × Ring k)
  | .enqueue i nonempty =>
    match r.enqueue i nonempty with
    | some (inRange, r) => some (.accepted inRange, r)
    | none => none
  | .dequeue false =>
    match r.dequeue with
    | (index, r) => some (.taken index, r)
  | .dequeue true =>
    match r.dequeueNonempty with
    | some (i, r) => some (.taken (some i), r)
    | none => none
  | .fill start stop =>
    match r.fill start stop with
    | .ok r => some (.done, r)
    | .error fault => some (.broken fault, r)
  | .clear => some (.done, r.clear)

/-- The answers of a list of calls, made one after the other, and the ring they leave. -/
def run (r : Ring k) : List Call → Option (List Answer × Ring k)
  | [] => some ([], r)
  | call :: calls =>
    match r.perform call with
    | none => none
    | some (answer, r) =>
      match r.run calls with
      | none => none
      | some (answers, r) => some (answer :: answers, r)

theorem run_cons {r r₁ r₂ : Ring k} {call : Call} {calls : List Call} {answer : Answer}
    {answers : List Answer} (hperform : r.perform call = some (answer, r₁))
    (hrun : r₁.run calls = some (answers, r₂)) :
    r.run (call :: calls) = some (answer :: answers, r₂) := by
  rw [run, hperform]
  simp only [hrun]

end CircularQueue.Ring
