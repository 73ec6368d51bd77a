import CircularQueue.Contract

/-!
# Requests to a queue

A queue in slots takes every command of a bounded queue and can be drained besides, to the end or
only in part. Requests and replies are data, so a whole run of such a queue is a list of requests.
-/

namespace CircularQueue.Queue

variable {α : Type}

/-- A command, or a drain that is given up after the given number of values. -/
inductive Request (α : Type)
  | command (command : Command α)
  | drain (limit : Option Nat)
deriving DecidableEq

/-- The answer to a command, or the size hint before a drain with the values it gave, oldest first,
each with the size hint after it. -/
inductive Reply (α : Type)
  | answer (answer : Answer α)
  | drained (before : SizeHint) (values : List (α × SizeHint))
deriving DecidableEq

/-- The outcome of one request and the queue it leaves. -/
def serve (q : Queue α) : Request α → Except Fault (Outcome α (Reply α) × Queue α)
  | .command command => do
    let (outcome, q) ← BoundedQueue.perform q command
    return (outcome.withAnswer (.answer outcome.answer), q)
  | .drain limit => do
    let before := q.sizeHint
    let (values, q) ← match limit with
      | some limit => q.drainUpTo limit
      | none => q.drain
    return (.quiet (.drained before values), q)

/-- The outcomes of a list of requests, made one after the other, and the queue they leave. -/
def serveAll (q : Queue α) : List (Request α) → Except Fault (List (Outcome α (Reply α)) × Queue α)
  | [] => .ok ([], q)
  | request :: requests => do
    let (outcome, q) ← q.serve request
    let (outcomes, q) ← q.serveAll requests
    return (outcome :: outcomes, q)

/-- The outcomes of a list of requests to a queue that is given up afterwards, and the outcome of
that. -/
def serveAndRelease (q : Queue α) (requests : List (Request α)) :
    Except Fault (List (Outcome α (Reply α)) × Outcome α Unit) := do
  let (outcomes, q) ← q.serveAll requests
  let last ← q.release
  return (outcomes, last)

end CircularQueue.Queue
