import CircularQueue.Interleaving.Machine
import CircularQueue.Ring.Basic

/-!
# A producer at a ring, access by access

The walk of a producer that publishes an index: it reserves a cursor, reads the cell, and tries to
exchange the word it read for its own. If the cell is usable only behind the head, it reads the head
first. When the exchange fails it decides anew from the word that is there now, and when the cell is
refused it reserves the next cursor. In the end it sets the threshold to full, unless it is so
already.
-/

namespace CircularQueue.Interleaving

/-- Where a producer stands: each location is named for the access it makes next. -/
inductive Producer
  /-- Takes the next cursor of the tail. -/
  | reserve
  /-- Reads the cell of its cursor. -/
  | readCell (cursor : Cursor)
  /-- Reads the head to see whether a consumer has gone past the cursor. -/
  | readHead (cursor : Cursor) (seen : Word)
  /-- Exchanges the word it saw in the cell for its own. -/
  | exchange (cursor : Cursor) (seen : Word)
  | readThreshold
  /-- Sets the threshold to full. -/
  | resetThreshold
deriving DecidableEq

namespace Producer

variable {k : Order}

/-- Where a producer goes that holds a cursor and saw a word in its cell. -/
def weigh (k : Order) (cursor : Cursor) (seen : Word) : Producer :=
  match k.admission cursor seen with
  | .refused => .reserve
  | .free => .exchange cursor seen
  | .guarded => .readHead cursor seen

/-- One access of a producer that publishes the index `i`. -/
def step (i : Nat) (nonempty : Bool) (r : Ring k) (spurious : Bool) :
    Producer → Ring k × Next Producer Unit
  | .reserve =>
    let cursor := r.tail
    ({ r with tail := cursor + 1 }, .goto (.readCell cursor))
  | .readCell cursor =>
    let next := weigh k cursor (r.word cursor)
    (r, .goto next)
  | .readHead cursor seen =>
    let next := if gap r.head cursor ≤ 0 then .exchange cursor seen else .reserve
    (r, .goto next)
  | .exchange cursor seen =>
    let current := r.word cursor
    if current = seen ∧ spurious = false then
      (r.write cursor (k.published cursor i), if nonempty then .answer () else .goto .readThreshold)
    else (r, .goto (weigh k cursor current))
  | .readThreshold =>
    let next := if r.threshold = k.fullThreshold then .answer () else .goto .resetThreshold
    (r, next)
  | .resetThreshold => ({ r with threshold := k.fullThreshold }, .answer ())

end Producer

end CircularQueue.Interleaving
