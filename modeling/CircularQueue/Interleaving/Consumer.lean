import CircularQueue.Interleaving.Machine
import CircularQueue.Ring.Basic

/-!
# A consumer at a ring, access by access

The walk of a consumer that takes an index: it reserves a cursor and reads the cell. An index of its
own lap it takes by setting all bits of the index field. In a vacant cell it looks at the tail and,
while a producer has reserved the cell, reads again, as often as its patience allows. Otherwise it
tries to bar the cell and decides anew when the exchange fails.

Having passed the cell it compares the tail with the cursor after its own. If the tail is not ahead
it drags the tail along, as long as the tail stays behind the head, spends a unit of the threshold
and answers that there is none. If the tail is ahead it spends a unit of the threshold and goes on,
unless that was the last. A consumer that knows an index is there skips all of this.
-/

namespace CircularQueue.Interleaving

/-- Where a consumer stands: each location is named for the access it makes next. -/
inductive Consumer
  /-- Reads the threshold to see whether the ring counts as empty. -/
  | readThreshold
  /-- Takes the next cursor of the head. -/
  | reserve
  /-- Reads the cell of its cursor, with so much patience left. -/
  | readCell (cursor : Cursor) (patience : Nat)
  /-- Empties the cell, having seen the index in it. -/
  | take (cursor : Cursor) (index : Nat)
  /-- Reads the tail to see whether a producer has reserved the vacant cell. -/
  | awaitProducer (cursor : Cursor) (patience : Nat) (seen : Word) (closed : Option Word)
  /-- Exchanges the word it saw in the cell for one that bars the cell. -/
  | bar (cursor : Cursor) (patience : Nat) (seen : Word) (barred : Word)
  /-- Reads the tail to see whether it is still ahead. -/
  | readTail (cursor : Cursor)
  /-- Exchanges the tail it saw for the head it knows. -/
  | dragTail (tail head : Cursor)
  /-- Reads the head again, the tail having moved meanwhile. -/
  | rereadHead
  /-- Reads the tail again, knowing the head. -/
  | rereadTail (head : Cursor)
  /-- Spends a unit of the threshold before it answers that there is none. -/
  | spendLast
  /-- Spends a unit of the threshold and goes on if it was not the last. -/
  | spend
deriving DecidableEq

namespace Consumer

variable {k : Order}

/-- Where a consumer goes that is done with the cell of its cursor. -/
def pass (nonempty : Bool) (cursor : Cursor) : Consumer :=
  if nonempty then .reserve else .readTail cursor

/-- Where a consumer goes that will write the given word over the word it saw, if any. -/
def settle (nonempty : Bool) (cursor : Cursor) (patience : Nat) (seen : Word) :
    Option Word → Consumer
  | some barred => .bar cursor patience seen barred
  | none => pass nonempty cursor

/-- Where a consumer goes that holds a cursor and saw a word in its cell. -/
def weigh (k : Order) (nonempty : Bool) (cursor : Cursor) (patience : Nat) (seen : Word) :
    Consumer :=
  match k.sight cursor seen with
  | .due index => .take cursor index
  | .stale marked => settle nonempty cursor patience seen marked
  | .vacant closed =>
    match patience with
    | patience + 1 => .awaitProducer cursor patience seen closed
    | 0 => settle nonempty cursor 0 seen closed

/-- One access of a consumer that reads a vacant cell again up to `patience` times. -/
def step (patience : Nat) (nonempty : Bool) (r : Ring k) (spurious : Bool) :
    Consumer → Ring k × Next Consumer (Option Nat)
  | .readThreshold =>
    let next := if r.threshold < 0 then .answer none else .goto .reserve
    (r, next)
  | .reserve =>
    let cursor := r.head
    ({ r with head := cursor + 1 }, .goto (.readCell cursor patience))
  | .readCell cursor left =>
    let next := weigh k nonempty cursor left (r.word cursor)
    (r, .goto next)
  | .take cursor index =>
    let emptied := k.emptied (r.word cursor)
    (r.write cursor emptied, .answer (some index))
  | .awaitProducer cursor left seen closed =>
    let next :=
      if 0 < gap r.tail cursor then .readCell cursor left
      else settle nonempty cursor left seen closed
    (r, .goto next)
  | .bar cursor left seen barred =>
    let current := r.word cursor
    if current = seen ∧ spurious = false then
      (r.write cursor barred, .goto (pass nonempty cursor))
    else (r, .goto (weigh k nonempty cursor left current))
  | .readTail cursor =>
    let next := if gap r.tail (cursor + 1) ≤ 0 then .dragTail r.tail (cursor + 1) else .spend
    (r, .goto next)
  | .dragTail tail head =>
    if r.tail = tail ∧ spurious = false then ({ r with tail := head }, .goto .spendLast)
    else (r, .goto .rereadHead)
  | .rereadHead =>
    let head := r.head
    (r, .goto (.rereadTail head))
  | .rereadTail head =>
    let next := if 0 ≤ gap r.tail head then .spendLast else .dragTail r.tail head
    (r, .goto next)
  | .spendLast => ({ r with threshold := r.threshold - 1 }, .answer none)
  | .spend =>
    let left := r.threshold
    ({ r with threshold := left - 1 }, if left ≤ 0 then .answer none else .goto .reserve)

end Consumer

end CircularQueue.Interleaving
