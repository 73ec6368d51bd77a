import CircularQueue.Ring.Basic

/-!
# Taking the oldest index

A consumer takes the next cursor of the head and looks at its cell. An index published for that very
cursor is its answer. Otherwise it passes on, but not before it has barred the cell to a producer
that might still come for this cursor: an index of another lap gets its safe flag cleared, an empty
cell is closed by writing the consumer's lap into it. A vacant cell that a producer has reserved is
read again a number of times first, in case the producer is about to write it.

A consumer that has to be told when the ring is empty stops in two ways. If the tail is not ahead of
it, it pulls the tail up to the head. And each cell passed costs one unit of the threshold, so that
a ring whose cursors between head and tail are all spent is given up too. A consumer that knows an
index is there does neither and goes on until it has one.
-/

namespace CircularQueue.Ring

variable {k : Order}

/-- How many times a consumer reads a vacant cell again while its producer is still on the way. -/
def publishPatience : Nat := 10000

/-- What the consumer at the cursor `h` finds in its cell in the end, reading a reserved vacant cell
again up to `patience` times. -/
def look (r : Ring k) (h : Cursor) (patience : Nat) : Sight :=
  match patience, k.sight h (r.word h) with
  | patience + 1, .vacant closed =>
    if 0 < gap r.tail h then r.look h patience else .vacant closed
  | _, seen => seen

/-- One look of a consumer at the ring: the index it takes, if any, and the ring it leaves. -/
def visit (r : Ring k) (patience : Nat) : Option Nat × Ring k :=
  let h := r.head
  let passing := { r with head := h + 1 }
  match passing.look h patience with
  | .due i => (some i, passing.write h (k.emptied (passing.word h)))
  | .stale (some w) => (none, passing.write h w)
  | .vacant (some w) => (none, passing.write h w)
  | .stale none => (none, passing)
  | .vacant none => (none, passing)

/-- Looks on as long as the tail is ahead and the threshold lasts. -/
def probe (r : Ring k) (patience budget : Nat) : Option Nat × Ring k :=
  match r.visit patience with
  | (some i, r) => (some i, r)
  | (none, r) =>
    let spent := r.threshold - 1
    if gap r.tail r.head ≤ 0 then (none, { r with tail := r.head, threshold := spent })
    else
      match budget with
      | 0 => (none, { r with threshold := spent })
      | budget + 1 => probe { r with threshold := spent } patience budget

/-- Takes the oldest index, or answers that there is none, with the given patience at reserved
cells. -/
def dequeueWith (r : Ring k) (patience : Nat) : Option Nat × Ring k :=
  if r.threshold < 0 then (none, r) else r.probe patience r.threshold.toNat

/-- Takes the oldest index, or answers that there is none. -/
def dequeue (r : Ring k) : Option Nat × Ring k := r.dequeueWith publishPatience

/-- Looks on until there is an index, in at most the given number of looks. -/
def seek (r : Ring k) (patience : Nat) : Nat → Option (Nat × Ring k)
  | 0 => none
  | looks + 1 =>
    match r.visit patience with
    | (some i, r) => some (i, r)
    | (none, r) => r.seek patience looks

/-- Takes the oldest index of a ring known to hold one. There is no answer if a look at the cell of
every cursor yields none: the words then repeat with each lap, and so would the looks. -/
def dequeueNonempty (r : Ring k) : Option (Nat × Ring k) := r.seek publishPatience cursorCount

/-- The indices taken until there is none, newest first, before those in `taken`. -/
def takeAll (r : Ring k) (taken : List Nat) : Nat → List Nat × Ring k
  | 0 => (taken, r)
  | calls + 1 =>
    match r.dequeue with
    | (some i, r) => r.takeAll (i :: taken) calls
    | (none, r) => (taken, r)

/-- Takes all indices, oldest first. -/
def drain (r : Ring k) : List Nat × Ring k :=
  match r.takeAll [] cursorCount with
  | (taken, r) => (taken.reverse, r)

theorem look_eq_sight (r : Ring k) (h : Cursor) (patience : Nat) :
    r.look h patience = k.sight h (r.word h) := by
  induction patience with
  | zero => unfold look; rfl
  | succ n ih =>
    unfold look
    split
    · rename_i hp hs
      cases hp
      rw [ih, ← hs]
      split <;> rfl
    · rfl

theorem dequeueWith_of_threshold_neg {r : Ring k} (patience : Nat) (h : r.threshold < 0) :
    r.dequeueWith patience = (none, r) := by
  simp [dequeueWith, h]

end CircularQueue.Ring
