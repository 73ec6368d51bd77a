import CircularQueue.Ring.Basic

/-!
# Publishing an index

A producer takes the next cursor of the tail and looks at its cell. If the cell is not usable the
cursor is lost, and the producer goes on with the next one. A failed attempt changes nothing but the
tail, so the call is a search for the first cursor whose cell is usable in the ring as it stands.
A search through all cursors that finds none will never find one: such a call does not return.
-/

namespace CircularQueue.Ring

variable {k : Order}

/-- A producer may write the cell of the cursor `t`. -/
def usable (r : Ring k) (t : Cursor) : Bool :=
  match k.admission t (r.word t) with
  | .refused => false
  | .free => true
  | .guarded => gap r.head t ≤ 0

/-- The first usable cursor among the given number of them, from `t` on. -/
def firstUsable? (r : Ring k) (t : Cursor) : Nat → Option Cursor
  | 0 => none
  | attempts + 1 => if r.usable t then some t else r.firstUsable? (t + 1) attempts

/-- The ring with the index `i` published at the cursor `t`. A producer that knows the ring is not
empty leaves the threshold alone. -/
def publish (r : Ring k) (t : Cursor) (i : Nat) (nonempty : Bool) : Ring k :=
  match r with
  | { head, threshold, cells, .. } =>
    { head
      tail := t + 1
      threshold := if nonempty then threshold else k.fullThreshold
      cells := writeCell cells t (k.published t i) }

/-- Publishes the index `i` and says whether it was in range. An index out of range is refused and
changes nothing. There is no answer if no cell is usable at any cursor. -/
def enqueue (r : Ring k) (i : Nat) (nonempty : Bool) : Option (Bool × Ring k) :=
  if i < k.capacity then
    match r.firstUsable? r.tail cursorCount with
    | some t => some (true, r.publish t i nonempty)
    | none => none
  else some (false, r)

theorem firstUsable?_eq_some {r : Ring k} {t u : Cursor} {attempts : Nat}
    (h : r.firstUsable? t attempts = some u) : r.usable u = true := by
  induction attempts generalizing t with
  | zero => simp [firstUsable?] at h
  | succ n ih =>
    rw [firstUsable?] at h
    split at h
    · cases h; assumption
    · exact ih h

theorem enqueue_of_capacity_le {r : Ring k} {i : Nat} (nonempty : Bool) (h : k.capacity ≤ i) :
    r.enqueue i nonempty = some (false, r) := by
  simp [enqueue, Nat.not_lt.2 h]

end CircularQueue.Ring
