import CircularQueue.Cursor

/-!
# Words of the cells

The word of a cell packs three fields. The lowest `k + 1` bits are the index field, the next bit
is the safe flag, and the bits above are the lap: how often the cursor that last wrote the cell had
gone round the ring. The index field has one bit more than an index needs. All its bits set is the
empty mark, and an index is stored xor-ed with that mark, so setting all bits of the field is how
an index is taken, in one access and whatever the index.

Words are compared through their laps alone: `lapOf` sets all bits below the lap, and the lap of a
cursor is the word of that form with the cursor's own lap. What a producer may do with a cell is an
`Admission`, what a consumer finds in it is a `Sight`; both depend only on the cursor and the word
read.
-/

namespace CircularQueue

/-- The content of a cell. -/
abbrev Word := UInt64

/-- The word of a cell that was never written: the empty mark, with the lap before the first. -/
def unusedWord : Word := 0xFFFFFFFFFFFFFFFF

/-- What a producer that holds a cursor may do with the cell it finds there. -/
inductive Admission
  /-- The cell holds an index, or belongs to this lap or a later one. -/
  | refused
  /-- The cell is empty, safe and of an earlier lap. -/
  | free
  /-- The cell is empty and of an earlier lap, but usable only if no consumer has gone past. -/
  | guarded
deriving DecidableEq

/-- What a consumer finds in the cell of its cursor. -/
inductive Sight
  /-- The index published for this cursor. -/
  | due (index : Nat)
  /-- An index of another lap, with the word that clears its safe flag if that has to be
  written. -/
  | stale (marked : Option Word)
  /-- No index, with the word that closes the cell to producers of this cursor if that has to be
  written. -/
  | vacant (closed : Option Word)
deriving DecidableEq

namespace Order

/-- All bits below the lap. -/
def belowLap (k : Order) : Word := 2 * k.safeFlag - 1

/-- The word of the lap of the cursor `c`: empty and safe. -/
def lap (k : Order) (c : Cursor) : Word := (c <<< 1) ||| k.belowLap

/-- The word `w` with all bits below its lap set. -/
def lapOf (k : Order) (w : Word) : Word := w ||| k.belowLap

/-- The word that publishes the index `i` at the cursor `c`. -/
def published (k : Order) (c : Cursor) (i : Nat) : Word :=
  k.lap c ^^^ (i.toUInt64 ^^^ k.indexMask)

/-- The word `w` after its index has been taken. -/
def emptied (k : Order) (w : Word) : Word := w ||| k.indexMask

/-- The index field of the word `w`. -/
def indexOf (k : Order) (w : Word) : Nat := (w &&& k.indexMask).toNat

/-- The word `w` with its safe flag cleared. -/
def clearSafe (k : Order) (w : Word) : Word := w &&& ~~~k.safeFlag

/-- The empty word of the lap of `h`, with the safe flag of `w`. -/
def closed (k : Order) (h : Cursor) (w : Word) : Word := k.lap h ^^^ (~~~w &&& k.safeFlag)

/-- The lap of the word `w` lies before the lap of the cursor `c`. -/
def Behind (k : Order) (w : Word) (c : Cursor) : Prop := gap (k.lapOf w) (k.lap c) < 0

instance (k : Order) (w : Word) (c : Cursor) : Decidable (k.Behind w c) :=
  inferInstanceAs (Decidable (_ < _))

/-- What a producer holding the cursor `t` may do with a cell that reads `w`. -/
def admission (k : Order) (t : Cursor) (w : Word) : Admission :=
  if k.Behind w t then
    if w = k.lapOf w then .free
    else if w = k.lapOf w ^^^ k.safeFlag then .guarded
    else .refused
  else .refused

/-- What a consumer holding the cursor `h` finds in a cell that reads `w`. A cell of a later lap is
left as it is, and so is an index already marked. -/
def sight (k : Order) (h : Cursor) (w : Word) : Sight :=
  if k.lapOf w = k.lap h then .due (k.indexOf w)
  else if w ||| k.safeFlag = k.lapOf w then
    .vacant (if k.Behind w h then some (k.closed h w) else none)
  else
    .stale (if w ≠ k.clearSafe w ∧ k.Behind w h then some (k.clearSafe w) else none)

theorem not_behind_of_lapOf_eq {k : Order} {w : Word} {c : Cursor} (h : k.lapOf w = k.lap c) :
    ¬ k.Behind w c := by
  simp [Behind, h, gap_self]

theorem sight_eq_due_iff (k : Order) (h : Cursor) (w : Word) (i : Nat) :
    k.sight h w = .due i ↔ k.lapOf w = k.lap h ∧ k.indexOf w = i := by
  unfold sight
  by_cases hlap : k.lapOf w = k.lap h
  · simp [hlap]
  · simp only [hlap, false_and, iff_false, ↓reduceIte]
    split <;> simp

end Order

end CircularQueue
