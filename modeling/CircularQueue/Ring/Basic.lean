import CircularQueue.Word
import CircularQueue.Rendering
import CircularQueue.Fault

/-!
# Rings of indices

A ring of order `k` hands indices below `2 ^ k` from producers to consumers in the order of their
cursors. `tail` is the next cursor for a producer, `head` the next one for a consumer, and both only
move forward. `threshold` is how many more failing looks consumers may take, less one, before they
count the ring as empty; it is negative then. A call lowers the threshold only after it has seen it
non-negative, so however many calls there are at once, it stays a small number.

A ring is emptied and filled in its own cells: each word is written anew, whatever it was.
-/

namespace CircularQueue

/-- A ring of order `k`. -/
structure Ring (k : Order) where
  head : Cursor
  tail : Cursor
  threshold : Int
  cells : Vector Word k.cellCount
deriving DecidableEq

namespace Ring

variable {k : Order}

/-- The word of the cell of the cursor `c`. -/
def word (r : Ring k) (c : Cursor) : Word := r.cells[k.cell c]

/-- The cells with the word `w` in the cell of the cursor `c`. -/
def writeCell (cells : Vector Word k.cellCount) (c : Cursor) (w : Word) :
    Vector Word k.cellCount :=
  cells.set (k.cell c) w (k.cell c).isLt

/-- The ring with the word `w` in the cell of the cursor `c`. -/
def write (r : Ring k) (c : Cursor) (w : Word) : Ring k :=
  { r with cells := writeCell r.cells c w }

@[simp] theorem head_write (r : Ring k) (c : Cursor) (w : Word) : (r.write c w).head = r.head := rfl

@[simp] theorem tail_write (r : Ring k) (c : Cursor) (w : Word) : (r.write c w).tail = r.tail := rfl

@[simp] theorem threshold_write (r : Ring k) (c : Cursor) (w : Word) :
    (r.write c w).threshold = r.threshold := rfl

theorem word_write (r : Ring k) (c d : Cursor) (w : Word) :
    (r.write c w).word d = if k.cell c = k.cell d then w else r.word d := by
  simp only [word, write, writeCell, Fin.getElem_fin, Vector.getElem_set, Fin.ext_iff]

theorem word_write_self (r : Ring k) (c : Cursor) (w : Word) : (r.write c w).word c = w := by
  simp [word_write]

theorem write_word_self (r : Ring k) (c : Cursor) : r.write c (r.word c) = r := by
  obtain ⟨head, tail, threshold, cells⟩ := r
  simp [write, writeCell, word]

/-- The empty ring: no cell was ever written. -/
def empty (k : Order) : Ring k where
  head := 0
  tail := 0
  threshold := -1
  cells := Vector.replicate k.cellCount unusedWord

/-- The ring emptied in its own cells. -/
def clear (r : Ring k) : Ring k where
  head := 0
  tail := 0
  threshold := -1
  cells := r.cells.map fun _ => unusedWord

theorem clear_eq_empty (r : Ring k) : r.clear = empty k := by
  have h : (r.cells.map fun _ => unusedWord) = Vector.replicate k.cellCount unusedWord := by
    ext i hi
    simp
  simp [clear, empty, h]

/-- An empty ring of order `l`, in the cells of `r` if they are the right number. -/
def reset (r : Ring k) (l : Order) : Ring l :=
  if h : k = l then h ▸ r.clear else empty l

theorem reset_eq_empty (r : Ring k) (l : Order) : r.reset l = empty l := by
  unfold reset
  split
  · rename_i h
    subst h
    exact r.clear_eq_empty
  · rfl

/-- The word of the cell of the cursor `c` in a ring filled with `start, …, stop - 1`: the cursors
below `start` have been taken, those from `stop` on were never written. -/
def filledWord (k : Order) (start stop c : Nat) : Word :=
  if c < start then k.belowLap
  else if c < stop then k.safeFlag + c.toUInt64
  else unusedWord

/-- The ring filled in its own cells with the indices `start, …, stop - 1`, each at the cursor that
equals it. -/
def fillRange (r : Ring k) (start stop : Nat) (_ : start ≤ stop) (_ : stop ≤ k.capacity) :
    Ring k where
  head := start.toUInt64
  tail := stop.toUInt64
  threshold := if start = stop then -1 else k.fullThreshold
  cells := k.cellCount.fold
    (fun c _ cells => writeCell cells c.toUInt64 (filledWord k start stop c)) r.cells

/-- Fills the ring with the indices `start, …, stop - 1`, if that is a range of indices it can
hold. -/
def fill (r : Ring k) (start stop : Nat) : Except Fault (Ring k) :=
  if hrange : start ≤ stop then
    if hstop : stop ≤ k.capacity then .ok (r.fillRange start stop hrange hstop)
    else .error (.fillTooLong stop)
  else .error (.fillReversed start stop)

/-- A new ring that holds the indices `start, …, stop - 1`. -/
def filled (k : Order) (start stop : Nat) : Except Fault (Ring k) := (empty k).fill start stop

/-- The number of cursors handed to producers and not yet to consumers; zero while the consumers are
ahead. -/
def distance (r : Ring k) : Nat := (gap r.tail r.head).toNat

/-- The ring with the given words, if they are as many as it has cells. -/
def ofWords? (k : Order) (head tail : Cursor) (threshold : Int) (words : Array Word) :
    Option (Ring k) :=
  if h : words.size = k.cellCount then some ⟨head, tail, threshold, ⟨words, h⟩⟩ else none

/-- The ring as it is shown for inspection. Its cells are not shown. -/
def rendering (r : Ring k) : Rendering :=
  .record "IndexRing" [
    ("order", .nat k.exponent),
    ("head", .nat r.head.toNat),
    ("tail", .nat r.tail.toNat),
    ("threshold", .int r.threshold)] false

/-- The order with the given exponent, for a ring to be made. -/
def orderOf (exponent : Nat) : Except Fault Order :=
  match Order.ofNat? exponent with
  | some k => .ok k
  | none => .error .ringOrder

/-- An empty ring of the order with the given exponent. -/
def withOrder (exponent : Nat) : Except Fault ((k : Order) × Ring k) :=
  (orderOf exponent).map fun k => ⟨k, empty k⟩

/-- A ring of the order with the given exponent that holds `start, …, stop - 1`. -/
def withRange (exponent start stop : Nat) : Except Fault ((k : Order) × Ring k) :=
  (orderOf exponent).bind fun k => (filled k start stop).map fun r => ⟨k, r⟩

/-- The number of the cell of the cursor `c` in the order with the given exponent. -/
def cellNumber (exponent : Nat) (c : Cursor) : Except Fault Nat :=
  match Order.ofNat? exponent with
  | some k => .ok (k.cell c)
  | none => .error .cursorOrder

end Ring

end CircularQueue
