import CircularQueue.Proofs.Checked.Arithmetic
import CircularQueue.Proofs.Ring.Steps

/-!
# Rings with all their checks

A bare ring is a ring as it lies in memory: an order that is any number, cells that are any array,
and three words. Nothing in its type vouches for a cursor to have a cell. Its calls are the calls of
a ring with every check made where it comes up: the sizes are computed from the order, each cell is
looked up by its number, and every sum, difference, product and shift has to fit.

A ring forgets its type and is then a bare ring. On such a bare ring no call fails a check, whatever
the order, the cursors, the threshold and the words of the cells are: it does what the call of the
ring does. Only a call that does not return has nothing to answer.
-/

namespace CircularQueue

/-- A ring as it lies in memory. -/
structure BareRing where
  order : Nat
  head : Cursor
  tail : Cursor
  threshold : Int
  cells : Array Word

/-- The ring without what its type says of it. -/
def Ring.bare {k : Order} (r : Ring k) : BareRing :=
  ⟨k.exponent, r.head, r.tail, r.threshold, r.cells.toArray⟩

namespace BareRing

open Checked

def setHead (r : BareRing) (h : Cursor) : BareRing := { r with head := h }

def setTail (r : BareRing) (t : Cursor) : BareRing := { r with tail := t }

def setThreshold (r : BareRing) (threshold : Int) : BareRing := { r with threshold }

/-! ## The calls -/

/-- The cell of the cursor `c`, among those there are. -/
def cellAt (r : BareRing) (c : Cursor) : Checked (Fin r.cells.size) := do
  let i ← position c r.order
  if h : i < r.cells.size then .ok ⟨i, h⟩ else .error (.outOfBounds i r.cells.size)

/-- The word of the cell of the cursor `c`. -/
def load (r : BareRing) (c : Cursor) : Checked Word := do
  let i ← r.cellAt c
  return r.cells[i]

/-- The ring with the word `w` in the cell of the cursor `c`. -/
def store (r : BareRing) (c : Cursor) (w : Word) : Checked BareRing := do
  let i ← r.cellAt c
  return { r with cells := r.cells.set i w }

/-- New cells for a ring of the order. -/
def newCells (order : Nat) : Checked (Array Word) := do
  let n ← cellCount order
  return Array.replicate n.toNat unusedWord

/-- A new ring of the order that holds no index. -/
def withOrder (order : Nat) : Checked BareRing := do
  let order ← ensure (order ≤ maxOrder) (.fault .ringOrder) order
  let cells ← newCells order
  return { order, head := 0, tail := 0, threshold := -1, cells }

/-- The ring emptied in its own cells. -/
def clear (r : BareRing) : BareRing :=
  { r with head := 0, tail := 0, threshold := -1, cells := r.cells.map fun _ => unusedWord }

/-- An empty ring of the order, in new cells if the order is another one. -/
def reset (r : BareRing) (order : Nat) : Checked BareRing := do
  let order ← ensure (order ≤ maxOrder) (.fault .ringOrder) order
  if order = r.order then return r.clear
  else
    let cells ← newCells order
    return clear { r with order, cells }

/-- The word of the cell of the cursor `c` in a ring of `n` cells filled with
`start, …, stop - 1`. -/
def filledWord (n : Word) (start stop c : Nat) : Checked Word :=
  if c < start then belowLap n
  else if c < stop then plus n c.toUInt64
  else return unusedWord

/-- The ring with its first cells filled, so many of them. -/
def fillCells (r : BareRing) (n : Word) (start stop : Nat) : Nat → Checked BareRing
  | 0 => return r
  | c + 1 => do
    let r ← r.fillCells n start stop c
    let w ← filledWord n start stop c
    r.store c.toUInt64 w

/-- The ring filled in its own cells with the indices `start, …, stop - 1`. -/
def fill (r : BareRing) (start stop : Nat) : Checked BareRing := do
  let start ← ensure (start ≤ stop) (.fault (.fillReversed start stop)) start
  let capacity ← capacity r.order
  let stop ← ensure (stop ≤ capacity) (.fault (.fillTooLong stop)) stop
  let n ← cellCount r.order
  let r ← r.fillCells n start stop n.toNat
  let threshold ← if start = stop then pure (-1) else fullThreshold r.order
  return { r with head := start.toUInt64, tail := stop.toUInt64, threshold }

/-- A new ring of the order that holds the indices `start, …, stop - 1`. -/
def filled (order start stop : Nat) : Checked BareRing := do
  let r ← withOrder order
  r.fill start stop

/-- What a producer that holds the cursor `t` may do with a cell that reads `w`, where `low` are the
bits below the lap. -/
def admission (n low : Word) (t : Cursor) (w : Word) : Admission :=
  if gap (w ||| low) (t <<< 1 ||| low) < 0 then
    if w = w ||| low then .free
    else if w = (w ||| low) ^^^ n then .guarded
    else .refused
  else .refused

/-- A producer may write the cell of the cursor `t`, which reads `w`. -/
def usable (r : BareRing) (n low : Word) (t : Cursor) (w : Word) : Bool :=
  match admission n low t w with
  | .refused => false
  | .free => true
  | .guarded => gap r.head t ≤ 0

/-- Publishes a word that differs in the bits `mark` from the lap of its cursor, at the first cursor
that takes it, in at most the given number of attempts. -/
def place (r : BareRing) (n low mark : Word) (nonempty : Bool) : Nat → Checked BareRing
  | 0 => .error (.fault .stalled)
  | attempts + 1 => do
    let t := r.tail
    let r := r.setTail (t + 1)
    let w ← r.load t
    if r.usable n low t w then
      let r ← r.store t ((t <<< 1 ||| low) ^^^ mark)
      if nonempty then return r
      else
        let threshold ← fullThreshold r.order
        return r.setThreshold threshold
    else r.place n low mark nonempty attempts

/-- Publishes the index `i` and says whether it was in range. -/
def enqueue (r : BareRing) (i : Nat) (nonempty : Bool) : Checked (Bool × BareRing) := do
  let capacity ← capacity r.order
  if capacity ≤ i then return (false, r)
  else
    let n ← cellCount r.order
    let low ← belowLap n
    let mask ← indexMask n
    let r ← r.place n low (i.toUInt64 ^^^ mask) nonempty cursorCount
    return (true, r)

/-- What a consumer that holds the cursor `h` finds in a cell that reads `w`, where `low` are the
bits below the lap. -/
def sight (n low : Word) (h : Cursor) (w : Word) : Checked Sight :=
  if w ||| low = h <<< 1 ||| low then do
    let mask ← indexMask n
    return .due (w &&& mask).toNat
  else
    let behind := gap (w ||| low) (h <<< 1 ||| low) < 0
    if w ||| n = w ||| low then
      return .vacant (if behind then some ((h <<< 1 ||| low) ^^^ (~~~w &&& n)) else none)
    else return .stale (if w ≠ w &&& ~~~n ∧ behind then some (w &&& ~~~n) else none)

/-- What the consumer at the cursor `h` finds in its cell in the end, having found it vacant
`attempts` times. -/
def look (r : BareRing) (n low : Word) (h : Cursor) (attempts : Nat) : Checked Sight := do
  let w ← r.load h
  let seen ← sight n low h w
  match seen with
  | .vacant closed =>
    let _ ← plusHalf attempts 1
    if attempts + 1 ≤ Ring.publishPatience ∧ 0 < gap r.tail h then r.look n low h (attempts + 1)
    else return .vacant closed
  | .due i => return .due i
  | .stale marked => return .stale marked
termination_by Ring.publishPatience - attempts

/-- One look of a consumer: the index it takes, if any, and the ring it leaves. -/
def visit (r : BareRing) (n low : Word) : Checked (Option Nat × BareRing) := do
  let h := r.head
  let r := r.setHead (h + 1)
  let seen ← r.look n low h 0
  match seen with
  | .due i =>
    let mask ← indexMask n
    let w ← r.load h
    let r ← r.store h (w ||| mask)
    return (some i, r)
  | .stale (some w) =>
    let r ← r.store h w
    return (none, r)
  | .vacant (some w) =>
    let r ← r.store h w
    return (none, r)
  | .stale none => return (none, r)
  | .vacant none => return (none, r)

/-- Looks on, in at most the given number of looks, for an index that is known to be there, or as
long as the tail is ahead and the threshold lasts. -/
def pursue (r : BareRing) (n low : Word) (nonempty : Bool) :
    Nat → Checked (Option Nat × BareRing)
  | 0 => .error (.fault .stalled)
  | looks + 1 => do
    let (taken, r) ← r.visit n low
    match taken with
    | some i => return (some i, r)
    | none =>
      if nonempty then r.pursue n low nonempty looks
      else
        let spent := r.threshold - 1
        if gap r.tail r.head ≤ 0 then return (none, (r.setTail r.head).setThreshold spent)
        else if r.threshold ≤ 0 then return (none, r.setThreshold spent)
        else (r.setThreshold spent).pursue n low nonempty looks

/-- Takes the oldest index, or answers that there is none. A consumer that knows there is one does
not ask whether the ring is empty. -/
def dequeue (r : BareRing) (nonempty : Bool) : Checked (Option Nat × BareRing) :=
  if nonempty = false ∧ r.threshold < 0 then return (none, r)
  else do
    let n ← cellCount r.order
    let low ← belowLap n
    r.pursue n low nonempty (if nonempty then cursorCount else r.threshold.toNat + 1)

/-- The number of cursors handed to producers and not yet to consumers. -/
def distance (r : BareRing) : Nat := (gap r.tail r.head).toNat

end BareRing

/-! ## They do what the calls of the ring do -/

/-- The answer of a call that may not return. -/
def Checked.answered {β : Type} : Option β → Checked β
  | some x => .ok x
  | none => .error (.fault .stalled)

namespace Ring

open Checked

variable {k : Order}

@[simp] theorem order_bare (r : Ring k) : r.bare.order = k.exponent := rfl

@[simp] theorem head_bare (r : Ring k) : r.bare.head = r.head := rfl

@[simp] theorem tail_bare (r : Ring k) : r.bare.tail = r.tail := rfl

@[simp] theorem setHead_bare (r : Ring k) (h : Cursor) :
    r.bare.setHead h = bare { r with head := h } := rfl

@[simp] theorem setTail_bare (r : Ring k) (t : Cursor) :
    r.bare.setTail t = bare { r with tail := t } := rfl

/-- Every cursor has a cell in the ring. -/
theorem cellAt_bare (r : Ring k) (c : Cursor) :
    r.bare.cellAt c = .ok ⟨k.cell c, by rw [bare, Vector.size_toArray]; exact (k.cell c).isLt⟩ := by
  rw [BareRing.cellAt, order_bare, Order.position_exponent, ok_bind, dif_pos]

@[simp] theorem load_bare (r : Ring k) (c : Cursor) : r.bare.load c = .ok (r.word c) := by
  rw [BareRing.load, cellAt_bare, ok_bind, pure_eq_ok]
  rfl

@[simp] theorem store_bare (r : Ring k) (c : Cursor) (w : Word) :
    r.bare.store c w = .ok (r.write c w).bare := by
  rw [BareRing.store, cellAt_bare, ok_bind, pure_eq_ok]
  rfl

/-! ### New rings, cleared ones and filled ones -/

theorem newCells_exponent (k : Order) :
    BareRing.newCells k.exponent = .ok (empty k).cells.toArray := by
  rw [BareRing.newCells, Order.cellCount_exponent, ok_bind, Order.toNat_safeFlag, pure_eq_ok, empty,
    Vector.toArray_replicate]

theorem withOrder_bare (k : Order) : BareRing.withOrder k.exponent = .ok (empty k).bare := by
  rw [BareRing.withOrder, ensure_of k.exponent_le, ok_bind, newCells_exponent]
  rfl

theorem clear_bare (r : Ring k) : r.bare.clear = r.clear.bare := by
  simp only [BareRing.clear, bare, clear, Vector.toArray_map]

theorem reset_bare (r : Ring k) (l : Order) :
    r.bare.reset l.exponent = .ok (r.reset l).bare := by
  rw [BareRing.reset, ensure_of l.exponent_le, ok_bind, order_bare]
  split
  · rename_i hexponent
    obtain rfl : l = k := by
      cases l
      cases k
      cases hexponent
      rfl
    rw [clear_bare, reset, dif_pos rfl, pure_eq_ok]
  · have hnew := clear_bare ⟨r.head, r.tail, r.threshold, (empty l).cells⟩
    rw [clear_eq_empty] at hnew
    rw [newCells_exponent, ok_bind, reset_eq_empty]
    exact congrArg Except.ok hnew

theorem filledWord_safeFlag (k : Order) (start stop : Nat) {c : Nat} (hc : c < k.cellCount) :
    BareRing.filledWord k.safeFlag start stop c = .ok (filledWord k start stop c) := by
  have hcells := k.cellCount_le
  have hword : c.toUInt64.toNat = c := Nat.mod_eq_of_lt (by omega)
  have hsum : plus k.safeFlag c.toUInt64 = .ok (k.safeFlag + c.toUInt64) := by
    refine ensure_of ?_
    rw [Order.toNat_safeFlag, hword]
    omega
  rw [BareRing.filledWord, filledWord, Order.belowLap_safeFlag, hsum, pure_eq_ok]
  split
  · rfl
  · split <;> rfl

theorem fillCells_bare (r : Ring k) (start stop : Nat) {c : Nat} (hc : c ≤ k.cellCount) :
    r.bare.fillCells k.safeFlag start stop c = .ok
      (bare { r with
        cells := c.fold (fun c _ cells => writeCell cells c.toUInt64 (filledWord k start stop c))
          r.cells }) := by
  induction c with
  | zero => rfl
  | succ c ih =>
    rw [BareRing.fillCells, ih (Nat.le_of_succ_le hc), ok_bind, filledWord_safeFlag k start stop hc,
      ok_bind, store_bare]
    rfl

theorem fillRange_bare (r : Ring k) {start stop : Nat} (hrange : start ≤ stop)
    (hstop : stop ≤ k.capacity) :
    r.bare.fill start stop = .ok (r.fillRange start stop hrange hstop).bare := by
  rw [BareRing.fill, ensure_of hrange]
  simp only [ok_bind, order_bare, Order.capacity_exponent, ensure_of hstop,
    Order.cellCount_exponent, Order.toNat_safeFlag, fillCells_bare r start stop (Nat.le_refl _)]
  rw [fillRange]
  split
  · rfl
  · rw [Order.fullThreshold_exponent]
    rfl

/-- Filling a ring breaks off only for a range that is none or does not fit. -/
theorem fill_bare (r : Ring k) (start stop : Nat) :
    r.bare.fill start stop = ((r.fill start stop).map bare).mapError .fault := by
  by_cases hrange : start ≤ stop
  · by_cases hstop : stop ≤ k.capacity
    · rw [fillRange_bare r hrange hstop, fill, dif_pos hrange, dif_pos hstop]
      rfl
    · rw [BareRing.fill, ensure_of hrange, ok_bind, order_bare, Order.capacity_exponent, ok_bind,
        ensure_of_not hstop, fill, dif_pos hrange, dif_neg hstop]
      rfl
  · rw [BareRing.fill, ensure_of_not hrange, fill, dif_neg hrange]
    rfl

/-! ### Publishing an index -/

theorem usable_bare (r : Ring k) (t : Cursor) :
    r.bare.usable k.safeFlag k.belowLap t (r.word t) = r.usable t :=
  rfl

/-- A producer's search starts at the tail and looks at nothing else that its failures change. -/
theorem place_bare (r : Ring k) (i : Nat) (nonempty : Bool) (t : Cursor) (attempts : Nat) :
    (bare { r with tail := t }).place k.safeFlag k.belowLap (i.toUInt64 ^^^ k.indexMask) nonempty
        attempts =
      answered ((r.firstUsable? t attempts).map fun t => (r.publish t i nonempty).bare) := by
  induction attempts generalizing t with
  | zero => rfl
  | succ attempts ih =>
    have husable : usable { r with tail := t + 1 } t = r.usable t := rfl
    rw [BareRing.place, firstUsable?]
    simp only [tail_bare, setTail_bare, load_bare, ok_bind, usable_bare, husable]
    split
    · simp only [store_bare, ok_bind, order_bare, Order.fullThreshold_exponent]
      cases nonempty <;> rfl
    · exact ih (t + 1)

/-- Publishing an index fails no check, whatever the ring is like. -/
theorem enqueue_bare (r : Ring k) (i : Nat) (nonempty : Bool) :
    r.bare.enqueue i nonempty =
      answered ((r.enqueue i nonempty).map (Prod.map id bare)) := by
  rw [BareRing.enqueue, enqueue, order_bare, Order.capacity_exponent, ok_bind]
  by_cases hi : i < k.capacity
  · have hplace := place_bare r i nonempty r.tail cursorCount
    rw [if_neg (Nat.not_le.2 hi), if_pos hi]
    simp only [Order.cellCount_exponent, Order.belowLap_safeFlag, Order.indexMask_safeFlag, ok_bind]
    rw [hplace]
    cases r.firstUsable? r.tail cursorCount <;> rfl
  · rw [if_pos (Nat.not_lt.1 hi), if_neg hi]
    rfl

/-! ### Taking an index -/

theorem sight_safeFlag (k : Order) (h : Cursor) (w : Word) :
    BareRing.sight k.safeFlag k.belowLap h w = .ok (k.sight h w) := by
  by_cases hlap : k.lapOf w = k.lap h
  · rw [Order.sight, if_pos hlap]
    exact (if_pos hlap).trans (by rw [Order.indexMask_safeFlag]; rfl)
  · rw [Order.sight, if_neg hlap]
    refine (if_neg hlap).trans ?_
    by_cases hvacant : w ||| k.safeFlag = k.lapOf w
    · rw [if_pos hvacant]
      exact if_pos hvacant
    · rw [if_neg hvacant]
      exact if_neg hvacant

/-- A vacant cell is read again only so often that the count of the readings stays a half word. -/
theorem look_bare (r : Ring k) (h : Cursor) {attempts : Nat} (hle : attempts ≤ publishPatience) :
    r.bare.look k.safeFlag k.belowLap h attempts = .ok (k.sight h (r.word h)) := by
  induction hleft : publishPatience - attempts using Nat.strong_induction_on
    generalizing attempts with
  | h left ih =>
    have hsum : plusHalf attempts 1 = .ok (attempts + 1) :=
      ensure_of (Nat.lt_of_le_of_lt (Nat.succ_le_succ hle) (by decide))
    rw [BareRing.look]
    simp only [load_bare, sight_safeFlag, ok_bind, hsum]
    split
    · rename_i closed hseen
      split
      · rename_i hmore
        exact ih _ (by omega) hmore.1 rfl
      · rw [hseen]
        rfl
    · rename_i i hseen
      rw [hseen]
      rfl
    · rename_i marked hseen
      rw [hseen]
      rfl

theorem visit_bare (r : Ring k) (patience : Nat) :
    r.bare.visit k.safeFlag k.belowLap = .ok (Prod.map id bare (r.visit patience)) := by
  rw [BareRing.visit, visit]
  simp only [head_bare, setHead_bare, look_bare _ _ (Nat.zero_le _), ok_bind, look_eq_sight]
  cases k.sight r.head (word { r with head := r.head + 1 } r.head) with
  | due i =>
    simp only [Order.indexMask_safeFlag, load_bare, store_bare, ok_bind]
    rfl
  | stale marked =>
    cases marked with
    | none => rfl
    | some w =>
      simp only [store_bare, ok_bind]
      rfl
  | vacant closed =>
    cases closed with
    | none => rfl
    | some w =>
      simp only [store_bare, ok_bind]
      rfl

/-- A consumer that knows of an index looks on as the consumer of the ring does. -/
theorem pursue_bare_of_nonempty (r : Ring k) (patience looks : Nat) :
    r.bare.pursue k.safeFlag k.belowLap true looks =
      answered ((r.seek patience looks).map (Prod.map some bare)) := by
  induction looks generalizing r with
  | zero => rfl
  | succ looks ih =>
    rw [BareRing.pursue, seek, visit_bare r patience, ok_bind]
    rcases r.visit patience with ⟨_ | i, r'⟩
    · exact ih r'
    · rfl

theorem pursue_bare_of_due {r : Ring k} (hdue : r.Due) (looks : Nat) :
    r.bare.pursue k.safeFlag k.belowLap false (looks + 1) =
      .ok (some (k.indexOf (r.word r.head)), r.step.bare) := by
  rw [BareRing.pursue, visit_bare r 0, visit_of_due hdue]
  rfl

theorem pursue_bare_of_not_due {r : Ring k} (hdue : ¬ r.Due) (looks : Nat) :
    r.bare.pursue k.safeFlag k.belowLap false (looks + 1) =
      if gap r.tail (r.head + 1) ≤ 0 then .ok (none, r.step.catchUp.spend.bare)
      else if r.threshold ≤ 0 then .ok (none, r.step.spend.bare)
      else r.step.spend.bare.pursue k.safeFlag k.belowLap false looks := by
  rw [BareRing.pursue, visit_bare r 0, visit_of_not_due hdue]
  rfl

/-- A look that finds an index, or the tail no longer ahead, is the last one. -/
theorem pursue_bare_of_settled {r : Ring k} (hsettled : r.Due ∨ gap r.tail (r.head + 1) ≤ 0)
    (patience budget : Nat) :
    r.bare.pursue k.safeFlag k.belowLap false (budget + 1) =
      .ok (Prod.map id bare (r.probe patience budget)) := by
  by_cases hdue : r.Due
  · rw [pursue_bare_of_due hdue, probe_of_due hdue]
    rfl
  · have hgap := hsettled.resolve_left hdue
    rw [pursue_bare_of_not_due hdue, if_pos hgap, probe_of_overtaken hdue hgap]
    rfl

/-- A consumer that has to be told of an empty ring looks as often as its threshold allows. -/
theorem pursue_bare_of_threshold (r : Ring k) (patience : Nat) {budget : Nat}
    (hbudget : r.threshold = budget) :
    r.bare.pursue k.safeFlag k.belowLap false (budget + 1) =
      .ok (Prod.map id bare (r.probe patience budget)) := by
  induction budget generalizing r with
  | zero =>
    by_cases hsettled : r.Due ∨ gap r.tail (r.head + 1) ≤ 0
    · exact pursue_bare_of_settled hsettled patience 0
    · obtain ⟨hdue, hgap⟩ := not_or.1 hsettled
      have hout : r.threshold ≤ 0 := by omega
      rw [pursue_bare_of_not_due hdue, if_neg hgap, if_pos hout,
        probe_zero hdue (Int.not_le.1 hgap)]
      rfl
  | succ budget ih =>
    by_cases hsettled : r.Due ∨ gap r.tail (r.head + 1) ≤ 0
    · exact pursue_bare_of_settled hsettled patience (budget + 1)
    · obtain ⟨hdue, hgap⟩ := not_or.1 hsettled
      have hspent : r.step.spend.threshold = budget := by
        rw [threshold_spend, threshold_step, hbudget]
        omega
      have hleft : ¬ r.threshold ≤ 0 := by omega
      rw [pursue_bare_of_not_due hdue, if_neg hgap, if_neg hleft,
        probe_succ hdue (Int.not_le.1 hgap)]
      exact ih r.step.spend hspent

/-- Taking an index fails no check, whatever the ring is like. -/
theorem dequeue_bare (r : Ring k) : r.bare.dequeue false = .ok (Prod.map id bare r.dequeue) := by
  rw [dequeue, dequeueWith, BareRing.dequeue]
  by_cases hneg : r.threshold < 0
  · rw [if_pos ⟨rfl, hneg⟩, if_pos hneg]
    rfl
  · have hbudget : r.threshold = r.threshold.toNat := (Int.toNat_of_nonneg (Int.not_lt.1 hneg)).symm
    rw [if_neg fun h => hneg h.2, if_neg hneg, order_bare, Order.cellCount_exponent, ok_bind,
      Order.belowLap_safeFlag, ok_bind, if_neg Bool.false_ne_true]
    exact r.pursue_bare_of_threshold publishPatience hbudget

/-- Nor does a call for an index that is known to be there. -/
theorem dequeueNonempty_bare (r : Ring k) :
    r.bare.dequeue true = answered (r.dequeueNonempty.map (Prod.map some bare)) := by
  rw [BareRing.dequeue, if_neg fun h => Bool.noConfusion h.1, order_bare, Order.cellCount_exponent,
    ok_bind, Order.belowLap_safeFlag, ok_bind, if_pos rfl, dequeueNonempty]
  exact r.pursue_bare_of_nonempty publishPatience cursorCount

end Ring

end CircularQueue
