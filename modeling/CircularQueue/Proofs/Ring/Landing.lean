import CircularQueue.Interleaving.Producer
import CircularQueue.Proofs.Turns
import CircularQueue.Proofs.Ring.Window

/-!
# Where a producer lands

A producer compares whole words: the word of a cell with the same word with all bits below its lap
set, and with that word less the safe flag. For a word of an earlier lap the two comparisons ask for
no more than its fields: the index field is empty, and the safe flag is set or no consumer has gone
past. A cell of which that holds is open, and a call lands at the first open cursor from the tail
on, whatever the words are. It changes that cell only, which held no index and was of an earlier
lap, and a consumer that comes to the cursor takes the index at once.

Access by access a producer that nobody disturbs does what a whole call does. Where no cursor is
usable it goes round for ever.
-/

namespace CircularQueue

namespace Order

variable {k : Order} {w : Word}

/-- A vacant word with its safe flag set has all bits below the lap set. -/
theorem eq_lapOf_iff_not_marked (hvacant : k.Vacant w) : w = k.lapOf w ↔ ¬ k.Marked w := by
  refine ⟨not_marked_of_eq_lapOf, fun hsafe => ?_⟩
  refine (vacant_iff_eq_lapOf.1 hvacant).resolve_right fun hflag => hsafe ?_
  rw [marked_iff_testBit, hflag, UInt64.toNat_xor, Nat.testBit_xor, lapOf, UInt64.toNat_or,
    Nat.testBit_or, testBit_belowLap, testBit_safeFlag]
  simp

theorem not_marked_published {i : Nat} (hi : i < k.cellCount) (c : Cursor) :
    ¬ k.Marked (k.published c i) := by
  have hwidth := k.exponent_add_two_lt
  rw [marked_iff_testBit, testBit_published k c hi (by omega), testBit_lap k c (by omega)]
  simp

end Order

/-! ## A producer alone -/

namespace Interleaving.Producer

open CircularQueue.Ring

variable {k : Order} {i : Nat} {nonempty : Bool} {r s : Ring k} {t u : Cursor}

/-- A producer goes from a location to the end of its call without another thread moving in between,
and leaves the given ring. -/
inductive Ends (i : Nat) (nonempty : Bool) : Ring k → Producer → Ring k → Prop
  | answer {r s : Ring k} {location : Producer}
      (hstep : location.step i nonempty r false = (s, .answer ())) : Ends i nonempty r location s
  | goto {r s t : Ring k} {location location' : Producer}
      (hstep : location.step i nonempty r false = (s, .goto location'))
      (hrest : Ends i nonempty s location' t) : Ends i nonempty r location t

/-- The exchange does not fail, and the threshold is full afterwards unless it is left alone. -/
theorem ends_exchange : Ends i nonempty { r with tail := t + 1 } (.exchange t (r.word t))
    (r.publish t i nonempty) := by
  cases nonempty with
  | true => exact .answer (if_pos ⟨rfl, rfl⟩)
  | false =>
    refine .goto (if_pos ⟨rfl, rfl⟩) ?_
    by_cases hfull : r.threshold = k.fullThreshold
    · refine .answer ((congrArg (Prod.mk _) (if_pos hfull)).trans ?_)
      obtain ⟨head, tail, threshold, cells⟩ := r
      subst hfull
      rfl
    · exact .goto (congrArg (Prod.mk _) (if_neg hfull)) (.answer rfl)

theorem ends_reserve_of_usable (husable : r.usable t = true) :
    Ends i nonempty { r with tail := t } .reserve (r.publish t i nonempty) := by
  have hcell : Ends i nonempty { r with tail := t + 1 } (weigh k t (r.word t))
      (r.publish t i nonempty) := by
    rw [usable] at husable
    rw [weigh]
    cases hadmission : k.admission t (r.word t) with
    | refused =>
      rw [hadmission] at husable
      cases husable
    | free => exact ends_exchange
    | guarded =>
      rw [hadmission] at husable
      exact .goto (congrArg (fun next => (_, Next.goto next)) (if_pos (of_decide_eq_true husable)))
        ends_exchange
  exact .goto rfl (.goto rfl hcell)

theorem ends_reserve_of_not_usable (husable : r.usable t = false)
    (hrest : Ends i nonempty { r with tail := t + 1 } .reserve s) :
    Ends i nonempty { r with tail := t } .reserve s := by
  have hcell : Ends i nonempty { r with tail := t + 1 } (weigh k t (r.word t)) s := by
    rw [usable] at husable
    rw [weigh]
    cases hadmission : k.admission t (r.word t) with
    | refused => exact hrest
    | free =>
      rw [hadmission] at husable
      cases husable
    | guarded =>
      rw [hadmission] at husable
      exact .goto (congrArg (fun next => (_, Next.goto next)) (if_neg (of_decide_eq_false husable)))
        hrest
  exact .goto rfl (.goto rfl hcell)

/-- A producer alone publishes at the first usable cursor. -/
theorem ends_of_firstUsable {attempts : Nat} (hfirst : r.firstUsable? t attempts = some u) :
    Ends i nonempty { r with tail := t } .reserve (r.publish u i nonempty) := by
  induction attempts generalizing t with
  | zero => cases hfirst
  | succ attempts ih =>
    rw [firstUsable?] at hfirst
    split at hfirst
    · rename_i husable
      cases hfirst
      exact ends_reserve_of_usable husable
    · rename_i husable
      exact ends_reserve_of_not_usable (Bool.eq_false_iff.2 husable) (ih hfirst)

/-- A producer that comes to no exchange, since no cursor is usable. -/
def Lost (r : Ring k) : Producer → Prop
  | .reserve | .readCell _ => True
  | .readHead cursor _ => ¬ gap r.head cursor ≤ 0
  | _ => False

theorem lost_weigh (husable : r.usable t = false) : (weigh k t (r.word t)).Lost r := by
  rw [usable] at husable
  rw [weigh]
  cases hadmission : k.admission t (r.word t) with
  | refused => trivial
  | free =>
    rw [hadmission] at husable
    cases husable
  | guarded =>
    rw [hadmission] at husable
    exact of_decide_eq_false husable

/-- In a ring without a usable cursor a producer alone goes on for ever. -/
theorem not_ends_of_lost {location : Producer} (hnone : ∀ t, r.usable t = false)
    (hlost : location.Lost r) : ¬ Ends i nonempty r location s := by
  intro hends
  induction hends with
  | @answer r s location hstep =>
    cases location with
    | reserve | readCell c | readHead c seen => cases hstep
    | exchange c seen | readThreshold | resetThreshold => exact hlost
  | @goto r s t location location' hstep hrest ih =>
    cases location with
    | reserve =>
      cases hstep
      exact ih hnone trivial
    | readCell c =>
      cases hstep
      exact ih hnone (lost_weigh (hnone c))
    | readHead c seen =>
      have hnext : (r, Next.goto Producer.reserve) = (s, .goto location') :=
        (congrArg (fun next => (r, Next.goto next)) (if_neg hlost)).symm.trans hstep
      cases hnext
      exact ih hnone trivial
    | exchange c seen | readThreshold | resetThreshold => exact hlost

end Interleaving.Producer

namespace Ring

open Interleaving

variable {k : Order} {r : Ring k} {t : Cursor} {i : Nat} {nonempty : Bool}

/-- The cell of the cursor `t` is empty and of an earlier lap, and safe unless no consumer has gone
past. -/
def OpenAt (r : Ring k) (t : Cursor) : Prop :=
  k.Behind (r.word t) t ∧ k.Vacant (r.word t) ∧ (¬ k.Marked (r.word t) ∨ gap r.head t ≤ 0)

instance (r : Ring k) (t : Cursor) : Decidable (r.OpenAt t) :=
  inferInstanceAs (Decidable (_ ∧ _ ∧ _))

theorem usable_iff_openAt : r.usable t = true ↔ r.OpenAt t := by
  rw [usable_iff]
  refine and_congr_right fun _ => and_congr_right fun hvacant => ?_
  rw [Order.eq_lapOf_iff_not_marked hvacant]

/-- `t` is the first cursor from the tail on whose cell is open. -/
def FirstOpen (r : Ring k) (t : Cursor) : Prop :=
  ∃ j < cursorCount, t = r.tail + j.toUInt64 ∧ r.OpenAt t ∧
    ∀ j' < j, ¬ r.OpenAt (r.tail + j'.toUInt64)

theorem firstUsable?_eq_some_iff : r.firstUsable? r.tail cursorCount = some t ↔ r.FirstOpen t := by
  rw [firstUsable?_eq_find?, Option.map_eq_some_iff]
  simp only [List.find?_range_eq_some, Bool.not_eq_true', List.mem_range]
  constructor
  · rintro ⟨j, ⟨husable, hj, hfirst⟩, rfl⟩
    refine ⟨j, hj, rfl, usable_iff_openAt.1 husable, fun j' hj' hopen => ?_⟩
    exact Bool.eq_false_iff.1 (hfirst j' hj') (usable_iff_openAt.2 hopen)
  · rintro ⟨j, hj, rfl, hopen, hfirst⟩
    refine ⟨j, ⟨usable_iff_openAt.2 hopen, hj, fun j' hj' => ?_⟩, rfl⟩
    exact Bool.eq_false_iff.2 (mt usable_iff_openAt.1 (hfirst j' hj'))

/-- The search comes to every cursor there is. -/
theorem firstUsable?_eq_none_iff :
    r.firstUsable? r.tail cursorCount = none ↔ ∀ t, ¬ r.OpenAt t := by
  rw [firstUsable?_eq_find?, Option.map_eq_none_iff, List.find?_eq_none]
  constructor
  · intro hnone t hopen
    have hround : r.tail + (t - r.tail).toNat.toUInt64 = t := by
      have hself : (t - r.tail).toNat.toUInt64 = t - r.tail := UInt64.ofNat_toNat
      rw [hself, UInt64.add_comm, UInt64.sub_add_cancel]
    refine hnone (t - r.tail).toNat (List.mem_range.2 (t - r.tail).toNat_lt) ?_
    rw [hround]
    exact usable_iff_openAt.2 hopen
  · intro hnone j _ husable
    exact hnone _ (usable_iff_openAt.1 husable)

/-- The index `i` was published at the cursor `t` of the ring `r`, which left the ring `r'`. Only
the cell of that cursor changed, no index was overwritten, and no cell went back to an earlier
lap. -/
structure Lands (r r' : Ring k) (t : Cursor) (i : Nat) (nonempty : Bool) : Prop where
  head : r'.head = r.head
  tail : r'.tail = t + 1
  threshold : r'.threshold = if nonempty then r.threshold else k.fullThreshold
  index : k.indexOf (r'.word t) = i
  safe : ¬ k.Marked (r'.word t)
  lap : k.lapOf (r'.word t) = k.lap t
  changes_iff : ∀ x : Fin k.cellCount, r'.cells.get x ≠ r.cells.get x ↔ k.cell t = x
  keeps : ∀ x : Fin k.cellCount, ¬ k.Vacant (r.cells.get x) → r'.cells.get x = r.cells.get x
  forward : ∀ x : Fin k.cellCount, gap (k.lapOf (r.cells.get x)) (k.lapOf (r'.cells.get x)) ≤ 0

/-- The next consumer takes the index `i` from the cell at the head, whether it may give up or
not. -/
def Offers (r : Ring k) (i : Nat) : Prop :=
  ∃ r' : Ring k, r'.head = r.head + 1 ∧ r.dequeueNonempty = some (i, r') ∧
    (0 ≤ r.threshold → ∀ patience, r.dequeueWith patience = (some i, r'))

theorem offers_of_published (hi : i < k.cellCount) (hword : r.word r.head = k.published r.head i) :
    r.Offers i := by
  have hcount : cursorCount = 2 ^ 64 - 1 + 1 := by decide
  have hdue : r.Due := by rw [Due, hword, k.lapOf_published r.head hi]
  have hindex : k.indexOf (r.word r.head) = i := by rw [hword, k.indexOf_published r.head hi]
  refine ⟨r.step, rfl, ?_, fun hspent patience => ?_⟩
  · rw [dequeueNonempty, hcount, seek, visit_of_due hdue, hindex]
  · rw [dequeueWith, if_neg (Int.not_lt.2 hspent), probe_of_due hdue, hindex]

theorem lands_publish (hi : i < k.capacity) (hopen : r.OpenAt t) (nonempty : Bool) :
    r.Lands (r.publish t i nonempty) t i nonempty := by
  obtain ⟨hbehind, hvacant, -⟩ := hopen
  have hlt : i < k.cellCount := hi.trans k.capacity_lt_cellCount
  have hoccupied := k.not_vacant_published t hi
  have hword : (r.publish t i nonempty).word t = k.published t i := word_publish_of_cell_eq rfl
  have hcells := r.get_cells_publish t i nonempty
  have hold : r.cells.get (k.cell t) = r.word t := rfl
  refine ⟨rfl, rfl, rfl, ?_, ?_, ?_, fun x => ?_, fun x hx => ?_, fun x => ?_⟩
  · rw [hword, k.indexOf_published t hlt]
  · rw [hword]
    exact Order.not_marked_published hlt t
  · rw [hword, k.lapOf_published t hlt]
  · rw [hcells]
    by_cases hx : k.cell t = x
    · subst hx
      simp only [↓reduceIte, iff_true, hold]
      intro heq
      exact hoccupied (heq ▸ hvacant)
    · simp [hx]
  · rw [hcells, if_neg]
    rintro rfl
    exact hx hvacant
  · rw [hcells]
    split
    · rename_i hx
      subst hx
      rw [k.lapOf_published t hlt]
      exact le_of_lt hbehind
    · rw [gap_self]

/-- A call is told by the fields of the words before it, whatever they are. An index out of range is
refused, and nothing changes. Otherwise the call returns if there is an open cursor at all, and
lands at the first one from the tail on. A consumer that comes to that cursor then, with whatever
tail and threshold, takes the index there. A producer alone comes to the same end access by access,
or to none. -/
theorem enqueue_lands (r : Ring k) (i : Nat) (nonempty : Bool) :
    (k.capacity ≤ i → r.enqueue i nonempty = some (false, r)) ∧
    (i < k.capacity →
      (r.enqueue i nonempty = none ↔ ∀ t, ¬ r.OpenAt t) ∧
      (r.enqueue i nonempty = none → ∀ s, ¬ Producer.Ends i nonempty r .reserve s) ∧
      ∀ accepted r', r.enqueue i nonempty = some (accepted, r') →
        accepted = true ∧ Producer.Ends i nonempty r .reserve r' ∧
          ∃ t, r.FirstOpen t ∧ r.Lands r' t i nonempty ∧
            ∀ s : Ring k, s.cells = r'.cells → s.head = t → s.Offers i) := by
  refine ⟨enqueue_of_capacity_le nonempty, fun hi => ?_⟩
  have hnone : r.enqueue i nonempty = none ↔ ∀ t, ¬ r.OpenAt t := by
    rw [enqueue, if_pos hi, ← firstUsable?_eq_none_iff]
    cases r.firstUsable? r.tail cursorCount <;> simp
  refine ⟨hnone, fun hcall s => ?_, fun accepted r' hcall => ?_⟩
  · refine Producer.not_ends_of_lost (fun t => ?_) trivial
    exact Bool.eq_false_iff.2 (mt usable_iff_openAt.1 (hnone.1 hcall t))
  · rw [enqueue, if_pos hi] at hcall
    cases hfirst : r.firstUsable? r.tail cursorCount with
    | none =>
      rw [hfirst] at hcall
      cases hcall
    | some t =>
      rw [hfirst] at hcall
      cases hcall
      have hopen := firstUsable?_eq_some_iff.1 hfirst
      refine ⟨rfl, Producer.ends_of_firstUsable hfirst, t, hopen, ?_, fun s hcells hhead => ?_⟩
      · obtain ⟨j, -, -, hopen, -⟩ := hopen
        exact lands_publish hi hopen nonempty
      · subst hhead
        refine offers_of_published (hi.trans k.capacity_lt_cellCount) ?_
        rw [word, hcells]
        exact word_publish_of_cell_eq rfl

/-- In the ring `ahead` the first cursor is refused, since its cell holds an index, and the call
lands at the second. -/
theorem enqueue_lands_ahead :
    1 < Order.one.capacity ∧ ∃ r', ahead.enqueue 1 false = some (true, r') ∧
      ahead.FirstOpen 11 ∧ ahead.Lands r' 11 1 false ∧ { r' with head := 11 }.Offers 1 := by
  have hrange : 1 < Order.one.capacity := by decide
  obtain ⟨-, hcall⟩ := enqueue_lands ahead 1 false
  obtain ⟨-, -, hlands⟩ := hcall hrange
  have henqueue : ahead.enqueue 1 false = some (true, ahead.publish 11 1 false) := by
    decide +kernel
  obtain ⟨-, -, t, hopen, hland, hoffers⟩ := hlands true _ henqueue
  obtain rfl : t = 11 := by
    have htail : (12 : Cursor) = t + 1 := hland.tail
    rw [← UInt64.add_sub_cancel t 1, ← htail]
    decide
  exact ⟨hrange, _, henqueue, hopen, hland, hoffers _ rfl rfl⟩

end Ring

end CircularQueue
