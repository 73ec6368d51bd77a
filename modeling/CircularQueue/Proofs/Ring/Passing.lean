import CircularQueue.Proofs.Turns
import CircularQueue.Proofs.Ring.Window

/-!
# What a passing consumer leaves behind

A consumer that may give up passes some cells before its call ends, and what it makes of their words
depends on nothing but the words. An index it does not take stays where it is, of the same lap, and
may get its safe flag cleared; an empty cell stays empty, with its safe flag, and may get a later
lap. And behind the consumer every cell is barred: a producer that comes late to a cursor the head
has passed finds a word that is not behind that cursor, or one that is marked and holds an index.
Such a cell stays barred when its index is taken, since the head is past the cursor by then.
-/

namespace CircularQueue

namespace Order

variable {k : Order} {c h : Cursor} {v w : Word}

/-- What looks that found nothing due may have made of the word `v`: at most a cleared safe flag if
it holds an index, at most a later lap if it does not. -/
structure Survives (k : Order) (v w : Word) : Prop where
  vacant_iff : k.Vacant w ↔ k.Vacant v
  marked_iff : k.Vacant v → (k.Marked w ↔ k.Marked v)
  eq_or_eq : ¬ k.Vacant v → w = v ∨ w = k.clearSafe v

namespace Survives

theorem refl (v : Word) : k.Survives v v := ⟨Iff.rfl, fun _ => Iff.rfl, fun _ => .inl rfl⟩

theorem trans {u : Word} (huv : k.Survives u v) (hvw : k.Survives v w) : k.Survives u w where
  vacant_iff := hvw.vacant_iff.trans huv.vacant_iff
  marked_iff hu := (hvw.marked_iff (huv.vacant_iff.2 hu)).trans (huv.marked_iff hu)
  eq_or_eq hu := by
    rcases huv.eq_or_eq hu with rfl | rfl
    · exact hvw.eq_or_eq hu
    · rcases hvw.eq_or_eq (mt huv.vacant_iff.1 hu) with rfl | rfl
      · exact .inr rfl
      · exact .inr (k.marked_clearSafe u)

theorem visited (hlap : k.lapOf w ≠ k.lap c) : k.Survives w (k.visited c w) where
  vacant_iff := vacant_visited_iff.trans (or_iff_left hlap)
  marked_iff hvacant := by
    rw [Order.visited, if_neg hlap, if_pos hvacant]
    split
    · exact marked_closed_iff
    · exact Iff.rfl
  eq_or_eq hvacant := by
    rw [Order.visited, if_neg hlap, if_neg hvacant]
    split
    · exact .inr rfl
    · exact .inl rfl

theorem indexOf_eq (hvw : k.Survives v w) : k.indexOf w = k.indexOf v := by
  by_cases hvacant : k.Vacant v
  · rw [indexOf_of_vacant hvacant, indexOf_of_vacant (hvw.vacant_iff.2 hvacant)]
  · rcases hvw.eq_or_eq hvacant with rfl | rfl
    · rfl
    · exact k.indexOf_clearSafe v

theorem lapOf_eq (hvw : k.Survives v w) (hvacant : ¬ k.Vacant v) : k.lapOf w = k.lapOf v := by
  rcases hvw.eq_or_eq hvacant with rfl | rfl
  · rfl
  · exact k.lapOf_clearSafe v

end Survives

/-- What is barred to a cursor stays so when consumers of later ones come. -/
theorem Barred.visited (hw : k.Barred w h) (hcell : k.cell c = k.cell h) (hlo : 0 ≤ gap c h)
    (hhi : gap c h < 2 ^ 62) : k.Barred (k.visited c w) h := by
  -- A word that has got the later cursor's lap is not behind the earlier cursor.
  have hlater : k.lapOf (k.visited c w) = k.lap c → k.Barred (k.visited c w) h := by
    intro hlap hbehind
    rw [behind_iff hcell hlap.symm (by omega) hhi] at hbehind
    omega
  by_cases hlap : k.lapOf w = k.lap c
  · exact hlater (by rw [lapOf_visited, if_neg fun h => not_behind_of_lapOf_eq hlap h.1, hlap])
  · by_cases hbehind : k.Behind w c
    · by_cases hvacant : k.Vacant w
      · exact hlater (by rw [lapOf_visited, if_pos ⟨hbehind, hvacant⟩])
      · intro _
        rw [Order.visited, if_neg hlap, if_pos hbehind, if_neg hvacant, vacant_clearSafe_iff]
        exact ⟨k.marked_clearSafe w, hvacant⟩
    · rwa [visited_eq_self hlap hbehind]

end Order

namespace Ring

variable {k : Order} {r : Ring k} {h : Cursor}

/-- The looks of a call: each but the last finds nothing due, and the last does only if its index is
the answer. -/
inductive Looks (r : Ring k) : Option Nat → Nat → Prop
  | found {m : Nat} (hbefore : ∀ i < m, ¬ (r.afterLooks i).Due) (hdue : (r.afterLooks m).Due) :
      Looks r (some (k.indexOf ((r.afterLooks m).word (r.afterLooks m).head))) (m + 1)
  | nothing {n : Nat} (hbefore : ∀ i < n, ¬ (r.afterLooks i).Due) : Looks r none n

/-- A call is some looks, and moves the head and the cells as they do. -/
theorem exists_looks {patience : Nat} {answer : Option Nat} {r' : Ring k}
    (hcall : r.dequeueWith patience = (answer, r')) :
    ∃ n ≤ (r.threshold + 1).toNat,
      r.Looks answer n ∧ r'.head = (r.afterLooks n).head ∧ r'.cells = (r.afterLooks n).cells := by
  by_cases hspent : r.threshold < 0
  · rw [dequeueWith_of_threshold_neg patience hspent] at hcall
    cases hcall
    exact ⟨0, Nat.zero_le _, .nothing (by simp), rfl, rfl⟩
  · obtain ⟨m, hm, hends, hbefore⟩ := r.exists_endsAfter patience r.threshold.toNat
    have hnone (hdue : ¬ (r.afterLooks m).Due) : ∀ i < m + 1, ¬ (r.afterLooks i).Due := by
      intro i hi
      rcases Nat.lt_succ_iff_lt_or_eq.1 hi with hlt | rfl
      · exact (hbefore i hlt).1
      · exact hdue
    rw [dequeueWith, if_neg hspent] at hcall
    rw [hcall] at hends
    refine ⟨m + 1, by omega, ?_⟩
    cases hends with
    | due hdue => exact ⟨.found (fun i hi => (hbefore i hi).1) hdue, rfl, rfl⟩
    | overtaken hdue hgap => exact ⟨.nothing (hnone hdue), rfl, rfl⟩
    | exhausted hdue hgap hlast => exact ⟨.nothing (hnone hdue), rfl, rfl⟩

section

variable {m : Nat}

/-- Every word survives looks that find nothing due. -/
theorem survives_afterLooks (hdue : ∀ i < m, ¬ (r.afterLooks i).Due) (x : Fin k.cellCount) :
    k.Survives (r.cells.get x) ((r.afterLooks m).cells.get x) := by
  induction m with
  | zero => exact .refl _
  | succ m ih =>
    have hstep : (r.afterLooks (m + 1)).cells.get x = _ := (r.afterLooks m).get_cells_step x
    rw [hstep]
    refine (ih fun i hi => hdue i (Nat.lt_succ_of_lt hi)).trans ?_
    split
    · rename_i hcell
      subst hcell
      exact .visited (hdue m (Nat.lt_succ_self m))
    · exact .refl _

/-- A word that is ahead of all of them is not touched. -/
theorem cells_afterLooks_of_not_behind (hdue : ∀ i < m, ¬ (r.afterLooks i).Due)
    {x : Fin k.cellCount}
    (hahead : ∀ i < m, k.cell (r.head + i.toUInt64) = x →
      ¬ k.Behind (r.cells.get x) (r.head + i.toUInt64)) :
    (r.afterLooks m).cells.get x = r.cells.get x := by
  induction m with
  | zero => rfl
  | succ m ih =>
    have hstep : (r.afterLooks (m + 1)).cells.get x = _ := (r.afterLooks m).get_cells_step x
    have hsame := ih (fun i hi => hdue i (Nat.lt_succ_of_lt hi))
      fun i hi => hahead i (Nat.lt_succ_of_lt hi)
    rw [hstep]
    split
    · rename_i hcell
      subst hcell
      have hbehind := hahead m (Nat.lt_succ_self m)
      rw [← head_afterLooks, ← hsame] at hbehind
      exact (Order.visited_eq_self (hdue m (Nat.lt_succ_self m)) (hbehind rfl)).trans hsame
    · exact hsame

/-- Behind the looks every cell is barred, whatever they found. -/
theorem barred_afterLooks (hm : m ≤ 2 ^ 62) {j : Nat} (hj : j < m) :
    k.Barred ((r.afterLooks m).word (r.head + j.toUInt64)) (r.head + j.toUInt64) := by
  induction m with
  | zero => exact absurd hj (Nat.not_lt_zero j)
  | succ m ih =>
    have hstep : (r.afterLooks (m + 1)).word (r.head + j.toUInt64) = _ :=
      (r.afterLooks m).get_cells_step (k.cell (r.head + j.toUInt64))
    rw [hstep, head_afterLooks]
    rcases Nat.lt_succ_iff_lt_or_eq.1 hj with hlt | rfl
    · have hgap := gap_offsets (c := r.head) (i := m) (j := j) (by omega) (by omega)
      split
      · rename_i hcell
        exact (ih (by omega) hlt).visited hcell (by omega) (by omega)
      · exact ih (by omega) hlt
    · rw [if_pos rfl]
      exact k.barred_visited_self _ _

end

/-! What a whole call leaves. -/

/-- A consumer that moved the head from `start` to `stop` has looked at the cursor `c`. -/
def LookedAt (start stop c : Cursor) : Prop := 0 ≤ gap c start ∧ gap c start < gap stop start

instance (start stop c : Cursor) : Decidable (LookedAt start stop c) :=
  inferInstanceAs (Decidable (_ ∧ _))

/-- The cell that held the word `v` of the index `i` holds `w` after the index has been taken: the
index field is filled, the rest is as it was. -/
structure Took (k : Order) (i : Nat) (v w : Word) : Prop where
  index : k.indexOf v = i
  word : w = k.emptied v
  indexOf : k.indexOf w = k.cellCount - 1
  lapOf : k.lapOf w = k.lapOf v
  marked_iff : k.Marked w ↔ k.Marked v

/-- The word `v` of the cell `x` was not taken by the looks of a consumer that moved the head from
`start` to `stop`, and the cell holds `w` after them: an index stays with its lap, an empty cell
stays empty with its safe flag, and nothing changes where no look found a word behind it. -/
structure Kept (k : Order) (start stop : Cursor) (x : Fin k.cellCount) (v w : Word) : Prop where
  index : k.indexOf w = k.indexOf v
  lap : ¬ k.Vacant v → k.lapOf w = k.lapOf v
  flag : ¬ k.Vacant v → w = v ∨ w = k.clearSafe v
  vacant : k.Vacant v → k.Vacant w
  marked_iff : k.Vacant v → (k.Marked w ↔ k.Marked v)
  ahead : (∀ c, LookedAt start stop c → k.cell c = x → ¬ k.Behind v c) → w = v
  outside : (∀ c, LookedAt start stop c → k.cell c ≠ x) → w = v

/-- A producer that comes to the cursor `h` does not write its cell, but goes on to another
cursor. -/
structure Shut (r : Ring k) (h : Cursor) : Prop where
  usable : r.usable h = false
  enqueue : ∀ {i : Nat} {nonempty accepted : Bool} {r' : Ring k},
    { r with tail := h }.enqueue i nonempty = some (accepted, r') →
    r' = { r with tail := h } ∨ ∃ t ≠ h, r' = r.publish t i nonempty

theorem shut_of_usable (husable : r.usable h = false) : r.Shut h where
  usable := husable
  enqueue {i nonempty accepted r'} hcall := by
    rw [Ring.enqueue] at hcall
    split at hcall
    · split at hcall
      · rename_i t hfirst
        cases hcall
        have ht : r.usable t = true := firstUsable?_eq_some (r := { r with tail := h }) hfirst
        refine .inr ⟨t, ?_, rfl⟩
        rintro rfl
        rw [husable] at ht
        cases ht
      · cases hcall
    · cases hcall
      exact .inl rfl

theorem shut_of_barred (hbarred : k.Barred (r.word h) h) : r.Shut h := by
  apply shut_of_usable
  rw [Bool.eq_false_iff, Ne, usable_iff]
  rintro ⟨hbehind, hvacant, -⟩
  exact (hbarred hbehind).2 hvacant

/-- The index in a barred cell may be taken. -/
theorem shut_of_barred_emptied (hbarred : k.Barred (r.word h) h) (hpassed : 0 < gap r.head h) :
    (r.write h (k.emptied (r.word h))).Shut h := by
  apply shut_of_usable
  rw [Bool.eq_false_iff, Ne, usable_iff, word_write_self, head_write, Order.behind_emptied_iff]
  rintro ⟨hbehind, -, hsafe | hgap⟩
  · exact Order.not_marked_of_eq_lapOf hsafe (Order.marked_emptied_iff.2 (hbarred hbehind).1)
  · omega

section

variable {n : Nat} {answer : Option Nat}

theorem lookedAt_afterLooks_iff (hn : n < 2 ^ 63) {c : Cursor} :
    LookedAt r.head (r.afterLooks n).head c ↔ ∃ j < n, c = r.head + j.toUInt64 := by
  rw [LookedAt, head_afterLooks, gap_add_self hn]
  constructor
  · rintro ⟨hlo, hhi⟩
    exact ⟨(gap c r.head).toNat, by omega, eq_add_gap hlo⟩
  · rintro ⟨j, hj, rfl⟩
    rw [gap_add_self (by omega)]
    omega

theorem kept_afterLooks {m : Nat} (hdue : ∀ i < m, ¬ (r.afterLooks i).Due) (hmn : m ≤ n)
    (hn : n < 2 ^ 63) (x : Fin k.cellCount) :
    Kept k r.head (r.afterLooks n).head x (r.cells.get x) ((r.afterLooks m).cells.get x) := by
  have hsurvives := survives_afterLooks hdue x
  have hlooked {i : Nat} (hi : i < m) :
      LookedAt r.head (r.afterLooks n).head (r.head + i.toUInt64) :=
    (lookedAt_afterLooks_iff hn).2 ⟨i, by omega, rfl⟩
  exact {
    index := hsurvives.indexOf_eq
    lap := hsurvives.lapOf_eq
    flag := hsurvives.eq_or_eq
    vacant := hsurvives.vacant_iff.2
    marked_iff := hsurvives.marked_iff
    ahead := fun hahead =>
      cells_afterLooks_of_not_behind hdue fun i hi => hahead _ (hlooked hi)
    outside := fun houtside =>
      cells_afterLooks_of_not_behind hdue fun i hi hcell => absurd hcell (houtside _ (hlooked hi)) }

theorem head_afterLooks_succ_sub_one (r : Ring k) (m : Nat) :
    (r.afterLooks (m + 1)).head - 1 = (r.afterLooks m).head := by
  simp [afterLooks]

/-- The index that a call answers was in the cell of its last look, as it was before the call. -/
theorem Looks.took {i : Nat} (h : r.Looks (some i) n) (hn : n < 2 ^ 62) :
    LookedAt r.head (r.afterLooks n).head ((r.afterLooks n).head - 1) ∧
      Took k i (r.word ((r.afterLooks n).head - 1))
        ((r.afterLooks n).word ((r.afterLooks n).head - 1)) := by
  cases h with
  | @found m hbefore hdue =>
  have hword := word_afterLooks_of_dueAt (r := r) (Nat.le_refl m) (by omega)
    ((due_afterLooks_iff (by omega)).1 hdue)
  have hlast : r.head + m.toUInt64 = (r.afterLooks (m + 1)).head - 1 := by
    rw [head_afterLooks_succ_sub_one, head_afterLooks]
  have hleft : (r.afterLooks (m + 1)).word (r.head + m.toUInt64) =
      k.emptied (r.word (r.head + m.toUInt64)) := by
    rw [← hword, ← head_afterLooks]
    exact (word_step_of_cell_eq (r := r.afterLooks m) rfl).trans (if_pos hdue)
  rw [← hlast, hleft]
  refine ⟨(lookedAt_afterLooks_iff (by omega)).2 ⟨m, Nat.lt_succ_self m, rfl⟩, ?_⟩
  exact {
    index := by rw [head_afterLooks, hword]
    word := rfl
    indexOf := Order.indexOf_of_vacant (k.vacant_emptied _)
    lapOf := k.lapOf_emptied _
    marked_iff := Order.marked_emptied_iff }

theorem Looks.kept (h : r.Looks answer n) (hn : n < 2 ^ 62) {x : Fin k.cellCount}
    (hx : answer = none ∨ x ≠ k.cell ((r.afterLooks n).head - 1)) :
    Kept k r.head (r.afterLooks n).head x (r.cells.get x) ((r.afterLooks n).cells.get x) := by
  cases h with
  | nothing hbefore => exact kept_afterLooks hbefore (Nat.le_refl n) (by omega) x
  | @found m hbefore hdue =>
    have hne : k.cell (r.afterLooks m).head ≠ x := by
      rw [head_afterLooks_succ_sub_one] at hx
      exact (hx.resolve_left (Option.some_ne_none _)).symm
    have hstep : (r.afterLooks (m + 1)).cells.get x = _ := (r.afterLooks m).get_cells_step x
    rw [hstep, if_neg hne]
    exact kept_afterLooks hbefore (Nat.le_succ m) (by omega) x

end

/-- A call that may give up loses nothing, whatever the words are, and closes every door behind it.
If it takes an index it does so from the cell of the last cursor it looked at, whose index field is
full then. Every other cell keeps its index. And a producer that comes late to a cursor that was
looked at does not write its cell there, not even when the index in it has been taken since. -/
theorem dequeue_bars_behind (r : Ring k) (hfull : r.threshold ≤ k.fullThreshold) (patience : Nat)
    {answer : Option Nat} {r' : Ring k} (hcall : r.dequeueWith patience = (answer, r')) :
    (∀ i, answer = some i →
      LookedAt r.head r'.head (r'.head - 1) ∧
        Took k i (r.word (r'.head - 1)) (r'.word (r'.head - 1))) ∧
    (∀ x : Fin k.cellCount, answer = none ∨ x ≠ k.cell (r'.head - 1) →
      Kept k r.head r'.head x (r.cells.get x) (r'.cells.get x)) ∧
    (∀ h, LookedAt r.head r'.head h →
      r'.Shut h ∧ (r'.write h (k.emptied (r'.word h))).Shut h) := by
  have hcount := k.cellCount_le
  have hcapacity := k.cellCount_eq
  rw [Order.fullThreshold] at hfull
  obtain ⟨n, hn, hlooks, hhead, hcells⟩ := exists_looks hcall
  have hword (c : Cursor) : r'.word c = (r.afterLooks n).word c := by rw [word, word, hcells]
  refine ⟨?_, ?_, fun h hlooked => ?_⟩
  · rintro i rfl
    rw [hword, hhead]
    exact hlooks.took (by omega)
  · rw [hhead, hcells]
    exact fun x hx => hlooks.kept (by omega) hx
  · rw [hhead, lookedAt_afterLooks_iff (by omega)] at hlooked
    obtain ⟨j, hj, rfl⟩ := hlooked
    have hbarred : k.Barred (r'.word (r.head + j.toUInt64)) (r.head + j.toUInt64) := by
      rw [hword]
      exact barred_afterLooks (by omega) hj
    have hpassed : 0 < gap r'.head (r.head + j.toUInt64) := by
      rw [hhead, head_afterLooks, gap_offsets (by omega) (by omega)]
      omega
    exact ⟨shut_of_barred hbarred, shut_of_barred_emptied hbarred hpassed⟩

/-- The ring `ahead` after a call. -/
def passed : Ring Order.one where
  head := 6
  tail := 10
  threshold := 1
  cells := #v[11, 15, 0xFFFFFFFFFFFFFFF8, 7]

/-- The call takes the index of the second cell, leaves that of the third unsafe and shuts the cell
to the cursor two, also for the time after that index is taken. -/
theorem dequeue_bars_behind_ahead :
    ahead.threshold ≤ Order.one.fullThreshold ∧ ahead.dequeueWith 0 = (some 1, passed) ∧
    Took Order.one 1 13 15 ∧
    Kept Order.one 1 6 (Order.one.cell 2) 0xFFFFFFFFFFFFFFFC 0xFFFFFFFFFFFFFFF8 ∧
    passed.Shut 2 ∧ (passed.write 2 0xFFFFFFFFFFFFFFFB).Shut 2 := by
  have hfull : ahead.threshold ≤ Order.one.fullThreshold := by decide
  have hcall : ahead.dequeueWith 0 = (some 1, passed) := by decide
  obtain ⟨htook, hkept, hshut⟩ := dequeue_bars_behind ahead hfull 0 hcall
  obtain ⟨hpassed, htaken⟩ := hshut 2 (by decide)
  exact ⟨hfull, hcall, (htook 1 rfl).2, hkept (Order.one.cell 2) (by decide), hpassed, htaken⟩

end Ring

end CircularQueue
