import CircularQueue.Proofs.Cells

/-!
# Laps as numbers

Signed differences compare two laps only while they are near each other. As long as no cursor has
passed `2 ^ 61` all laps are near the first one, and the lap of a word is a number, its `turn`. A
word is behind a cursor if its turn is less than that of the cursor's lap, and the cursors of one
cell are ordered as their turns are.

The word that a consumer leaves behind never has a lesser turn than the word it found, nor loses a
mark, and it bars the cell to a producer of the same cursor: it is not behind that cursor, which
means that it has the consumer's turn or a greater one, or it is marked and holds an index.
-/

namespace CircularQueue.Order

variable {k : Order}

/-- How far the lap of the word `w` is from the first one, in words. -/
def turn (k : Order) (w : Word) : Int := gap (k.lapOf w) (k.lap 0)

theorem turn_eq_iff {v w : Word} : k.turn v = k.turn w ↔ k.lapOf v = k.lapOf w :=
  ⟨eq_of_gap_eq, fun h => by rw [turn, turn, h]⟩

theorem turn_eq_turn_lap_iff {w : Word} {c : Cursor} :
    k.turn w = k.turn (k.lap c) ↔ k.lapOf w = k.lap c := by
  rw [turn_eq_iff, lapOf_lap]

@[simp] theorem turn_published (k : Order) (c : Cursor) {i : Nat} (hi : i < k.cellCount) :
    k.turn (k.published c i) = k.turn (k.lap c) :=
  turn_eq_turn_lap_iff.2 (k.lapOf_published c hi)

theorem turn_lap {c : Cursor} (hc : c.toNat ≤ 2 ^ 61) :
    k.turn (k.lap c) = 2 * (c.toNat : Int) - 2 * (c.toNat % k.cellCount : Nat) := by
  have hcount := k.cellCount_le
  have hplace := Nat.mod_lt c.toNat k.cellCount_pos
  have hmod := Nat.mod_le c.toNat k.cellCount
  have hword := k.toNat_lap c
  have hzero := k.toNat_lap 0
  rw [Nat.mod_eq_of_lt (show 2 * c.toNat < 2 ^ 64 by omega)] at hword
  simp only [UInt64.toNat_zero, Nat.zero_mod, Nat.mul_zero] at hzero
  rw [turn, lapOf_lap]
  refine gap_eq_of_toNat ?_ (by omega) (by omega)
  omega

theorem turn_unusedWord (k : Order) : k.turn unusedWord = -2 * k.cellCount := by
  have hcount := k.cellCount_le
  have hunused : k.lapOf unusedWord = unusedWord := by
    apply eq_of_testBit
    intro i hi
    have hbit : unusedWord.toNat.testBit i = true := by
      rw [show unusedWord.toNat = 2 ^ 64 - 1 from rfl, Nat.testBit_two_pow_sub_one]
      simpa using hi
    rw [lapOf, UInt64.toNat_or, Nat.testBit_or, hbit, Bool.true_or]
  have hword : unusedWord.toNat = 2 ^ 64 - 1 := rfl
  have hzero := k.toNat_lap 0
  simp only [UInt64.toNat_zero, Nat.zero_mod, Nat.mul_zero] at hzero
  rw [turn, hunused]
  refine gap_eq_of_toNat ?_ (by omega) (by omega)
  omega

/-- A turn that a cell may have while no cursor has passed `2 ^ 61`. -/
def Timely (k : Order) (w : Word) : Prop := -2 * k.cellCount ≤ k.turn w ∧ k.turn w ≤ 2 ^ 62

theorem timely_lap {c : Cursor} (hc : c.toNat ≤ 2 ^ 61) : k.Timely (k.lap c) := by
  have hmod := Nat.mod_le c.toNat k.cellCount
  rw [Timely, turn_lap hc]
  omega

theorem timely_of_turn_eq {v w : Word} (hw : k.Timely w) (h : k.turn v = k.turn w) :
    k.Timely v := by
  rw [Timely, h]
  exact hw

theorem behind_iff_turn_lt {w : Word} {c : Cursor} (hw : k.Timely w) (hc : c.toNat ≤ 2 ^ 61) :
    k.Behind w c ↔ k.turn w < k.turn (k.lap c) := by
  have hcount := k.cellCount_le
  obtain ⟨hlo, hhi⟩ := hw
  obtain ⟨hlo', hhi'⟩ := timely_lap (k := k) hc
  have hself : k.turn (k.lap c) = gap (k.lap c) (k.lap 0) := by rw [turn, lapOf_lap]
  have hword : k.turn w = gap (k.lapOf w) (k.lap 0) := rfl
  have hgap := gap_eq_sub (a := k.lapOf w) (b := k.lap c) (k.lap 0) (by omega) (by omega)
  rw [Behind, hgap]
  omega

theorem turn_lap_le_iff {c d : Cursor} (hcell : k.cell c = k.cell d) (hc : c.toNat ≤ 2 ^ 61)
    (hd : d.toNat ≤ 2 ^ 61) : k.turn (k.lap c) ≤ k.turn (k.lap d) ↔ c.toNat ≤ d.toNat := by
  rw [turn_lap hc, turn_lap hd, cell_eq_iff.1 hcell]
  omega

/-- While no cursor has passed `2 ^ 61`, the lap of a cell tells its cursors apart. -/
theorem eq_of_lap_eq_of_le {c d : Cursor} (hcell : k.cell c = k.cell d) (hlap : k.lap c = k.lap d)
    (hc : c.toNat ≤ 2 ^ 61) (hd : d.toNat ≤ 2 ^ 61) : c = d := by
  have hturn : k.turn (k.lap c) = k.turn (k.lap d) := by rw [hlap]
  rw [turn_lap hc, turn_lap hd, cell_eq_iff.1 hcell] at hturn
  exact UInt64.toNat_inj.1 (by omega)

/-! Marked words. -/

/-- The safe flag of the word `w` is cleared. -/
def Marked (k : Order) (w : Word) : Prop := k.clearSafe w = w

instance (k : Order) (w : Word) : Decidable (k.Marked w) := inferInstanceAs (Decidable (_ = _))

theorem marked_iff_testBit {w : Word} :
    k.Marked w ↔ w.toNat.testBit (k.exponent + 1) = false := by
  have hwidth := k.exponent_add_two_lt
  constructor
  · intro h
    rw [← show k.clearSafe w = w from h, clearSafe, UInt64.toNat_and, Nat.testBit_and,
      testBit_not _ (by omega), testBit_safeFlag]
    simp
  · intro h
    apply eq_of_testBit
    intro i hi
    rw [clearSafe, UInt64.toNat_and, Nat.testBit_and, testBit_not _ hi, testBit_safeFlag]
    grind

@[simp] theorem marked_clearSafe (k : Order) (w : Word) : k.Marked (k.clearSafe w) := by
  rw [Marked, clearSafe, clearSafe, UInt64.and_assoc, UInt64.and_self]

theorem marked_emptied_iff {w : Word} : k.Marked (k.emptied w) ↔ k.Marked w := by
  rw [marked_iff_testBit, marked_iff_testBit, emptied, UInt64.toNat_or, Nat.testBit_or,
    testBit_indexMask]
  simp

theorem marked_closed_iff {w : Word} {c : Cursor} : k.Marked (k.closed c w) ↔ k.Marked w := by
  have hwidth := k.exponent_add_two_lt
  rw [marked_iff_testBit, marked_iff_testBit]
  simp only [closed, UInt64.toNat_xor, UInt64.toNat_and, Nat.testBit_xor, Nat.testBit_and,
    testBit_not _ (show k.exponent + 1 < 64 by omega), testBit_safeFlag,
    testBit_lap k c (show k.exponent + 1 < 64 by omega)]
  simp

theorem not_marked_of_eq_lapOf {w : Word} (h : w = k.lapOf w) : ¬ k.Marked w := by
  rw [marked_iff_testBit, h, lapOf, UInt64.toNat_or, Nat.testBit_or, testBit_belowLap]
  simp

/-- A producer may write a cell that is vacant and of an earlier lap, at once if it is not
marked. -/
theorem behind_of_admission {t : Cursor} {w : Word} (h : k.admission t w ≠ .refused) :
    k.Behind w t ∧ k.Vacant w := by
  rw [vacant_iff_eq_lapOf]
  unfold admission at h
  split at h
  · rename_i hbehind
    split at h
    · rename_i hfree
      exact ⟨hbehind, .inl hfree⟩
    · split at h
      · rename_i hguarded
        exact ⟨hbehind, .inr hguarded⟩
      · exact absurd rfl h
  · exact absurd rfl h

theorem not_marked_of_admission {t : Cursor} {w : Word} (h : k.admission t w = .free) :
    ¬ k.Marked w := by
  unfold admission at h
  split at h
  · split at h
    · rename_i hfree
      exact not_marked_of_eq_lapOf hfree
    · split at h <;> cases h
  · cases h

/-! What a consumer leaves. -/

theorem turn_visited (k : Order) (c : Cursor) (w : Word) :
    k.turn (k.visited c w) =
      if k.Behind w c ∧ k.Vacant w then k.turn (k.lap c) else k.turn w := by
  have hlap := k.lapOf_visited c w
  by_cases hclosed : k.Behind w c ∧ k.Vacant w
  · rw [if_pos hclosed] at hlap ⊢
    exact turn_eq_turn_lap_iff.2 hlap
  · rw [if_neg hclosed] at hlap ⊢
    exact turn_eq_iff.2 hlap

theorem Marked.visited {w : Word} (h : k.Marked w) (c : Cursor) : k.Marked (k.visited c w) := by
  unfold Order.visited
  split
  · exact marked_emptied_iff.2 h
  · split
    · split
      · exact marked_closed_iff.2 h
      · exact k.marked_clearSafe w
    · exact h

/-- The word `w` keeps out a producer that comes to the cursor `c` after the consumers. -/
def Barred (k : Order) (w : Word) (c : Cursor) : Prop := k.Behind w c → k.Marked w ∧ ¬ k.Vacant w

/-- Every consumer bars the cell to its own cursor. -/
theorem barred_visited_self (k : Order) (c : Cursor) (w : Word) : k.Barred (k.visited c w) c := by
  unfold visited
  split
  · rename_i hlap
    exact fun hbehind => absurd (behind_emptied_iff.1 hbehind) (not_behind_of_lapOf_eq hlap)
  · split
    · split
      · exact fun hbehind => absurd hbehind (not_behind_of_lapOf_eq (k.lapOf_closed c w))
      · rename_i hvacant
        exact fun _ => ⟨k.marked_clearSafe w, mt vacant_clearSafe_iff.1 hvacant⟩
    · rename_i hbehind
      exact fun hbehind' => absurd hbehind' hbehind

section

variable {w : Word} {c : Cursor}

theorem turn_le_turn_visited (hw : k.Timely w) (hc : c.toNat ≤ 2 ^ 61) :
    k.turn w ≤ k.turn (k.visited c w) := by
  rw [turn_visited]
  split
  · rename_i hclosed
    exact ((behind_iff_turn_lt hw hc).1 hclosed.1).le
  · exact le_rfl

theorem timely_visited (hw : k.Timely w) (hc : c.toNat ≤ 2 ^ 61) :
    k.Timely (k.visited c w) := by
  have hturn := k.turn_visited c w
  split at hturn
  · exact timely_of_turn_eq (timely_lap hc) hturn
  · exact timely_of_turn_eq hw hturn

/-- The cell that a consumer leaves has its turn or a greater one, or is marked and holds an
index. -/
theorem barred_visited (hw : k.Timely w) (hc : c.toNat ≤ 2 ^ 61) :
    k.turn (k.lap c) ≤ k.turn (k.visited c w) ∨
      k.Marked (k.visited c w) ∧ ¬ k.Vacant (k.visited c w) := by
  by_cases hbehind : k.Behind (k.visited c w) c
  · exact .inr (k.barred_visited_self c w hbehind)
  · rw [behind_iff_turn_lt (timely_visited hw hc) hc] at hbehind
    exact .inl (Int.not_lt.1 hbehind)

/-- A consumer that leaves a vacant word of an earlier lap as it was is not there. -/
theorem visited_ne_of_behind (hbehind : k.Behind w c) (hvacant : k.Vacant w) :
    k.visited c w ≠ w := by
  intro heq
  have hturn := k.turn_visited c w
  rw [if_pos ⟨hbehind, hvacant⟩, heq, turn_eq_turn_lap_iff] at hturn
  exact not_behind_of_lapOf_eq hturn hbehind

/-- A word of a later lap is left as it is. -/
theorem visited_eq_of_turn_lt (hw : k.Timely w) (hc : c.toNat ≤ 2 ^ 61)
    (hturn : k.turn (k.lap c) < k.turn w) : k.visited c w = w := by
  have hlap : k.lapOf w ≠ k.lap c := fun hlap => by
    rw [turn_eq_turn_lap_iff.2 hlap] at hturn
    omega
  have hbehind : ¬ k.Behind w c := by
    rw [behind_iff_turn_lt hw hc]
    omega
  exact visited_eq_self hlap hbehind

end

/-- What a consumer that finds nothing due writes over the word it saw, if it has to write, is the
word that it leaves. -/
theorem sight_cases (k : Order) (c : Cursor) (w : Word) :
    (k.sight c w = .due (k.indexOf w) ∧ k.lapOf w = k.lap c) ∨
    (k.lapOf w ≠ k.lap c ∧ ∃ barred, barred.getD w = k.visited c w ∧
      (k.sight c w = .stale barred ∨ k.sight c w = .vacant barred ∧ k.Vacant w)) := by
  unfold sight visited
  simp only [← vacant_iff_or_safeFlag]
  by_cases hlap : k.lapOf w = k.lap c
  · simp [hlap]
  · by_cases hvacant : k.Vacant w
    · by_cases hbehind : k.Behind w c <;> simp [hlap, hvacant, hbehind]
    · by_cases hbehind : k.Behind w c
      · by_cases hsafe : w = k.clearSafe w
        · simp [hlap, hvacant, hbehind, ← hsafe]
        · simp [hlap, hvacant, hbehind, hsafe]
      · simp [hlap, hvacant, hbehind]

end CircularQueue.Order
