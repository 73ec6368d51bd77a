import CircularQueue.Proofs.Ring.FirstIn

/-!
# Moving a ring by whole laps

If every cursor moves by `m` laps and the lap of every word does too, nothing that a producer or a
consumer looks at changes: the cell of a cursor, the difference of two cursors, the difference of
two laps, the safe flag and the index field. So every call does the same to the moved ring, and
leaves it moved by `m` laps.

The laws of `Words` read a word bit by bit, which is no use here, since adding laps carries from bit
to bit. Instead each operation under a mask is written as a sum and a difference of words. The moves
of a word are multiples of `2 * cellCount`, so the bits under a mask of the fields stay, and the
rest is arithmetic modulo `2 ^ 64`.
-/

namespace CircularQueue

/-! Setting, clearing and flipping bits under a mask as sums and differences. -/

theorem add_eq_or_of_and_eq_zero {v w : Word} (h : v &&& w = 0) : v + w = v ||| w := by
  apply UInt64.toBitVec_inj.1
  rw [UInt64.toBitVec_add, UInt64.toBitVec_or]
  apply BitVec.add_eq_or_of_and_eq_zero
  rw [← UInt64.toBitVec_and, h]
  rfl

theorem and_add_not_and (v q : Word) : (v &&& q) + (~~~v &&& q) = q := by
  rw [add_eq_or_of_and_eq_zero]
  · apply eq_of_testBit
    intro i hi
    simp only [UInt64.toNat_or, UInt64.toNat_and, Nat.testBit_or, Nat.testBit_and,
      testBit_not v hi]
    cases v.toNat.testBit i <;> simp
  · rw [UInt64.and_assoc, UInt64.and_comm q, UInt64.and_assoc, ← UInt64.and_assoc v,
      UInt64.and_not_self, UInt64.zero_and]

theorem or_eq_add (v q : Word) : v ||| q = v + (q - (v &&& q)) := by
  have hrest := and_add_not_and v q
  have hor : v ||| q = v + (~~~v &&& q) := by
    rw [add_eq_or_of_and_eq_zero]
    · apply eq_of_testBit
      intro i hi
      simp only [UInt64.toNat_or, UInt64.toNat_and, Nat.testBit_or, Nat.testBit_and,
        testBit_not v hi]
      cases v.toNat.testBit i <;> simp
    · rw [← UInt64.and_assoc, UInt64.and_not_self, UInt64.zero_and]
  grind

theorem and_not_eq_sub (v q : Word) : v &&& ~~~q = v - (v &&& q) := by
  have hrest := and_add_not_and q v
  rw [UInt64.and_comm v, UInt64.and_comm v]
  grind

theorem xor_eq_sub (v q : Word) : v ^^^ q = v + (q - 2 * (v &&& q)) := by
  have hxor : v ^^^ q = (v ||| q) &&& ~~~(v &&& q) := by
    apply eq_of_testBit
    intro i hi
    simp only [UInt64.toNat_or, UInt64.toNat_and, UInt64.toNat_xor, Nat.testBit_or,
      Nat.testBit_and, Nat.testBit_xor, testBit_not _ hi]
    cases v.toNat.testBit i <;> simp
  have hand : (v ||| q) &&& (v &&& q) = v &&& q := by
    apply eq_of_testBit
    intro i hi
    simp only [UInt64.toNat_or, UInt64.toNat_and, Nat.testBit_or, Nat.testBit_and]
    cases v.toNat.testBit i <;> simp
  rw [hxor, and_not_eq_sub, hand, or_eq_add]
  grind

theorem gap_add_add (a b d : UInt64) : gap (a + d) (b + d) = gap a b := by
  have hsub : a + d - (b + d) = a - b := by grind
  rw [gap, gap, hsub]

namespace Order

/-- How far a cursor moves in `m` laps. The words of the cells move twice as far. -/
def laps (k : Order) (m : Nat) : UInt64 := (m * k.cellCount).toUInt64

theorem cellCount_dvd_laps (k : Order) (m : Nat) : k.cellCount ∣ (k.laps m).toNat := by
  have hword : (k.laps m).toNat = m * k.cellCount % 2 ^ 64 := by simp [laps]
  rw [hword]
  exact (Nat.dvd_mod_iff k.cellCount_dvd_two_pow).2 (Nat.dvd_mul_left _ _)

theorem two_mul_cellCount_dvd (k : Order) (m : Nat) :
    2 * k.cellCount ∣ (2 * k.laps m).toNat := by
  have hword : (2 * k.laps m).toNat = 2 * (k.laps m).toNat % 2 ^ 64 := UInt64.toNat_mul 2 _
  rw [hword]
  exact (Nat.dvd_mod_iff k.two_mul_cellCount_dvd_two_pow).2
    (Nat.mul_dvd_mul_left 2 (k.cellCount_dvd_laps m))

theorem cell_add_laps (k : Order) (c : Cursor) (m : Nat) : k.cell (c + k.laps m) = k.cell c := by
  obtain ⟨j, hj⟩ := k.cellCount_dvd_laps m
  rw [cell_eq_iff, UInt64.toNat_add, Nat.mod_mod_of_dvd _ k.cellCount_dvd_two_pow, hj,
    Nat.add_mul_mod_self_left]

/-- A move by whole laps leaves the safe flag and all bits below it as they are. -/
theorem add_laps_and (k : Order) (w : Word) (m : Nat) {q : Word}
    (hq : q.toNat < 2 * k.cellCount) : (w + 2 * k.laps m) &&& q = w &&& q := by
  have hwidth := k.two_mul_cellCount_eq_two_pow
  obtain ⟨j, hj⟩ := k.two_mul_cellCount_dvd m
  have hlow (v : Word) : (v &&& q).toNat = v.toNat % (2 * k.cellCount) &&& q.toNat := by
    rw [UInt64.toNat_and, hwidth]
    apply Nat.eq_of_testBit_eq
    intro i
    rw [Nat.testBit_and, Nat.testBit_and, Nat.testBit_mod_two_pow]
    by_cases hi : i < k.exponent + 2
    · simp [hi]
    · have hbit : q.toNat.testBit i = false :=
        Nat.testBit_lt_two_pow (Nat.lt_of_lt_of_le (hwidth ▸ hq)
          (Nat.pow_le_pow_right (by decide) (by omega)))
      simp [hbit]
  apply UInt64.toNat_inj.1
  rw [hlow, hlow, UInt64.toNat_add, Nat.mod_mod_of_dvd _ k.two_mul_cellCount_dvd_two_pow, hj,
    Nat.add_mul_mod_self_left]

theorem add_laps_or (k : Order) (w : Word) (m : Nat) {q : Word} (hq : q.toNat < 2 * k.cellCount) :
    (w + 2 * k.laps m) ||| q = (w ||| q) + 2 * k.laps m := by
  rw [or_eq_add, or_eq_add, k.add_laps_and w m hq]
  grind

theorem add_laps_xor (k : Order) (w : Word) (m : Nat) {q : Word} (hq : q.toNat < 2 * k.cellCount) :
    (w + 2 * k.laps m) ^^^ q = (w ^^^ q) + 2 * k.laps m := by
  rw [xor_eq_sub, xor_eq_sub, k.add_laps_and w m hq]
  grind

theorem toNat_belowLap_lt (k : Order) : k.belowLap.toNat < 2 * k.cellCount := by
  have hpos := k.cellCount_pos
  rw [toNat_belowLap, ← two_mul_cellCount_eq_two_pow]
  omega

theorem toNat_indexMask_lt (k : Order) : k.indexMask.toNat < 2 * k.cellCount := by
  have hpos := k.cellCount_pos
  rw [toNat_indexMask]
  omega

theorem toNat_safeFlag_lt (k : Order) : k.safeFlag.toNat < 2 * k.cellCount := by
  have hpos := k.cellCount_pos
  rw [toNat_safeFlag]
  omega

theorem lap_add_laps (k : Order) (c : Cursor) (m : Nat) :
    k.lap (c + k.laps m) = k.lap c + 2 * k.laps m := by
  have hdouble (d : Cursor) : d <<< 1 = 2 * d := by
    apply UInt64.toNat_inj.1
    simp [Nat.shiftLeft_eq, Nat.mul_comm]
  rw [lap, lap, ← k.add_laps_or _ m k.toNat_belowLap_lt, hdouble, hdouble]
  congr 1
  grind

theorem lapOf_add_laps (k : Order) (w : Word) (m : Nat) :
    k.lapOf (w + 2 * k.laps m) = k.lapOf w + 2 * k.laps m :=
  k.add_laps_or w m k.toNat_belowLap_lt

theorem emptied_add_laps (k : Order) (w : Word) (m : Nat) :
    k.emptied (w + 2 * k.laps m) = k.emptied w + 2 * k.laps m :=
  k.add_laps_or w m k.toNat_indexMask_lt

theorem indexOf_add_laps (k : Order) (w : Word) (m : Nat) :
    k.indexOf (w + 2 * k.laps m) = k.indexOf w := by
  rw [indexOf, indexOf, k.add_laps_and w m k.toNat_indexMask_lt]

theorem clearSafe_add_laps (k : Order) (w : Word) (m : Nat) :
    k.clearSafe (w + 2 * k.laps m) = k.clearSafe w + 2 * k.laps m := by
  rw [clearSafe, clearSafe, and_not_eq_sub, and_not_eq_sub, k.add_laps_and w m k.toNat_safeFlag_lt]
  grind

theorem closed_add_laps (k : Order) (h : Cursor) (w : Word) (m : Nat) :
    k.closed (h + k.laps m) (w + 2 * k.laps m) = k.closed h w + 2 * k.laps m := by
  have hflag : ~~~(w + 2 * k.laps m) &&& k.safeFlag = ~~~w &&& k.safeFlag := by
    have hpast := and_add_not_and (w + 2 * k.laps m) k.safeFlag
    have hsplit := and_add_not_and w k.safeFlag
    rw [k.add_laps_and w m k.toNat_safeFlag_lt] at hpast
    grind
  have hlt : (~~~w &&& k.safeFlag).toNat < 2 * k.cellCount := by
    rw [UInt64.toNat_and]
    exact Nat.lt_of_le_of_lt Nat.and_le_right k.toNat_safeFlag_lt
  rw [closed, closed, hflag, lap_add_laps, k.add_laps_xor _ m hlt]

theorem published_add_laps (k : Order) (c : Cursor) {i : Nat} (hi : i < k.cellCount) (m : Nat) :
    k.published (c + k.laps m) i = k.published c i + 2 * k.laps m := by
  have hle := k.cellCount_le
  have hlt : (i.toUInt64 ^^^ k.indexMask).toNat < 2 * k.cellCount := by
    have hwidth : k.cellCount = 2 ^ (k.exponent + 1) := k.cellCount_eq_two_pow
    have hmask := k.toNat_indexMask
    have hpos := k.cellCount_pos
    have hxor : i.toUInt64.toNat ^^^ k.indexMask.toNat < 2 ^ (k.exponent + 1) :=
      Nat.xor_lt_two_pow (by rw [toNat_toUInt64 (by omega)]; omega) (by omega)
    rw [UInt64.toNat_xor]
    omega
  rw [published, published, lap_add_laps, k.add_laps_xor _ m hlt]

theorem vacant_add_laps_iff {k : Order} {w : Word} {m : Nat} :
    k.Vacant (w + 2 * k.laps m) ↔ k.Vacant w := by
  rw [Vacant, Vacant, emptied_add_laps, UInt64.add_left_inj]

theorem behind_add_laps_iff {k : Order} {w : Word} {c : Cursor} {m : Nat} :
    k.Behind (w + 2 * k.laps m) (c + k.laps m) ↔ k.Behind w c := by
  rw [Behind, Behind, lapOf_add_laps, lap_add_laps, gap_add_add]

theorem visited_add_laps (k : Order) (h : Cursor) (w : Word) (m : Nat) :
    k.visited (h + k.laps m) (w + 2 * k.laps m) = k.visited h w + 2 * k.laps m := by
  simp only [visited, lapOf_add_laps, lap_add_laps, emptied_add_laps, closed_add_laps,
    clearSafe_add_laps, vacant_add_laps_iff, behind_add_laps_iff, UInt64.add_left_inj]
  split
  · rfl
  · split
    · split <;> rfl
    · rfl

end Order

namespace Ring

variable {k : Order}

/-- The ring `m` laps on: every cursor and every word has moved by `m` laps. -/
def shift (r : Ring k) (m : Nat) : Ring k where
  head := r.head + k.laps m
  tail := r.tail + k.laps m
  threshold := r.threshold
  cells := r.cells.map (· + 2 * k.laps m)

@[simp] theorem head_shift (r : Ring k) (m : Nat) : (r.shift m).head = r.head + k.laps m := rfl

@[simp] theorem tail_shift (r : Ring k) (m : Nat) : (r.shift m).tail = r.tail + k.laps m := rfl

@[simp] theorem threshold_shift (r : Ring k) (m : Nat) : (r.shift m).threshold = r.threshold := rfl

theorem word_shift (r : Ring k) (c : Cursor) (m : Nat) :
    (r.shift m).word (c + k.laps m) = r.word c + 2 * k.laps m := by
  rw [word_eq_of_cell_eq (k.cell_add_laps c m)]
  exact Vector.getElem_map ..

theorem writeCell_map (cells : Vector Word k.cellCount) (c : Cursor) (w : Word) (m : Nat) :
    writeCell (cells.map (· + 2 * k.laps m)) (c + k.laps m) (w + 2 * k.laps m) =
      (writeCell cells c w).map (· + 2 * k.laps m) := by
  simp only [writeCell, k.cell_add_laps, Vector.map_set]

theorem distance_shift (r : Ring k) (m : Nat) : (r.shift m).distance = r.distance := by
  rw [distance, distance, head_shift, tail_shift, gap_add_add]

theorem due_shift_iff {r : Ring k} {m : Nat} : (r.shift m).Due ↔ r.Due := by
  rw [Due, Due, head_shift, word_shift, Order.lapOf_add_laps, Order.lap_add_laps,
    UInt64.add_left_inj]

theorem step_shift (r : Ring k) (m : Nat) : (r.shift m).step = r.step.shift m := by
  have hnext : r.head + k.laps m + 1 = r.head + 1 + k.laps m := by grind
  rw [step, head_shift, word_shift, k.visited_add_laps, hnext]
  simp only [write, shift, writeCell_map, step]

theorem spend_shift (r : Ring k) (m : Nat) : (r.shift m).spend = r.spend.shift m := rfl

theorem catchUp_shift (r : Ring k) (m : Nat) : (r.shift m).catchUp = r.catchUp.shift m := rfl

theorem usable_shift (r : Ring k) (t : Cursor) (m : Nat) :
    (r.shift m).usable (t + k.laps m) = r.usable t := by
  rw [Bool.eq_iff_iff, usable_iff, usable_iff, word_shift, head_shift, Order.behind_add_laps_iff,
    Order.vacant_add_laps_iff, Order.lapOf_add_laps, UInt64.add_left_inj, gap_add_add]

theorem firstUsable?_shift (r : Ring k) (t : Cursor) (m attempts : Nat) :
    (r.shift m).firstUsable? (t + k.laps m) attempts =
      (r.firstUsable? t attempts).map (· + k.laps m) := by
  induction attempts generalizing t with
  | zero => rfl
  | succ attempts ih =>
    have hnext : t + k.laps m + 1 = t + 1 + k.laps m := by grind
    rw [firstUsable?, firstUsable?, usable_shift, hnext, ih]
    split <;> rfl

theorem publish_shift (r : Ring k) (t : Cursor) {i : Nat} (hi : i < k.cellCount) (nonempty : Bool)
    (m : Nat) :
    (r.shift m).publish (t + k.laps m) i nonempty = (r.publish t i nonempty).shift m := by
  have hnext : t + k.laps m + 1 = t + 1 + k.laps m := by grind
  simp only [publish, shift, k.published_add_laps t hi, writeCell_map, hnext]

theorem enqueue_shift (r : Ring k) (i : Nat) (nonempty : Bool) (m : Nat) :
    (r.shift m).enqueue i nonempty =
      (r.enqueue i nonempty).map fun (inRange, s) => (inRange, s.shift m) := by
  unfold enqueue
  split
  · rename_i hi
    have hlt := Nat.lt_trans hi k.capacity_lt_cellCount
    rw [tail_shift, firstUsable?_shift]
    cases r.firstUsable? r.tail cursorCount with
    | none => rfl
    | some t => simp [publish_shift r t hlt nonempty m]
  · rfl

theorem visit_shift (r : Ring k) (patience m : Nat) :
    (r.shift m).visit patience = ((r.visit patience).1, (r.visit patience).2.shift m) := by
  simp only [visit_eq, due_shift_iff, step_shift, head_shift, word_shift, Order.indexOf_add_laps]

theorem probe_shift (r : Ring k) (patience budget m : Nat) :
    (r.shift m).probe patience budget =
      ((r.probe patience budget).1, (r.probe patience budget).2.shift m) := by
  have hnext : gap (r.shift m).tail ((r.shift m).head + 1) = gap r.tail (r.head + 1) := by
    have hhead : r.head + k.laps m + 1 = r.head + 1 + k.laps m := by grind
    rw [head_shift, tail_shift, hhead, gap_add_add]
  by_cases hdue : r.Due
  · rw [probe_of_due hdue, probe_of_due (due_shift_iff.2 hdue), head_shift, word_shift,
      Order.indexOf_add_laps, step_shift]
  have hdue' : ¬ (r.shift m).Due := mt due_shift_iff.1 hdue
  rcases Int.lt_or_le 0 (gap r.tail (r.head + 1)) with hahead | hpast
  · cases budget with
    | zero =>
      rw [probe_zero hdue hahead, probe_zero hdue' (hnext ▸ hahead), step_shift, spend_shift]
    | succ budget =>
      rw [probe_succ hdue hahead, probe_succ hdue' (hnext ▸ hahead), step_shift, spend_shift]
      exact probe_shift r.step.spend patience budget m
  · rw [probe_of_overtaken hdue hpast, probe_of_overtaken hdue' (hnext ▸ hpast), step_shift,
      catchUp_shift, spend_shift]

theorem dequeue_shift (r : Ring k) (m : Nat) :
    (r.shift m).dequeue = (r.dequeue.1, r.dequeue.2.shift m) := by
  unfold dequeue dequeueWith
  rw [threshold_shift]
  split
  · rfl
  · exact r.probe_shift publishPatience _ m

theorem seek_shift (r : Ring k) (patience looks m : Nat) :
    (r.shift m).seek patience looks =
      (r.seek patience looks).map fun (i, s) => (i, s.shift m) := by
  induction looks generalizing r with
  | zero => rfl
  | succ looks ih =>
    rw [seek, seek, visit_shift]
    rcases r.visit patience with ⟨_ | i, s⟩
    · exact ih s
    · rfl

theorem dequeueNonempty_shift (r : Ring k) (m : Nat) :
    (r.shift m).dequeueNonempty = r.dequeueNonempty.map fun (i, s) => (i, s.shift m) :=
  r.seek_shift publishPatience cursorCount m

/-- The call hands one index in or takes one out; the others write every cell anew. -/
def Call.Moves : Call → Prop
  | .enqueue _ _ | .dequeue _ => True
  | .fill _ _ | .clear => False

theorem perform_shift (r : Ring k) {call : Call} (hcall : call.Moves) (m : Nat) :
    (r.shift m).perform call = (r.perform call).map fun (answer, s) => (answer, s.shift m) := by
  match call, hcall with
  | .enqueue i nonempty, _ =>
    rw [perform, perform, enqueue_shift]
    cases r.enqueue i nonempty <;> rfl
  | .dequeue false, _ => rw [perform, perform, dequeue_shift, Option.map_some]
  | .dequeue true, _ =>
    rw [perform, perform, dequeueNonempty_shift]
    cases r.dequeueNonempty <;> rfl

theorem run_shift (r : Ring k) {calls : List Call} (hcalls : ∀ call ∈ calls, call.Moves)
    (m : Nat) :
    (r.shift m).run calls = (r.run calls).map fun (answers, s) => (answers, s.shift m) := by
  induction calls generalizing r with
  | nil => rfl
  | cons call calls ih =>
    obtain ⟨hcall, hrest⟩ := List.forall_mem_cons.1 hcalls
    rw [run, run, r.perform_shift hcall m]
    rcases r.perform call with _ | ⟨answer, s⟩
    · rfl
    · simp only [Option.map_some, ih s hrest]
      rcases s.run calls with _ | ⟨answers, s'⟩ <;> rfl

/-- Among the shifts of a ring there is one whose head is in the first lap. -/
theorem exists_head_shift_lt (r : Ring k) : ∃ m, (r.shift m).head.toNat < k.cellCount := by
  obtain ⟨count, hcount⟩ := k.cellCount_dvd_two_pow
  have hlt := r.head.toNat_lt
  have hmod := Nat.mod_lt r.head.toNat k.cellCount_pos
  have hdiv := Nat.div_add_mod' r.head.toNat k.cellCount
  have hle : r.head.toNat / k.cellCount ≤ count := by
    rw [Nat.div_le_iff_le_mul_add_pred k.cellCount_pos]
    omega
  refine ⟨count - r.head.toNat / k.cellCount, ?_⟩
  have hback : (count - r.head.toNat / k.cellCount) * k.cellCount =
      2 ^ 64 - r.head.toNat / k.cellCount * k.cellCount := by
    rw [Nat.sub_mul, hcount, Nat.mul_comm count]
  rw [head_shift, Order.laps, toNat_add_toUInt64, hback]
  omega

/-- A ring and the same ring any number of laps on answer alike: calls on both ends return on one
if they return on the other, with the same answers, and leave rings that many laps apart. So the
count of cursors may wrap round, and no answer shows where on its line a run started. -/
theorem calls_shift (r : Ring k) :
    (∀ m, (∀ i nonempty, (r.shift m).enqueue i nonempty =
        (r.enqueue i nonempty).map fun (inRange, s) => (inRange, s.shift m)) ∧
      (r.shift m).dequeue = (r.dequeue.1, r.dequeue.2.shift m) ∧
      (r.shift m).dequeueNonempty = r.dequeueNonempty.map (fun (i, s) => (i, s.shift m)) ∧
      (r.shift m).distance = r.distance ∧
      ∀ calls : List Call, (∀ call ∈ calls, call.Moves) →
        (r.shift m).run calls = (r.run calls).map fun (answers, s) => (answers, s.shift m)) ∧
    ∃ m, (r.shift m).head.toNat < k.cellCount ∧
      ∀ calls : List Call, (∀ call ∈ calls, call.Moves) →
        (r.run calls).map Prod.fst = ((r.shift m).run calls).map Prod.fst := by
  constructor
  · intro m
    exact ⟨fun i nonempty => r.enqueue_shift i nonempty m, r.dequeue_shift m,
      r.dequeueNonempty_shift m, r.distance_shift m, fun _ hcalls => r.run_shift hcalls m⟩
  · obtain ⟨m, hm⟩ := r.exists_head_shift_lt
    refine ⟨m, hm, fun calls hcalls => ?_⟩
    rw [r.run_shift hcalls m, Option.map_map]
    rfl

/-- Calls that fail and calls that succeed, on both ends and with both flags. -/
def roundTrips : List Call :=
  [.enqueue 1 false, .enqueue 0 true, .dequeue false, .dequeue true, .dequeue false,
    .enqueue 1 false, .enqueue 0 true, .enqueue 3 true, .dequeue true]

/-- The answers to `roundTrips` of an empty ring of order one. -/
def tripAnswers : List Answer :=
  [.accepted true, .accepted true, .taken (some 1), .taken (some 0), .taken none,
    .accepted true, .accepted true, .accepted false, .taken (some 1)]

/-- From the last lap of the line the same calls lead past its end. -/
theorem calls_shift_lastLap :
    (∀ call ∈ roundTrips, call.Moves) ∧
    ((empty .one).shift (2 ^ 62 - 1)).tail = 0xFFFFFFFFFFFFFFFC ∧
    ∃ s : Ring .one, (empty .one).run roundTrips = some (tripAnswers, s) ∧
      ((empty .one).shift (2 ^ 62 - 1)).run roundTrips =
        some (tripAnswers, s.shift (2 ^ 62 - 1)) ∧
      (s.shift (2 ^ 62 - 1)).tail = 1 := by
  have hmoves : ∀ call ∈ roundTrips, call.Moves := by simp [roundTrips, Call.Moves]
  obtain ⟨hshift, -⟩ := calls_shift (empty .one)
  obtain ⟨-, -, -, -, hrun⟩ := hshift (2 ^ 62 - 1)
  have hfirst : (empty .one).run roundTrips = some (tripAnswers, ⟨4, 5, 5, #v[12, 7, 7, 7]⟩) := by
    decide +kernel
  refine ⟨hmoves, by decide +kernel, _, hfirst, ?_, by decide +kernel⟩
  rw [hrun roundTrips hmoves, hfirst]
  rfl

end Ring

end CircularQueue
