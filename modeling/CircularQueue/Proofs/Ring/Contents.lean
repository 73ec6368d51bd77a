import CircularQueue.Proofs.Ring.Steps
import CircularQueue.Ring.Live
import Mathlib.Data.List.Basic

/-!
# Rings without gaps

A ring that one thread alone has used is determined by its tail and the indices it holds. The
cursors from head to tail each carry one of the indices, safe and with the lap of the cursor, and
the cells of all other cursors of the last lap read as if the cursor had been passed. `Holds r is`
says so, and each call has one lemma that says what it makes of `is`.

The cursors are words and may wrap round at any place. Only their distance to the head counts.
-/

namespace CircularQueue.Ring

variable {k : Order}

/-- The ring `r` holds exactly the indices `is`, oldest first, at consecutive cursors from its head
to its tail, and every other cell was left by a consumer that passed it. -/
structure Holds (r : Ring k) (is : List Nat) : Prop where
  gap_tail : gap r.tail r.head = is.length
  length_le : is.length ≤ k.cellCount
  index_lt : ∀ i ∈ is, i < k.capacity
  word_due : ∀ (j : Nat) (hj : j < is.length),
    r.word (r.head + j.toUInt64) = k.published (r.head + j.toUInt64) is[j]
  word_spent : ∀ c, gap c r.head < 0 → is.length ≤ gap c r.head + k.cellCount →
    r.word c = k.lap c
  neg_one_le_threshold : -1 ≤ r.threshold
  threshold_le : r.threshold ≤ k.fullThreshold
  threshold_eq : is ≠ [] → r.threshold = k.fullThreshold

namespace Holds

variable {r : Ring k} {is : List Nat}

theorem distance_eq (h : r.Holds is) : r.distance = is.length := by
  rw [distance, h.gap_tail, Int.toNat_natCast]

theorem tail_eq (h : r.Holds is) : r.tail = r.head + is.length.toUInt64 := by
  have htail := eq_add_gap (a := r.tail) (b := r.head) (by rw [h.gap_tail]; omega)
  rwa [h.gap_tail, Int.toNat_natCast] at htail

theorem liveAt_eq (h : r.Holds is) {j : Nat} (hj : j < is.length) :
    r.liveAt (r.head + j.toUInt64) = some is[j] := by
  have hlt := h.index_lt is[j] (List.getElem_mem hj)
  have hfield := Nat.lt_trans hlt k.capacity_lt_cellCount
  have hvacant := k.not_vacant_published (r.head + j.toUInt64) hlt
  rw [liveAt, h.word_due j hj, k.lapOf_published _ hfield, k.indexOf_published _ hfield]
  exact if_pos ⟨rfl, hvacant⟩

theorem live_eq (h : r.Holds is) : r.live = is := by
  have hmap : (List.range is.length).filterMap (fun j => r.liveAt (r.head + j.toUInt64)) =
      (List.range is.length).map fun j => is.getD j 0 := by
    rw [List.filterMap_eq_map_iff_forall_eq_some]
    intro j hj
    have hlt := List.mem_range.1 hj
    simp [h.liveAt_eq hlt, hlt]
  rw [live, h.distance_eq, hmap]
  apply List.ext_getElem
  · simp
  · intro j _ hj
    simp [hj]

/-- The cell at the tail was passed a lap ago. -/
theorem word_tail (h : r.Holds is) (hlen : is.length < k.cellCount) :
    r.word r.tail = k.lap (r.tail - k.cellCount.toUInt64) := by
  have hle := k.cellCount_le
  have htail := h.gap_tail
  have hback : gap (r.tail - k.cellCount.toUInt64) r.head = is.length - k.cellCount := by
    rw [gap_sub_left (by omega), htail]
  rw [← word_eq_of_cell_eq (k.cell_sub_cellCount r.tail)]
  exact h.word_spent _ (by omega) (by omega)

theorem behind_tail (h : r.Holds is) (hlen : is.length < k.cellCount) :
    k.Behind (r.word r.tail) r.tail := by
  have hle := k.cellCount_le
  have hpos := k.cellCount_pos
  have hgap := gap_sub_self (c := r.tail) (j := k.cellCount) (by omega)
  rw [h.word_tail hlen, Order.behind_iff (k.cell_sub_cellCount r.tail) (k.lapOf_lap _).symm
    (by omega) (by omega)]
  omega

theorem usable_tail (h : r.Holds is) (hlen : is.length < k.cellCount) :
    r.usable r.tail = true := by
  have hbehind := h.behind_tail hlen
  rw [usable_iff]
  refine ⟨hbehind, ?_, Or.inl ?_⟩
  · rw [h.word_tail hlen]
    exact k.vacant_lap _
  · rw [h.word_tail hlen, k.lapOf_lap]

theorem enqueue_eq (h : r.Holds is) {i : Nat} (hi : i < k.capacity)
    (hlen : is.length < k.cellCount) :
    r.enqueue i false = some (true, r.publish r.tail i false) := by
  have hzero : r.tail + (0 : Nat).toUInt64 = r.tail := UInt64.add_zero r.tail
  have husable : r.usable (r.tail + (0 : Nat).toUInt64) = true := by
    rw [hzero]
    exact h.usable_tail hlen
  have hsearch : r.firstUsable? r.tail cursorCount = some (r.tail + (0 : Nat).toUInt64) :=
    firstUsable?_eq_of_forall (by decide) husable (by simp)
  rw [enqueue, if_pos hi, hsearch, hzero]

/-- Publishing at the tail appends the index. -/
theorem publish_tail (h : r.Holds is) {i : Nat} (hi : i < k.capacity)
    (hlen : is.length < k.cellCount) : (r.publish r.tail i false).Holds (is ++ [i]) where
  gap_tail := by
    have hle := k.cellCount_le
    have htail := h.gap_tail
    rw [tail_publish, head_publish, gap_succ_left (by omega), htail, List.length_append]
    rfl
  length_le := by
    rw [List.length_append]
    exact hlen
  index_lt := by
    intro x hx
    rcases List.mem_append.1 hx with hx | hx
    · exact h.index_lt x hx
    · exact List.mem_singleton.1 hx ▸ hi
  word_due := by
    intro j hj
    have hle := k.cellCount_le
    rw [List.length_append, List.length_singleton] at hj
    rw [head_publish]
    by_cases hlast : j = is.length
    · subst hlast
      rw [h.tail_eq, word_publish_of_cell_eq rfl]
      simp
    · have hlt : j < is.length := by omega
      have htail := h.gap_tail
      have hgap := gap_add_self (c := r.head) (j := j) (by omega)
      have hne : k.cell r.tail ≠ k.cell (r.head + j.toUInt64) :=
        Order.cell_ne_of_gap r.head (by omega) (by omega) (by omega)
      rw [word_publish_of_cell_ne hne, h.word_due j hlt, List.getElem_append_left hlt]
  word_spent := by
    intro c hlt hle
    rw [List.length_append, List.length_singleton, head_publish] at *
    have htail := h.gap_tail
    have hne : k.cell r.tail ≠ k.cell c :=
      Order.cell_ne_of_gap r.head (by omega) (by omega) (by omega)
    rw [word_publish_of_cell_ne hne]
    exact h.word_spent c hlt (by omega)
  neg_one_le_threshold := by
    have hpos := k.fullThreshold_pos
    rw [threshold_publish, if_neg (by decide)]
    omega
  threshold_le := Int.le_refl _
  threshold_eq := fun _ => rfl

theorem word_head {i : Nat} (h : r.Holds (i :: is)) : r.word r.head = k.published r.head i := by
  have hzero : r.head + (0 : Nat).toUInt64 = r.head := UInt64.add_zero r.head
  have hword := h.word_due 0 (Nat.succ_pos _)
  rwa [hzero, List.getElem_cons_zero] at hword

theorem visited_head_cons {i : Nat} (h : r.Holds (i :: is)) :
    k.visited r.head (r.word r.head) = k.lap r.head := by
  have hlt := Nat.lt_trans (h.index_lt i List.mem_cons_self) k.capacity_lt_cellCount
  rw [h.word_head, Order.visited, k.lapOf_published _ hlt, if_pos rfl, k.emptied_published _ hlt]

theorem visited_head_nil (h : r.Holds []) : k.visited r.head (r.word r.head) = k.lap r.head := by
  have hle := k.cellCount_le
  have hpos := k.cellCount_pos
  have hhead : r.tail = r.head := gap_eq_zero_iff.1 h.gap_tail
  have hbehind := h.behind_tail hpos
  have hword := h.word_tail hpos
  rw [hhead] at hbehind hword
  have hlap := mt Order.not_behind_of_lapOf_eq (not_not.2 hbehind)
  rw [Order.visited, if_neg hlap, if_pos hbehind, hword, if_pos (k.vacant_lap _), k.closed_lap]

/-- A consumer's step leaves the cell of the head spent, and those before it as they were. -/
theorem word_step_spent (h : r.Holds is) (hhead : k.visited r.head (r.word r.head) = k.lap r.head)
    {c : Cursor} (hlt : gap c (r.head + 1) < 0)
    (hle : (is.length : Int) - 1 ≤ gap c (r.head + 1) + k.cellCount)
    (hlo : 0 ≤ gap c (r.head + 1) + k.cellCount) : r.step.word c = k.lap c := by
  have hgap := gap_eq_succ_right (c := c) (d := r.head) (by omega)
  by_cases hself : gap c r.head = 0
  · rw [gap_eq_zero_iff] at hself
    rw [hself, word_step_of_cell_eq rfl, hhead]
  · have hne : k.cell r.head ≠ k.cell c :=
      Order.cell_ne_of_gap r.head (by rw [gap_self]; omega) (by rw [gap_self]; omega)
        (by rw [gap_self]; omega)
    rw [word_step_of_cell_ne hne]
    exact h.word_spent c (by omega) (by omega)

/-- A consumer's step takes the oldest index. -/
theorem step_cons {i : Nat} (h : r.Holds (i :: is)) : r.step.Holds is where
  gap_tail := by
    have htail := h.gap_tail
    rw [List.length_cons] at htail
    rw [tail_step, head_step, gap_succ_right (by omega), htail]
    omega
  length_le := by
    have hle := h.length_le
    rw [List.length_cons] at hle
    omega
  index_lt := fun x hx => h.index_lt x (List.mem_cons_of_mem _ hx)
  word_due := by
    intro j hj
    have hle := h.length_le
    have hcount := k.cellCount_le
    rw [List.length_cons] at hle
    have hgap := gap_add_self (c := r.head) (j := j + 1) (by omega)
    have hne : k.cell r.head ≠ k.cell (r.head + (j + 1).toUInt64) :=
      Order.cell_ne_of_gap r.head (by rw [gap_self]; omega) (by rw [gap_self]; omega)
        (by rw [gap_self]; omega)
    rw [head_step, ← add_toUInt64_succ, word_step_of_cell_ne hne,
      h.word_due (j + 1) (by rw [List.length_cons]; omega), List.getElem_cons_succ]
  word_spent := by
    intro c hlt hle
    rw [head_step] at hlt hle
    refine h.word_step_spent h.visited_head_cons hlt ?_ (by omega)
    rw [List.length_cons]
    omega
  neg_one_le_threshold := h.neg_one_le_threshold
  threshold_le := h.threshold_le
  threshold_eq := fun _ => h.threshold_eq (List.cons_ne_nil _ _)

theorem due_cons {i : Nat} (h : r.Holds (i :: is)) : r.Due := by
  have hlt := Nat.lt_trans (h.index_lt i List.mem_cons_self) k.capacity_lt_cellCount
  rw [Due, h.word_head, k.lapOf_published _ hlt]

theorem indexOf_head {i : Nat} (h : r.Holds (i :: is)) : k.indexOf (r.word r.head) = i := by
  have hlt := Nat.lt_trans (h.index_lt i List.mem_cons_self) k.capacity_lt_cellCount
  rw [h.word_head, k.indexOf_published _ hlt]

theorem dequeue_cons {i : Nat} (h : r.Holds (i :: is)) : r.dequeue = (some i, r.step) := by
  have hpos := k.fullThreshold_pos
  have hthreshold := h.threshold_eq (List.cons_ne_nil _ _)
  rw [dequeue, dequeueWith, if_neg (by omega), probe_of_due h.due_cons, h.indexOf_head]

/-- A consumer that finds the ring empty pulls the tail along and leaves it empty. -/
theorem dequeue_nil (h : r.Holds []) :
    r.dequeue = (none, if r.threshold < 0 then r else r.step.catchUp.spend) := by
  have hhead : r.tail = r.head := gap_eq_zero_iff.1 h.gap_tail
  have hbehind := h.behind_tail k.cellCount_pos
  rw [hhead] at hbehind
  have hdue : ¬ r.Due := fun hdue => Order.not_behind_of_lapOf_eq hdue hbehind
  have hgap : gap r.tail (r.head + 1) ≤ 0 := by
    rw [hhead, gap_succ_right (by rw [gap_self]; omega), gap_self]
    omega
  rw [dequeue, dequeueWith]
  split
  · rfl
  · rw [probe_of_overtaken hdue hgap]

theorem step_nil (h : r.Holds []) (hthreshold : 0 ≤ r.threshold) :
    r.step.catchUp.spend.Holds [] where
  gap_tail := gap_self _
  length_le := Nat.zero_le _
  index_lt := by simp
  word_due := by simp
  word_spent := by
    intro c hlt hle
    rw [word_spend, word_catchUp]
    rw [head_spend, head_catchUp, head_step] at hlt hle
    exact h.word_step_spent h.visited_head_nil hlt (by omega) hle
  neg_one_le_threshold := by
    rw [threshold_spend, threshold_catchUp, threshold_step]
    omega
  threshold_le := by
    have hle := h.threshold_le
    rw [threshold_spend, threshold_catchUp, threshold_step]
    omega
  threshold_eq := fun hne => absurd rfl hne

/-- A call of a consumer takes the oldest index, if there is one. -/
theorem dequeue_eq (h : r.Holds is) : ∃ r', r.dequeue = (is.head?, r') ∧ r'.Holds is.tail := by
  cases is with
  | nil =>
    refine ⟨_, h.dequeue_nil, ?_⟩
    by_cases hthreshold : r.threshold < 0
    · rw [if_pos hthreshold]
      exact h
    · rw [if_neg hthreshold]
      exact h.step_nil (Int.not_lt.1 hthreshold)
  | cons i is => exact ⟨r.step, h.dequeue_cons, h.step_cons⟩

end Holds

/-! Rings that are made or filled anew. -/

theorem holds_empty (k : Order) : (empty k).Holds [] where
  gap_tail := gap_self 0
  length_le := Nat.zero_le _
  index_lt := by simp
  word_due := by simp
  word_spent := by
    intro c hlt hle
    have hunused : (empty k).word c = unusedWord := by simp [word, empty]
    rw [hunused, Order.lap_eq_unusedWord (k := k) (c := c) (by simp [empty] at hle; omega) hlt]
  neg_one_le_threshold := Int.le_refl _
  threshold_le := by
    have hpos := k.fullThreshold_pos
    simp only [empty]
    omega
  threshold_eq := fun hne => absurd rfl hne

/-- A filled cell of the range holds the index that equals its cursor. -/
theorem filledWord_due {start stop : Nat} (hstop : stop ≤ k.capacity) {c : Nat} (hlo : start ≤ c)
    (hhi : c < stop) : filledWord k start stop c = k.published c.toUInt64 c := by
  have hcount := k.cellCount_le
  have hcapacity := k.capacity_lt_cellCount
  have hc : c.toUInt64.toNat = c := toNat_toUInt64 (by omega)
  have hself := Order.published_self (k := k) (c := c.toUInt64) (by omega)
  rw [hc] at hself
  rw [filledWord, if_neg (by omega), if_pos hhi, hself]

/-- A filled cell before the first index or past the last one reads as if it had been passed. -/
theorem filledWord_spent {start stop : Nat} (hrange : start ≤ stop) (hstop : stop ≤ k.capacity)
    {c : Cursor} (hlt : gap c 0 < start) (hle : (stop : Int) ≤ gap c 0 + k.cellCount) :
    filledWord k start stop (c.toNat % k.cellCount) = k.lap c := by
  have hcount := k.cellCount_le
  have hcapacity := k.capacity_lt_cellCount
  rcases Int.lt_or_le (gap c 0) 0 with hneg | hpos
  · have hplace := Order.toNat_mod_of_gap_neg (k := k) (c := c) (by omega) hneg
    rw [filledWord, if_neg (by omega), if_neg (by omega),
      Order.lap_eq_unusedWord (by omega) hneg]
  · have hc : (c.toNat : Int) = gap c 0 := by
      have hc := congrArg UInt64.toNat (eq_add_gap hpos)
      rw [toNat_add_toUInt64, UInt64.toNat_zero] at hc
      omega
    have hplace : c.toNat % k.cellCount = c.toNat := Nat.mod_eq_of_lt (by omega)
    rw [filledWord, if_pos (by omega), Order.lap_eq_belowLap (by omega)]

theorem holds_fillRange (r : Ring k) {start stop : Nat} (hrange : start ≤ stop)
    (hstop : stop ≤ k.capacity) :
    (r.fillRange start stop hrange hstop).Holds (List.range' start (stop - start)) where
  gap_tail := by
    have hcount := k.cellCount_le
    have hcapacity := k.capacity_lt_cellCount
    rw [List.length_range', Int.ofNat_sub hrange]
    exact gap_toUInt64 (by omega) (by omega)
  length_le := by
    have hcapacity := k.capacity_lt_cellCount
    rw [List.length_range']
    omega
  index_lt := by
    intro i hi
    rw [List.mem_range'_1] at hi
    omega
  word_due := by
    intro j hj
    have hcount := k.cellCount_le
    have hcapacity := k.capacity_lt_cellCount
    rw [List.length_range'] at hj
    have hhead : (r.fillRange start stop hrange hstop).head = start.toUInt64 := rfl
    have hc : start.toUInt64 + j.toUInt64 = (start + j).toUInt64 := (UInt64.ofNat_add start j).symm
    have hmod : (start + j) % k.cellCount = start + j := Nat.mod_eq_of_lt (by omega)
    rw [word_fillRange, hhead, hc, toNat_toUInt64 (by omega), hmod,
      filledWord_due hstop (by omega) (by omega), List.getElem_range', Nat.one_mul]
  word_spent := by
    intro c hlt hle
    have hcount := k.cellCount_le
    have hcapacity := k.capacity_lt_cellCount
    have hhead : (r.fillRange start stop hrange hstop).head = start.toUInt64 := rfl
    have hstart : gap start.toUInt64 0 = start := by
      simpa using gap_toUInt64 (i := start) (j := 0) (by omega) (by omega)
    rw [hhead] at hlt hle
    rw [List.length_range'] at hle
    have hgap := gap_add_gap (a := c) (b := start.toUInt64) (c := 0) (by omega) (by omega)
    rw [word_fillRange, filledWord_spent hrange hstop (by omega) (by omega)]
  neg_one_le_threshold := by
    have hpos := k.fullThreshold_pos
    simp only [fillRange]
    split <;> omega
  threshold_le := by
    have hpos := k.fullThreshold_pos
    simp only [fillRange]
    split <;> omega
  threshold_eq := by
    intro hne
    have hlt : start ≠ stop := by
      rintro rfl
      simp at hne
    exact if_neg hlt

end CircularQueue.Ring
