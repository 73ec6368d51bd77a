import CircularQueue.Proofs.Ring.Layout

/-!
# A filled ring is one that was filled call by call

A ring can be filled in one go, by a formula for each of its words, or by publishing one index after
the other. The formula gives the words of the first lap: those of cells taken, live and never
written. A ring that publishes and takes `start` indices one by one and then publishes
`start, …, stop - 1` has the same head and the same live indices, and these two settle every word.
What the ring held before it is filled plays no part, as each of its cells is written.
-/

namespace CircularQueue.Ring

variable {k : Order}

/-- Each cell is the cell of some cursor, so the words of the cursors are all words of the ring. -/
theorem cells_eq_of_word_eq {r s : Ring k} (h : ∀ c, r.word c = s.word c) : r.cells = s.cells := by
  apply Vector.ext
  intro x hx
  obtain ⟨j, -, hcell⟩ := k.exists_cell_eq 0 ⟨x, hx⟩
  have hword := h (0 + j.toUInt64)
  simp only [word, Fin.getElem_fin, hcell] at hword
  exact hword

theorem fillRange_eq_fillRange (r s : Ring k) {start stop : Nat} (hrange : start ≤ stop)
    (hstop : stop ≤ k.capacity) :
    r.fillRange start stop hrange hstop = s.fillRange start stop hrange hstop := by
  have hcells := cells_eq_of_word_eq fun c =>
    (word_fillRange r hrange hstop c).trans (word_fillRange s hrange hstop c).symm
  rw [fillRange, fillRange, Ring.mk.injEq]
  exact ⟨rfl, rfl, rfl, hcells⟩

namespace Holds

variable {r s : Ring k} {is : List Nat}

theorem tail_eq_tail (hr : r.Holds is) (hs : s.Holds is) (hhead : r.head = s.head) :
    r.tail = s.tail := by
  rw [hr.tail_eq, hs.tail_eq, hhead]

/-- The head and the live indices settle the word of every cell. -/
theorem cells_eq_cells (hr : r.Holds is) (hs : s.Holds is) (hhead : r.head = s.head) :
    r.cells = s.cells := by
  refine cells_eq_of_word_eq fun c => ?_
  -- `Holds` tells the words of the last lap only, so the cursor is moved there first.
  obtain ⟨j, hj, hcell⟩ := r.exists_cell_recent_eq c
  have hrecent : s.recent j = r.recent j := by rw [recent, recent, hr.tail_eq_tail hs hhead]
  rw [← word_eq_of_cell_eq hcell, ← word_eq_of_cell_eq hcell]
  rcases Int.lt_or_le (gap (r.recent j) r.head) 0 with hlt | hle
  · have hpassed := hs.word_recent_passed hj (by rwa [hrecent, ← hhead])
    rw [hrecent] at hpassed
    rw [hr.word_recent_passed hj hlt, hpassed]
  · obtain ⟨i, hi, hword⟩ := hr.word_recent_live hj hle
    obtain ⟨i', hi', hword'⟩ := hs.word_recent_live hj (by rwa [hrecent, ← hhead])
    rw [hrecent, ← hhead, hi, Option.some.injEq] at hi'
    rw [hrecent, ← hi'] at hword'
    rw [hword, hword']

/-- If there is a live index, they settle the threshold as well. -/
theorem eq_of_head_eq (hr : r.Holds is) (hs : s.Holds is) (hne : is ≠ [])
    (hhead : r.head = s.head) : r = s := by
  have htail := hr.tail_eq_tail hs hhead
  have hthreshold : r.threshold = s.threshold := by rw [hr.threshold_eq hne, hs.threshold_eq hne]
  have hcells := hr.cells_eq_cells hs hhead
  obtain ⟨head, tail, threshold, cells⟩ := r
  obtain ⟨head', tail', threshold', cells'⟩ := s
  rw [Ring.mk.injEq]
  exact ⟨hhead, htail, hthreshold, hcells⟩

end Holds

/-! Filling call by call. -/

/-- The calls that publish the indices `is`, one after the other. -/
def publishing (is : List Nat) : List Call := is.map fun i => .enqueue i false

/-- The calls that publish each of the indices `spent` and take it at once, and then publish the
indices `is`. -/
def spending : List Nat → List Nat → List Call
  | [], is => publishing is
  | i :: spent, is => .enqueue i false :: .dequeue false :: spending spent is

/-- The answers of these calls, if each takes what the one before it published. -/
def spendingAnswers : List Nat → List Nat → List Answer
  | [], is => is.map fun _ => .accepted true
  | i :: spent, is => .accepted true :: .taken (some i) :: spendingAnswers spent is

namespace Holds

variable {r : Ring k}

theorem perform_enqueue {held : List Nat} (h : r.Holds held) {i : Nat} (hi : i < k.capacity)
    (hlen : held.length < k.cellCount) :
    r.perform (.enqueue i false) = some (.accepted true, r.publish r.tail i false) := by
  rw [Ring.perform, h.enqueue_eq hi hlen]

theorem run_publishing {held is : List Nat} (h : r.Holds held) (his : ∀ i ∈ is, i < k.capacity)
    (hlen : held.length + is.length ≤ k.cellCount) :
    ∃ s, r.run (publishing is) = some (is.map fun _ => .accepted true, s) ∧
      s.Holds (held ++ is) ∧ s.head = r.head := by
  induction is generalizing r held with
  | nil => exact ⟨r, rfl, by rwa [List.append_nil], rfl⟩
  | cons i is ih =>
    obtain ⟨hi, hrest⟩ := List.forall_mem_cons.1 his
    rw [List.length_cons] at hlen
    have hpublished := h.publish_tail hi (by omega)
    obtain ⟨s, hrun, hs, hhead⟩ := ih hpublished hrest (by simp; omega)
    refine ⟨s, run_cons (h.perform_enqueue hi (by omega)) hrun, ?_, hhead⟩
    rwa [List.append_assoc] at hs

/-- Each round moves the head by one and leaves the ring empty. -/
theorem run_spending {spent is : List Nat} (h : r.Holds []) (hspent : ∀ i ∈ spent, i < k.capacity)
    (his : ∀ i ∈ is, i < k.capacity) (hlen : is.length ≤ k.cellCount) :
    ∃ s, r.run (spending spent is) = some (spendingAnswers spent is, s) ∧ s.Holds is ∧
      s.head = r.head + spent.length.toUInt64 := by
  induction spent generalizing r with
  | nil =>
    obtain ⟨s, hrun, hs, hhead⟩ := h.run_publishing his (by simpa using hlen)
    exact ⟨s, hrun, hs, by rw [hhead, List.length_nil]; exact (UInt64.add_zero _).symm⟩
  | cons i spent ih =>
    obtain ⟨hi, hrest⟩ := List.forall_mem_cons.1 hspent
    have hpublished := h.publish_tail hi k.cellCount_pos
    have htaken : (r.publish r.tail i false).perform (.dequeue false) =
        some (.taken (some i), (r.publish r.tail i false).step) := by
      rw [Ring.perform, hpublished.dequeue_cons]
    obtain ⟨s, hrun, hs, hhead⟩ := ih hpublished.step_cons hrest
    refine ⟨s, run_cons (h.perform_enqueue hi k.cellCount_pos) (run_cons htaken hrun), hs, ?_⟩
    rw [hhead, head_step, head_publish, ← add_toUInt64_succ, List.length_cons]

end Holds

/-- Filling a ring leaves the same words whatever it held, and they are those of a new ring on which
`start` rounds of publishing and taking any index were made before `start, …, stop - 1` were
published. For an empty range this leaves out the threshold, which filling makes negative. A range
that does not fit breaks the call off and leaves every word as it was. -/
theorem filled_eq_run (k : Order) (start stop : Nat) :
    (start ≤ stop → stop ≤ k.capacity → ∃ full : Ring k,
      withRange k.exponent start stop = .ok ⟨k, full⟩ ∧
      (∀ r : Ring k, r.fill start stop = .ok full) ∧
      (∃ fresh : Ring k, withOrder k.exponent = .ok ⟨k, fresh⟩ ∧
        ∀ spent : List Nat, spent.length = start → (∀ i ∈ spent, i < k.capacity) →
          ∃ s, fresh.run (spending spent (List.range' start (stop - start))) =
              some (spendingAnswers spent (List.range' start (stop - start)), s) ∧
            s.head = full.head ∧ s.tail = full.tail ∧ s.cells = full.cells ∧
            (start < stop → s = full)) ∧
      (start = stop → full.threshold = -1)) ∧
    (stop < start → ∀ r : Ring k,
      r.perform (.fill start stop) = some (.broken (.fillReversed start stop), r)) ∧
    (start ≤ stop → k.capacity < stop → ∀ r : Ring k,
      r.perform (.fill start stop) = some (.broken (.fillTooLong stop), r)) := by
  refine ⟨fun hrange hstop => ?_, fun hreversed r => ?_, fun hrange hlong r => ?_⟩
  · refine ⟨_, withRange_exponent k hrange hstop, fun r => ?_, ⟨empty k, withOrder_exponent k, ?_⟩,
      fun hempty => if_pos hempty⟩
    · simp [fill, hrange, hstop, r.fillRange_eq_fillRange (empty k) hrange hstop]
    · intro spent hlen hspent
      have hfull := holds_fillRange (empty k) hrange hstop
      obtain ⟨s, hrun, hs, hhead⟩ :=
        (holds_empty k).run_spending hspent hfull.index_lt hfull.length_le
      rw [hlen] at hhead
      have hsame : s.head = ((empty k).fillRange start stop hrange hstop).head :=
        hhead.trans (UInt64.zero_add _)
      refine ⟨s, hrun, hsame, hs.tail_eq_tail hfull hsame, hs.cells_eq_cells hfull hsame, ?_⟩
      intro hlt
      refine hs.eq_of_head_eq hfull ?_ hsame
      rw [ne_eq, List.range'_eq_nil_iff]
      omega
  · simp [perform, fill, Nat.not_le.2 hreversed]
  · simp [perform, fill, hrange, Nat.not_le.2 hlong]

theorem filled_eq_run_one :
    (∃ fresh full : Ring .one, withOrder 1 = .ok ⟨.one, fresh⟩ ∧
      withRange 1 1 2 = .ok ⟨.one, full⟩ ∧
      (⟨9, 4, 2, #v[0, 3, 1, 2]⟩ : Ring .one).fill 1 2 = .ok full ∧
      fresh.run (spending [0] [1]) =
        some ([.accepted true, .taken (some 0), .accepted true], full)) ∧
    (empty .one).perform (.fill 2 1) = some (.broken (.fillReversed 2 1), empty .one) ∧
    (empty .one).perform (.fill 0 3) = some (.broken (.fillTooLong 3), empty .one) := by
  obtain ⟨hfilled, -⟩ := filled_eq_run .one 1 2
  obtain ⟨full, hfull, hany, ⟨fresh, hfresh, hspending⟩, -⟩ := hfilled (by decide) (by decide)
  obtain ⟨s, hrun, -, -, -, heq⟩ := hspending [0] rfl (by decide)
  obtain ⟨-, hreversed, -⟩ := filled_eq_run .one 2 1
  obtain ⟨-, -, hlong⟩ := filled_eq_run .one 0 3
  refine ⟨⟨fresh, full, hfresh, hfull, hany _, ?_⟩, hreversed (by decide) _,
    hlong (by decide) (by decide) _⟩
  rw [← heq (by decide)]
  exact hrun

end CircularQueue.Ring
