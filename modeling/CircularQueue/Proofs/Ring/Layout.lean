import CircularQueue.Proofs.Ring.FirstIn

/-!
# The words of a ring used by one thread

The state of a ring that one thread alone has used is settled by its tail and its live indices. The
last lap of cursors before the tail visits each cell once. A cell whose cursor has been passed reads
the empty safe word of that cursor's lap; a cell whose cursor lies between head and tail reads the
word that publishes the live index there. Cells never written are no exception, since the word they
hold is that of the lap before the first.
-/

namespace CircularQueue

namespace Ring

variable {k : Order}

/-- The cursors of the last lap before the tail, in order. -/
def recent (r : Ring k) (j : Nat) : Cursor := r.tail - k.cellCount.toUInt64 + j.toUInt64

/-- Every word of the ring is the one that its tail and its live indices call for. -/
structure LaidOut (r : Ring k) : Prop where
  gap_nonneg : 0 ≤ gap r.tail r.head
  gap_le : gap r.tail r.head ≤ k.cellCount
  cells_once : Function.Bijective fun j : Fin k.cellCount => k.cell (r.recent j)
  word_passed : ∀ j < k.cellCount, gap (r.recent j) r.head < 0 →
    r.word (r.recent j) = (r.recent j <<< 1) ||| (2 * k.safeFlag - 1)
  word_live : ∀ j < k.cellCount, 0 ≤ gap (r.recent j) r.head →
    ∃ i, r.live[(gap (r.recent j) r.head).toNat]? = some i ∧ i < 2 ^ k.exponent ∧
      r.word (r.recent j) =
        ((r.recent j <<< 1) ||| (2 * k.safeFlag - 1)) ^^^ i.toUInt64 ^^^ (k.safeFlag - 1)
  length_live : (r.live.length : Int) = gap r.tail r.head
  safe : ∀ c, r.word c &&& k.safeFlag = k.safeFlag
  neg_one_le_threshold : -1 ≤ r.threshold
  threshold_le : r.threshold ≤ 3 * 2 ^ k.exponent - 1
  threshold_eq : r.live ≠ [] → r.threshold = 3 * 2 ^ k.exponent - 1

theorem fullThreshold_eq (k : Order) : k.fullThreshold = 3 * 2 ^ k.exponent - 1 := by
  rw [Order.fullThreshold, Order.capacity_eq_two_pow]
  push_cast
  rfl

theorem gap_recent_tail (r : Ring k) {j : Nat} (hj : j < k.cellCount) :
    gap (r.recent j) r.tail = j - k.cellCount := by
  have hle := k.cellCount_le
  have hback := gap_sub_self (c := r.tail) (j := k.cellCount) (by omega)
  rw [recent, gap_add_left (by omega), hback]
  omega

theorem exists_cell_recent_eq (r : Ring k) (c : Cursor) :
    ∃ j < k.cellCount, k.cell (r.recent j) = k.cell c :=
  k.exists_cell_add_eq (r.tail - k.cellCount.toUInt64) c

/-- A lap of cursors visits each cell once. -/
theorem bijective_cell_recent (r : Ring k) :
    Function.Bijective fun j : Fin k.cellCount => k.cell (r.recent j) :=
  k.bijective_cell_add (r.tail - k.cellCount.toUInt64)

namespace Holds

variable {r : Ring k} {is : List Nat}

/-- A recent cursor, seen from the head. -/
theorem gap_recent_head (h : r.Holds is) {j : Nat} (hj : j < k.cellCount) :
    gap (r.recent j) r.head = j - k.cellCount + is.length := by
  have hle := k.cellCount_le
  have hlen := h.length_le
  have htail := r.gap_recent_tail hj
  have hsum := gap_add_gap (a := r.recent j) (b := r.tail) (c := r.head)
    (by rw [htail, h.gap_tail]; omega) (by rw [htail, h.gap_tail]; omega)
  rw [hsum, htail, h.gap_tail]

theorem word_recent_passed (h : r.Holds is) {j : Nat} (hj : j < k.cellCount)
    (hlt : gap (r.recent j) r.head < 0) : r.word (r.recent j) = k.lap (r.recent j) := by
  have hgap := h.gap_recent_head hj
  exact h.word_spent _ hlt (by omega)

theorem word_recent_live (h : r.Holds is) {j : Nat} (hj : j < k.cellCount)
    (hle : 0 ≤ gap (r.recent j) r.head) :
    ∃ i, is[(gap (r.recent j) r.head).toNat]? = some i ∧
      r.word (r.recent j) = k.published (r.recent j) i := by
  have hgap := h.gap_recent_head hj
  have hcursor := eq_add_gap hle
  have hlt : (gap (r.recent j) r.head).toNat < is.length := by omega
  have hword := h.word_due _ hlt
  rw [← hcursor] at hword
  exact ⟨_, List.getElem?_eq_getElem hlt, hword⟩

/-- No cell is ever marked. -/
theorem word_and_safeFlag (h : r.Holds is) (c : Cursor) :
    r.word c &&& k.safeFlag = k.safeFlag := by
  obtain ⟨j, hj, hcell⟩ := r.exists_cell_recent_eq c
  rw [← word_eq_of_cell_eq hcell]
  rcases Int.lt_or_le (gap (r.recent j) r.head) 0 with hlt | hle
  · rw [h.word_recent_passed hj hlt, k.lap_and_safeFlag]
  · obtain ⟨i, hi, hword⟩ := h.word_recent_live hj hle
    have hindex := h.index_lt i (List.mem_of_getElem? hi)
    rw [hword, k.published_and_safeFlag _ (Nat.lt_trans hindex k.capacity_lt_cellCount)]

theorem laidOut (h : r.Holds is) : r.LaidOut where
  gap_nonneg := by
    rw [h.gap_tail]
    omega
  gap_le := by
    have hlen := h.length_le
    rw [h.gap_tail]
    omega
  cells_once := r.bijective_cell_recent
  word_passed := fun _ hj hlt => h.word_recent_passed hj hlt
  word_live := by
    intro j hj hle
    obtain ⟨i, hi, hword⟩ := h.word_recent_live hj hle
    have hindex := h.index_lt i (List.mem_of_getElem? hi)
    rw [Order.capacity_eq_two_pow] at hindex
    refine ⟨i, by rw [h.live_eq]; exact hi, hindex, hword.trans ?_⟩
    rw [Order.published, UInt64.xor_assoc]
    rfl
  length_live := by rw [h.live_eq, h.gap_tail]
  safe := h.word_and_safeFlag
  neg_one_le_threshold := h.neg_one_le_threshold
  threshold_le := fullThreshold_eq k ▸ h.threshold_le
  threshold_eq := by
    intro hne
    rw [h.live_eq] at hne
    rw [h.threshold_eq hne, fullThreshold_eq]

end Holds

/-- Whatever one thread does with a ring made empty or with a range of indices, the ring answers as
a plain list does, its live indices are those left in the list, and its words are those that its
tail and its live indices call for. In a new ring this is the word of a cell never written. -/
theorem laidOut_of_run (k : Order) :
    (∃ r : Ring k, withOrder k.exponent = .ok ⟨k, r⟩ ∧
      ∀ calls, AllPermitted k calls [] →
        ∃ r', r.run calls = some ((runOnList k calls []).1, r') ∧
          r'.live = (runOnList k calls []).2 ∧ r'.LaidOut) ∧
    (∀ start stop, start ≤ stop → stop ≤ k.capacity →
      ∃ r : Ring k, withRange k.exponent start stop = .ok ⟨k, r⟩ ∧
        ∀ calls, AllPermitted k calls (List.range' start (stop - start)) →
          ∃ r', r.run calls = some ((runOnList k calls (List.range' start (stop - start))).1, r') ∧
            r'.live = (runOnList k calls (List.range' start (stop - start))).2 ∧ r'.LaidOut) ∧
    ∀ j < k.cellCount, (empty k).word ((empty k).recent j) = unusedWord ∧
      unusedWord = ((empty k).recent j <<< 1) ||| (2 * k.safeFlag - 1) := by
  refine ⟨⟨empty k, withOrder_exponent k, ?_⟩, ?_, ?_⟩
  · intro calls hcalls
    obtain ⟨r', hrun, h'⟩ := (holds_empty k).run hcalls
    exact ⟨r', hrun, h'.live_eq, h'.laidOut⟩
  · intro start stop hrange hstop
    refine ⟨_, withRange_exponent k hrange hstop, fun calls hcalls => ?_⟩
    obtain ⟨r', hrun, h'⟩ := (holds_fillRange (empty k) hrange hstop).run hcalls
    exact ⟨r', hrun, h'.live_eq, h'.laidOut⟩
  · intro j hj
    have hgap : gap ((empty k).recent j) 0 = j - k.cellCount := (empty k).gap_recent_tail hj
    have hunused : k.lap ((empty k).recent j) = unusedWord :=
      Order.lap_eq_unusedWord (by omega) (by omega)
    exact ⟨by simp [word, empty], hunused.symm⟩

theorem laidOut_of_run_shortRun :
    AllPermitted .one shortRun [1] ∧ ∃ r : Ring .one, withRange 1 1 2 = .ok ⟨.one, r⟩ ∧
      ∃ r', r.run shortRun = some ([.taken (some 1), .taken none, .accepted false, .accepted true,
          .accepted true, .accepted true, .accepted true, .taken (some 0), .done, .taken (some 0),
          .done, .taken none, .accepted true], r') ∧
        r'.live = [1] ∧ r'.LaidOut := by
  obtain ⟨-, hfilled, -⟩ := laidOut_of_run .one
  obtain ⟨r, hr, hrun⟩ := hfilled 1 2 (by decide) (by decide)
  exact ⟨by decide, r, hr, hrun shortRun (by decide)⟩

end Ring

end CircularQueue
