import CircularQueue.Proofs.Ring.Hints
import CircularQueue.Proofs.Turns

/-!
# Calls that find a ring empty

A call to take an index from a ring that holds none is not without effect. As long as the threshold
is not negative the call passes the cell at the head and closes it, pulls the tail along, and takes
one off the threshold. So the head and the tail walk on together, one cursor with each call, and
after one call more than the threshold says the walk is over: the threshold is negative, and every
further call leaves the ring exactly as it is.
-/

namespace CircularQueue.Ring

variable {k : Order} {r s : Ring k}

/-- A state that one thread alone has brought about: the ring was made empty or with a range of
indices, and each call on it returned and was made without the word that the ring holds an index. -/
inductive Reached : Ring k → Prop
  | made {r : Ring k} (hmade : withOrder k.exponent = .ok ⟨k, r⟩) : Reached r
  | filled {r : Ring k} {start stop : Nat}
      (hmade : withRange k.exponent start stop = .ok ⟨k, r⟩) : Reached r
  | called {r s : Ring k} {call : Call} {answer : Answer} (hr : Reached r)
      (hcall : call.hinted = false) (hperform : r.perform call = some (answer, s)) : Reached s

namespace Holds

variable {is : List Nat}

/-- When every cell holds an index, there is no cursor at which another one could be published. -/
theorem not_usable_of_full (h : r.Holds is) (hfull : is.length = k.cellCount) (t : Cursor) :
    ¬ r.usable t = true := by
  intro husable
  obtain ⟨-, hvacant, -⟩ := usable_iff.1 husable
  obtain ⟨j, hj, hcell⟩ := k.exists_cell_add_eq r.head t
  rw [← hfull] at hj
  rw [← word_eq_of_cell_eq hcell, h.word_due j hj] at hvacant
  exact k.not_vacant_published _ (h.index_lt _ (List.getElem_mem hj)) hvacant

theorem enqueue_of_full (h : r.Holds is) (hfull : is.length = k.cellCount) {i : Nat}
    (hi : i < k.capacity) : r.enqueue i false = none := by
  have hsearch : r.firstUsable? r.tail cursorCount = none := by
    rw [Option.eq_none_iff_forall_ne_some]
    intro t ht
    exact h.not_usable_of_full hfull t (firstUsable?_eq_some ht)
  rw [enqueue, if_pos hi, hsearch]

/-- A call that claims nothing leaves a ring without gaps, if it returns: on a full ring a call to
publish an index does not, and a range that does not fit changes nothing. -/
theorem of_perform (h : r.Holds is) {call : Call} {answer : Answer} (hcall : call.hinted = false)
    (hperform : r.perform call = some (answer, s)) : ∃ is', s.Holds is' := by
  by_cases hpermitted : call.Permitted k is
  · obtain ⟨s', heq, hholds⟩ := h.perform hpermitted
    obtain rfl : s' = s := (Prod.mk.inj (Option.some.inj (heq.symm.trans hperform))).2
    exact ⟨_, hholds⟩
  · cases call with
    | enqueue i nonempty =>
      obtain rfl : nonempty = false := hcall
      obtain ⟨hi, hlen⟩ : i < k.capacity ∧ k.cellCount ≤ is.length := by
        simpa [Call.Permitted] using hpermitted
      rw [Ring.perform, h.enqueue_of_full (Nat.le_antisymm h.length_le hlen) hi] at hperform
      cases hperform
    | dequeue nonempty => exact absurd hcall hpermitted
    | fill start stop =>
      refine ⟨is, ?_⟩
      obtain ⟨fault, hfault⟩ : ∃ fault, r.fill start stop = .error fault := by
        by_cases hrange : start ≤ stop
        · have hstop : ¬ stop ≤ k.capacity := fun hstop => hpermitted ⟨hrange, hstop⟩
          exact ⟨_, by rw [fill, dif_pos hrange, dif_neg hstop]⟩
        · exact ⟨_, by rw [fill, dif_neg hrange]⟩
      rw [Ring.perform, hfault] at hperform
      cases hperform
      exact h
    | clear => exact absurd trivial hpermitted

end Holds

/-- Only a range of indices that the ring can hold gives a ring. -/
theorem eq_fillRange_of_withRange {start stop : Nat}
    (h : withRange k.exponent start stop = .ok ⟨k, r⟩) :
    ∃ hrange hstop, r = (empty k).fillRange start stop hrange hstop := by
  by_cases hrange : start ≤ stop
  · by_cases hstop : stop ≤ k.capacity
    · rw [withRange_exponent k hrange hstop] at h
      exact ⟨hrange, hstop, (eq_of_heq (Sigma.mk.inj (Except.ok.inj h)).2).symm⟩
    · rw [withRange, orderOf_exponent] at h
      simp [Except.bind, Except.map, Ring.filled, fill, hrange, hstop] at h
  · rw [withRange, orderOf_exponent] at h
    simp [Except.bind, Except.map, Ring.filled, fill, hrange] at h

theorem Reached.holds (h : r.Reached) : r.Holds r.live := by
  induction h with
  | @made r hmade =>
    rw [withOrder_exponent] at hmade
    obtain rfl : empty k = r := eq_of_heq (Sigma.mk.inj (Except.ok.inj hmade)).2
    rw [live_empty]
    exact holds_empty k
  | @filled r start stop hmade =>
    obtain ⟨hrange, hstop, rfl⟩ := eq_fillRange_of_withRange hmade
    have hholds := holds_fillRange (empty k) hrange hstop
    rwa [hholds.live_eq]
  | @called r s call answer _ hcall hperform ih =>
    obtain ⟨is, hholds⟩ := ih.of_perform hcall hperform
    rwa [hholds.live_eq]

/-- What a failing call does to a ring whose threshold is not negative. The head and the tail, which
are the same, go on by one cursor, the threshold falls by one, and the cell of the old head, and no
other, gets a new word. -/
structure ClosesHead (r s : Ring k) : Prop where
  head_eq : s.head = r.head + 1
  tail_eq : s.tail = r.tail + 1
  head_eq_tail : s.head = s.tail
  threshold_eq : s.threshold = r.threshold - 1
  word_ne : s.word r.head ≠ r.word r.head
  word_eq : ∀ c, k.cell r.head ≠ k.cell c → s.word c = r.word c

theorem Holds.closesHead (h : r.Holds []) : ClosesHead r r.step.catchUp.spend := by
  have hhead : r.tail = r.head := gap_eq_zero_iff.1 h.gap_tail
  have hbehind := h.behind_tail k.cellCount_pos
  have hword := h.word_tail k.cellCount_pos
  rw [hhead] at hbehind hword
  refine ⟨rfl, congrArg (· + 1) hhead.symm, rfl, rfl, ?_, fun c hne => ?_⟩
  · rw [word_spend, word_catchUp, word_step_of_cell_eq rfl]
    refine Order.visited_ne_of_behind hbehind ?_
    rw [hword]
    exact k.vacant_lap _
  · rw [word_spend, word_catchUp, word_step_of_cell_ne hne]

theorem ClosesHead.ne (h : ClosesHead r s) : s ≠ r := by
  rintro rfl
  exact h.word_ne rfl

/-- The ring after the given number of calls to take an index. -/
def afterDequeues (r : Ring k) : Nat → Ring k
  | 0 => r
  | n + 1 => (r.afterDequeues n).dequeue.2

theorem afterDequeues_dequeue (r : Ring k) (n : Nat) :
    r.dequeue.2.afterDequeues n = r.afterDequeues (n + 1) := by
  induction n with
  | zero => rfl
  | succ n ih => exact congrArg (·.dequeue.2) ih

namespace Holds

theorem dequeue_nil_fst (h : r.Holds []) : r.dequeue.1 = none := by rw [h.dequeue_nil]

theorem dequeue_nil_snd (h : r.Holds []) :
    r.dequeue.2 = if r.threshold < 0 then r else r.step.catchUp.spend := by
  rw [h.dequeue_nil]

theorem afterDequeues (h : r.Holds []) (n : Nat) : (r.afterDequeues n).Holds [] := by
  induction n with
  | zero => exact h
  | succ n ih =>
    obtain ⟨s, heq, hs⟩ := ih.dequeue_eq
    rwa [Ring.afterDequeues, heq]

theorem afterDequeues_succ (h : r.Holds []) (n : Nat) :
    r.afterDequeues (n + 1) =
      if (r.afterDequeues n).threshold < 0 then r.afterDequeues n
      else (r.afterDequeues n).step.catchUp.spend :=
  (h.afterDequeues n).dequeue_nil_snd

/-- Each call takes one off the threshold, until it is negative. -/
theorem threshold_afterDequeues (h : r.Holds []) (n : Nat) :
    (r.afterDequeues n).threshold = max (r.threshold - n) (-1) := by
  induction n with
  | zero =>
    have hlo := h.neg_one_le_threshold
    rw [Ring.afterDequeues]
    omega
  | succ n ih =>
    rw [h.afterDequeues_succ]
    split
    · omega
    · rw [threshold_spend, threshold_catchUp, threshold_step]
      omega

theorem calls_left_le {is : List Nat} (h : r.Holds is) :
    (r.threshold + 1).toNat ≤ 3 * 2 ^ k.exponent := by
  have hle := h.threshold_le
  rw [Order.fullThreshold] at hle
  rw [← Order.capacity_eq_two_pow]
  omega

theorem run_dequeues (h : r.Holds []) (n : Nat) :
    r.run (List.replicate n (.dequeue false)) =
      some (List.replicate n (.taken none), r.afterDequeues n) := by
  induction n generalizing r with
  | zero => rfl
  | succ n ih =>
    have hperform : r.perform (.dequeue false) = some (.taken none, r.dequeue.2) :=
      congrArg (fun index => some (Answer.taken index, r.dequeue.2)) h.dequeue_nil_fst
    rw [List.replicate_succ, run_cons hperform (ih (h.afterDequeues 1)), afterDequeues_dequeue]
    rfl

end Holds

/-- Any number of consecutive calls to take an index fail. As many as the threshold says, and one
more, each close the cell at the head; then nothing changes any more. -/
structure Settles (r : Ring k) : Prop where
  run_eq : ∀ n, r.run (List.replicate n (.dequeue false)) =
    some (List.replicate n (.taken none), r.afterDequeues n)
  dequeue_eq : ∀ n, (r.afterDequeues n).dequeue = (none, r.afterDequeues (n + 1))
  closesHead : ∀ n : Nat, n + 1 ≤ r.threshold + 1 →
    ClosesHead (r.afterDequeues n) (r.afterDequeues (n + 1))
  at_rest : ∀ n : Nat, r.threshold + 1 < n + 1 → r.afterDequeues (n + 1) = r.afterDequeues n

theorem Holds.settles (h : r.Holds []) : r.Settles where
  run_eq := h.run_dequeues
  dequeue_eq := fun n => Prod.ext (h.afterDequeues n).dequeue_nil_fst rfl
  closesHead := by
    intro n hn
    have hthreshold := h.threshold_afterDequeues n
    rw [h.afterDequeues_succ, if_neg (by omega)]
    exact (h.afterDequeues n).closesHead
  at_rest := by
    intro n hn
    have hthreshold := h.threshold_afterDequeues n
    rw [h.afterDequeues_succ, if_pos (by omega)]

/-- The calls that change the ring are the first ones, one more than the threshold says. -/
theorem Settles.afterDequeues_eq_iff (h : r.Settles) (n : Nat) :
    r.afterDequeues (n + 1) = r.afterDequeues n ↔ (r.threshold + 1).toNat ≤ n := by
  by_cases hn : (n : Int) + 1 ≤ r.threshold + 1
  · simp only [(h.closesHead n hn).ne, false_iff]
    omega
  · simp only [h.at_rest n (by omega), true_iff]
    omega

end CircularQueue.Ring
