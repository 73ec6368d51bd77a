import CircularQueue.Proofs.Ring.Landing
import CircularQueue.Proofs.Ring.Readiness

/-!
# How long a full threshold lasts

A look at a gap costs one unit of the threshold, in whichever call it is made, and a look that finds
an index costs nothing. So the shortfall of a ring, the number of its gaps less its threshold, is
the same before and after every look, and a ring without a shortfall hands out all it holds, one
index a call, before it first answers that there is none. A publish fills the threshold, whatever
was left of it. A ring that consumers had given up while it still held something is thus set going
again, if the gaps before the cursor of the publish are no more than the full threshold.
-/

namespace CircularQueue.Ring

variable {k : Order} {r : Ring k} {reach : Int}

/-- The number of gaps from the head on and before the cursor `c`. -/
def gapsTo (r : Ring k) (c : Cursor) : Nat :=
  (List.range (gap c r.head).toNat).countP fun j => (r.liveAt (r.head + j.toUInt64)).isNone

/-- At each cursor an index is live or there is a gap. -/
theorem length_add_gapsTo (r : Ring k) (c : Cursor) :
    ((List.range (gap c r.head).toNat).filterMap fun j => r.liveAt (r.head + j.toUInt64)).length +
      r.gapsTo c = (gap c r.head).toNat := by
  have hsplit := List.length_eq_countP_add_countP
    (l := List.range (gap c r.head).toNat) fun j => (r.liveAt (r.head + j.toUInt64)).isSome
  rw [List.length_range] at hsplit
  rw [List.length_filterMap_eq_countP, gapsTo]
  refine Eq.trans (congrArg _ (List.countP_congr fun j _ => ?_)) hsplit.symm
  simp

theorem length_live_add_gapsTo (r : Ring k) :
    r.live.length + r.gapsTo r.tail = r.distance :=
  r.length_add_gapsTo r.tail

/-- How many of the gaps the threshold is too low for. -/
def shortfall (r : Ring k) : Int := r.gapsTo r.tail - r.threshold

theorem gapsTo_step (hdue : ¬ r.Due) (hpos : 0 < gap r.tail r.head) :
    r.step.gapsTo r.step.tail + 1 = r.gapsTo r.tail := by
  have hcount := r.length_live_add_gapsTo
  have hcount' := r.step.length_live_add_gapsTo
  have hdistance := distance_step hpos
  have hahead : r.distance = (gap r.tail r.head).toNat := rfl
  rw [live_eq_live_step hdue hpos] at hcount
  omega

/-- A look at a gap leaves the shortfall as it was. -/
theorem shortfall_step_spend (hdue : ¬ r.Due) (hpos : 0 < gap r.tail r.head) :
    r.step.spend.shortfall = r.shortfall := by
  have hgaps := gapsTo_step hdue hpos
  have hspend : r.step.spend.gapsTo r.step.spend.tail = r.step.gapsTo r.step.tail := rfl
  rw [shortfall, shortfall, hspend, threshold_spend, threshold_step]
  omega

namespace Settled

/-- So does a look that finds an index. -/
theorem shortfall_step (h : r.Settled reach) (hreach : reach ≤ maxReach) (hdue : r.Due) :
    r.step.shortfall = r.shortfall := by
  have hpos := h.gap_pos_of_due hreach hdue
  have hcount := r.length_live_add_gapsTo
  have hcount' := r.step.length_live_add_gapsTo
  have hdistance := distance_step hpos
  have hahead : r.distance = (gap r.tail r.head).toNat := rfl
  rw [(h.take hreach hdue).1, List.length_cons] at hcount
  rw [shortfall, shortfall, threshold_step]
  omega

theorem probe_of_due (h : r.Settled reach) (hreach : reach ≤ maxReach) (hdue : r.Due) {i : Nat}
    {is : List Nat} (hlive : r.live = i :: is) (patience budget : Nat) :
    r.probe patience budget = (some i, r.step) ∧ r.step.live = is ∧ r.step.Settled reach := by
  obtain ⟨htaken, hsettled⟩ := h.take hreach hdue
  obtain ⟨rfl, rfl⟩ := List.cons_eq_cons.1 (hlive.symm.trans htaken)
  exact ⟨Ring.probe_of_due hdue _ _, rfl, hsettled⟩

/-- A walk whose budget covers the gaps takes the first live index. -/
theorem probe_of_live_eq_cons (h : r.Settled reach) (hreach : reach ≤ maxReach) {i : Nat}
    {is : List Nat} (hlive : r.live = i :: is) (patience : Nat) {budget : Nat}
    (hbudget : r.gapsTo r.tail ≤ budget) :
    ∃ r', r.probe patience budget = (some i, r') ∧ r'.live = is ∧ r'.Settled reach ∧
      r'.shortfall = r.shortfall ∧ r'.threshold ≤ r.threshold := by
  have hpos := h.gap_pos_of_live hlive
  induction budget generalizing r with
  | zero =>
    -- Without a gap the first look finds the index.
    by_cases hdue : r.Due
    · obtain ⟨hprobe, hrest, hsettled⟩ := h.probe_of_due hreach hdue hlive patience 0
      exact ⟨r.step, hprobe, hrest, hsettled, h.shortfall_step hreach hdue, le_rfl⟩
    · have hgaps := gapsTo_step hdue hpos
      omega
  | succ budget ih =>
    by_cases hdue : r.Due
    · obtain ⟨hprobe, hrest, hsettled⟩ := h.probe_of_due hreach hdue hlive patience (budget + 1)
      exact ⟨r.step, hprobe, hrest, hsettled, h.shortfall_step hreach hdue, le_rfl⟩
    · have hsettled := (h.step hreach hpos).spend
      have hrest : r.step.spend.live = i :: is := (live_eq_live_step hdue hpos).symm.trans hlive
      have hahead := hsettled.gap_pos_of_live hrest
      have hgaps := gapsTo_step hdue hpos
      have hspend : r.step.spend.gapsTo r.step.spend.tail = r.step.gapsTo r.step.tail := rfl
      obtain ⟨r', hprobe, hlive', hsettled', hshort, hthreshold⟩ :=
        ih hsettled hrest (by omega) hahead
      rw [probe_succ hdue hahead]
      refine ⟨r', hprobe, hlive', hsettled', hshort.trans (shortfall_step_spend hdue hpos), ?_⟩
      rw [threshold_spend, threshold_step] at hthreshold
      omega

end Settled

/-- A call that looks and finds nothing lowers the threshold. -/
theorem threshold_lt_of_dequeue {r' : Ring k} (hcall : r.dequeue = (none, r'))
    (hspent : 0 ≤ r.threshold) : r'.threshold < r.threshold := by
  obtain ⟨m, -, hends, -⟩ := r.exists_endsAfter publishPatience r.threshold.toNat
  rw [dequeue, dequeueWith, if_neg (Int.not_lt.2 hspent)] at hcall
  rw [hcall] at hends
  cases hends with
  | overtaken hdue hgap =>
    rw [threshold_catchUp, threshold_afterLooks]
    omega
  | exhausted hdue hgap hlast =>
    rw [threshold_afterLooks]
    omega

/-- A ring that hands out all it holds, whatever gaps there are in between, and that stays in order
for as many calls as look at it. -/
structure Provided (r : Ring k) : Prop where
  settled : ∃ reach, reach + max 0 (r.threshold + 1) ≤ maxReach ∧ r.Settled reach
  shortfall_nonpos : r.live ≠ [] → r.shortfall ≤ 0

namespace Provided

theorem dequeue_of_live_eq_nil (h : r.Provided) (hlive : r.live = []) :
    ∃ r', r.dequeue = (none, r') ∧ r'.live = [] ∧ r'.Provided := by
  obtain ⟨reach, hreach, hsettled⟩ := h.settled
  by_cases hspent : r.threshold < 0
  · exact ⟨r, dequeueWith_of_threshold_neg _ hspent, hlive, h⟩
  · obtain ⟨r', hcall⟩ := hsettled.dequeue_of_live_eq_nil (by omega) hlive
    obtain ⟨hrest, hsettled'⟩ := hsettled.dequeue (by omega)
    have hlower := threshold_lt_of_dequeue hcall (Int.not_lt.1 hspent)
    rw [hcall, hlive] at hrest
    rw [hcall] at hsettled'
    have hlive' : r'.live = [] := hrest
    exact ⟨r', hcall, hlive', ⟨reach + 1, by omega, hsettled'⟩, fun hne => absurd hlive' hne⟩

theorem dequeue_of_live_eq_cons (h : r.Provided) {i : Nat} {is : List Nat}
    (hlive : r.live = i :: is) : ∃ r', r.dequeue = (some i, r') ∧ r'.live = is ∧ r'.Provided := by
  obtain ⟨reach, hreach, hsettled⟩ := h.settled
  have hshort := h.shortfall_nonpos (by rw [hlive]; exact List.cons_ne_nil _ _)
  have hgaps : (r.gapsTo r.tail : Int) ≤ r.threshold := Int.le_of_sub_nonpos hshort
  have hbudget : r.gapsTo r.tail ≤ r.threshold.toNat := by omega
  obtain ⟨r', hprobe, hlive', hsettled', hshort', hthreshold⟩ :=
    hsettled.probe_of_live_eq_cons (by omega) hlive publishPatience hbudget
  refine ⟨r', ?_, hlive', ⟨reach, by omega, hsettled'⟩, fun _ => hshort'.le.trans hshort⟩
  rw [dequeue, dequeueWith, if_neg (by omega), hprobe]

/-- Each call takes the first of the live indices, if there is one. -/
theorem dequeue (h : r.Provided) :
    ∃ r', r.dequeue = (r.live.head?, r') ∧ r'.live = r.live.tail ∧ r'.Provided := by
  cases hlive : r.live with
  | nil => exact h.dequeue_of_live_eq_nil hlive
  | cons i is => exact h.dequeue_of_live_eq_cons hlive

/-- So any number of calls take the live indices one after the other, and all calls after them find
nothing. -/
theorem run_dequeues (h : r.Provided) (m : Nat) :
    ∃ r', r.run (List.replicate m (.dequeue false)) =
      some ((List.range m).map fun j => .taken r.live[j]?, r') := by
  induction m generalizing r with
  | zero => exact ⟨r, rfl⟩
  | succ m ih =>
    obtain ⟨s, hcall, hlive, hs⟩ := h.dequeue
    obtain ⟨r', hrun⟩ := ih hs
    have hperform : r.perform (.dequeue false) = some (.taken r.live.head?, s) := by
      rw [perform, hcall]
    refine ⟨r', ?_⟩
    rw [List.replicate_succ, run_cons hperform hrun]
    simp only [hlive, List.range_succ_eq_map, List.map_cons, List.map_map, Function.comp_def,
      List.getElem?_tail, List.head?_eq_getElem?, Nat.succ_eq_add_one]

end Provided

/-! What a publish at a cursor `j` past the tail provides for. -/

namespace Settled

variable {i j : Nat}

theorem gapsTo_publish (h : r.Settled reach) (hreach : reach ≤ maxReach) (hi : i < k.capacity)
    (hj : j < k.cellCount) (hvacant : k.Vacant (r.word (r.tail + j.toUInt64))) (nonempty : Bool) :
    (r.publish (r.tail + j.toUInt64) i nonempty).gapsTo
      (r.publish (r.tail + j.toUInt64) i nonempty).tail = r.gapsTo (r.tail + j.toUInt64) := by
  have hbefore := r.length_add_gapsTo (r.tail + j.toUInt64)
  have hafter := (r.publish (r.tail + j.toUInt64) i nonempty).length_live_add_gapsTo
  rw [h.gap_tail_add hreach hj.le, Int.toNat_natCast, h.filterMap_liveAt hreach hj] at hbefore
  rw [h.live_publish hreach hi hj hvacant, h.distance_publish hreach hj, List.length_append,
    List.length_singleton] at hafter
  omega

theorem provided_publish (h : r.Settled (2 ^ 61)) (hi : i < k.capacity) (hj : j < k.cellCount)
    (hvacant : k.Vacant (r.word (r.tail + j.toUInt64)))
    (hgaps : r.gapsTo (r.tail + j.toUInt64) ≤ k.fullThreshold) :
    (r.publish (r.tail + j.toUInt64) i false).Provided := by
  have hcount := k.cellCount_le
  have hcapacity := k.cellCount_eq
  have hfull : (r.publish (r.tail + j.toUInt64) i false).threshold = k.fullThreshold := rfl
  refine ⟨⟨_, ?_, h.publish (by decide) hi hj false⟩, fun _ => ?_⟩
  · rw [hfull, Order.fullThreshold, maxReach]
    omega
  · rw [shortfall, h.gapsTo_publish (by decide) hi hj hvacant, hfull]
    omega

end Settled

/-- In every orderly state with a vacant cell, whatever the threshold, an index in range is
published at some cursor. If there are no more gaps before that cursor than a full threshold lasts
for, then the calls of a consumer take what was live, in order, and the new index last; and every
call after that finds nothing. -/
theorem Orderly.dequeues_after_enqueue (h : r.Orderly) {i : Nat} (hi : i < k.capacity)
    (hvacant : ∃ c, k.Vacant (r.word c)) :
    ∃ t r', r.enqueue i false = some (true, r') ∧ r.FirstOpen t ∧ r.Lands r' t i false ∧
      r'.live = r.live ++ [i] ∧
      (r.gapsTo t ≤ k.fullThreshold → ∀ m, ∃ r'',
        r'.run (List.replicate m (.dequeue false)) =
          some ((List.range m).map fun j => .taken (r.live ++ [i])[j]?, r'')) := by
  obtain ⟨c, hvacant⟩ := hvacant
  have hsettled := h.settled
  obtain ⟨j, hj, hsearch, hcell⟩ := hsettled.exists_firstUsable? (by decide) hvacant
  have hlive := hsettled.live_publish (by decide) hi hj hcell false
  have hopen := usable_iff_openAt.1 (firstUsable?_eq_some hsearch)
  refine ⟨_, _, by rw [enqueue, if_pos hi, hsearch], firstUsable?_eq_some_iff.1 hsearch,
    lands_publish hi hopen false, hlive, fun hgaps m => ?_⟩
  rw [← hlive]
  exact (hsettled.provided_publish hi hj hcell hgaps).run_dequeues m

/-- A ring of order one that consumers have given up, though the index one is live in it. A gap
comes before that index and four after it, where a producer passes the cell that still holds it. -/
def givenUp : Ring Order.one where
  head := 2
  tail := 7
  threshold := -1
  cells := #v[7, 7, 0xFFFFFFFFFFFFFFFF, 5]

theorem orderly_givenUp : givenUp.Orderly := by
  have hsettled : givenUp.Settled 16 := settled_of_cells #v[0, 1, -2, 3] (by decide)
  exact hsettled.orderly (by decide)

/-- The index zero is published after five gaps, which is as many as the threshold lasts for. -/
theorem dequeues_after_enqueue_givenUp :
    givenUp.Orderly ∧ givenUp.dequeue = (none, givenUp) ∧
    givenUp.gapsTo 8 = Order.one.fullThreshold ∧
    ∃ r', givenUp.enqueue 0 false = some (true, r') ∧ ∃ r'',
      r'.run (List.replicate 4 (.dequeue false)) =
        some ([.taken (some 1), .taken (some 0), .taken none, .taken none], r'') := by
  have hgaps : givenUp.gapsTo 8 = Order.one.fullThreshold := by decide
  have hlive : givenUp.live = [1] := by decide
  have henqueue : givenUp.enqueue 0 false = some (true, givenUp.publish 8 0 false) := by
    decide +kernel
  obtain ⟨t, r', hcall, -, hland, -, hrun⟩ :=
    orderly_givenUp.dequeues_after_enqueue (i := 0) (by decide) ⟨0, by decide⟩
  have hr' : givenUp.publish 8 0 false = r' := by
    rw [henqueue] at hcall
    exact congrArg Prod.snd (Option.some.inj hcall)
  obtain rfl : t = 8 := by
    have htail := hland.tail
    rw [← hr'] at htail
    rw [← UInt64.add_sub_cancel t 1, ← htail]
    decide
  obtain ⟨r'', hrun⟩ := hrun hgaps.le 4
  rw [hlive] at hrun
  exact ⟨orderly_givenUp, by decide, hgaps, r', hcall, r'', hrun⟩

end CircularQueue.Ring
