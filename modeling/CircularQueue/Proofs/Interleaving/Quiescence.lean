import CircularQueue.Proofs.Interleaving.Budget
import CircularQueue.Proofs.Interleaving.HandOff
import CircularQueue.Proofs.Queue.Rest

/-!
# No index is stranded

Any threads append to one queue and remove from it, no more of them than the queue has slots. When
they have all returned, both rings are at rest: the tail has not been left behind the head, each
word was written before the tail, and the threshold lasts up to the first live index. So the queue
then refuses a value only if it is full, and says that there is none only if it is empty, whatever
the schedule was.
-/

namespace CircularQueue

open Interleaving

namespace Ring

variable {k : Order} {t : Nat} {r s : Ring k} {posts : Fin t → Option RingLocation} {i : Fin t}
  {limit index : Nat}

/-- What makes sure of a ring, between any two accesses, that it will be at rest when the threads
have returned. -/
structure Reliable (r : Ring k) (limit : Nat) (posts : Fin t → Option RingLocation) : Prop where
  paced : r.Paced limit posts
  covered : r.Covered posts
  lasts : r.Lasts posts

namespace Reliable

/-- A thread comes to the ring to take an index. -/
theorem enter_consumer (h : r.Reliable limit posts) (hpost : posts i = none) :
    r.Reliable limit (Function.update posts i (some (.taking false .readThreshold))) where
  paced := h.paced.settle rfl rfl rfl (by rw [hpost]; rfl) (by rw [hpost]; rfl)
  covered := h.covered.of_not_seesTo rfl le_rfl (by rw [hpost]; rintro _ _ ⟨⟩)
  lasts := h.lasts.update (by rw [hpost]; rintro _ ⟨⟩) le_rfl (fun _ _ _ hlive => hlive)
    (by rw [hpost]; exact le_rfl)

/-- A thread comes to the ring to publish an index that is nowhere in it. -/
theorem enter_producer (h : r.Reliable limit posts) (hpost : posts i = none)
    (hindex : index < limit) (hfresh : ∀ place, ¬ r.Lies posts index place) :
    r.Reliable limit (Function.update posts i (some (.publishing index false .reserve))) where
  paced := h.paced.enter hpost hindex hfresh false
  covered := h.covered.of_not_seesTo rfl le_rfl (by rw [hpost]; rintro _ _ ⟨⟩)
  lasts := h.lasts.update (by rw [hpost]; rintro _ ⟨⟩) le_rfl (fun _ _ _ hlive => hlive)
    (by rw [hpost]; exact le_rfl)

theorem consumer_step (h : r.Reliable limit posts) (hattended : r.Attended posts) (hr : r.Early)
    {location : Consumer} (hpost : posts i = some (.taking false location)) {patience : Nat}
    {spurious : Bool} {next : Next Consumer (Option Nat)}
    (hstep : location.step patience false r spurious = (s, next)) :
    s.Reliable limit (Function.update posts i (Consumer.post false next)) where
  paced := h.paced.consumer_step hattended hr hpost hstep
  covered := hattended.covered_of_consumer_stride hr hpost
    (Consumer.stride_of_step hr (hattended.informed i _ hpost) hstep) h.covered
  lasts := h.lasts.consumer_step hattended hr hpost hstep

theorem producer_step (h : r.Reliable limit posts) (hattended : r.Attended posts) (hr : r.Early)
    (hlimit : limit ≤ k.capacity) (ht : t ≤ limit) {location : Producer}
    (hpost : posts i = some (.publishing index false location)) {spurious : Bool}
    {next : Next Producer Unit} (hstep : location.step index false r spurious = (s, next)) :
    s.Reliable limit (Function.update posts i (Producer.post index false next)) where
  paced := h.paced.producer_step hattended hr hlimit hpost hstep
  covered := covered_of_producer_stride hr hpost (Producer.stride_of_step hstep) h.covered
  lasts := h.lasts.producer_step h.paced hattended hr hlimit ht hpost hstep

end Reliable

theorem Holds.reliable {is : List Nat} (h : r.Holds is) (hr : r.Early) (hnodup : is.Nodup)
    (hlimit : ∀ index ∈ is, index < limit) : r.Reliable limit fun _ : Fin t => none :=
  ⟨h.paced hr hnodup hlimit, h.covered hr, h.lasts hr⟩

/-! ## Rings at rest -/

/-- Each word was written before the tail, and before the head if it is vacant. -/
theorem Attended.exists_written (h : r.Attended posts) (hr : r.Early) (hdated : r.Dated)
    (hle : r.head.toNat ≤ r.tail.toNat) (c : Cursor) :
    ∃ d, k.cell d = k.cell c ∧ k.lap d = k.lapOf (r.word c) ∧ -(2 ^ 61 + 2 ^ 32) < gap d r.tail ∧
      gap d r.tail < 0 ∧ (k.Vacant (r.word c) → gap d r.head < 0) := by
  obtain ⟨hhead, htail⟩ := hr
  have hcount := k.cellCount_le
  rcases hdated c with hunused | ⟨d, hd, hcell, hlap⟩
  -- A word that was never written has the lap of the cursor before the first lap.
  · obtain ⟨j, hj, hcell⟩ := k.exists_cell_add_eq (0 - k.cellCount.toUInt64) c
    have hback := gap_sub_self (c := 0) (j := k.cellCount) (by omega)
    have hzero : gap (0 - k.cellCount.toUInt64 + j.toUInt64) 0 = j - k.cellCount := by
      rw [gap_add_left (by omega), hback]
      omega
    have hgap (e : Cursor) (he : e.toNat ≤ 2 ^ 61) :
        gap (0 - k.cellCount.toUInt64 + j.toUInt64) e = j - k.cellCount - e.toNat := by
      have hfirst := gap_eq_toNat_sub (a := e) (b := 0) (by omega) (by simp)
      simp only [UInt64.toNat_zero] at hfirst
      rw [gap_eq_sub 0 (by omega) (by omega), hzero]
      omega
    have hgapTail := hgap _ htail
    have hgapHead := hgap _ hhead
    refine ⟨_, hcell, ?_, by omega, by omega, fun _ => by omega⟩
    rw [Order.lap_eq_unusedWord (by omega) (by omega), hunused, k.lapOf_unusedWord]
  · rw [← word_eq_of_cell_eq hcell] at hlap ⊢
    have hspent (hvacant : k.Vacant (r.word d)) : d.toNat < r.head.toNat :=
      (h.spent d hd hvacant hlap.symm).1
    have hbefore : d.toNat < r.tail.toNat := by
      by_cases hvacant : k.Vacant (r.word d)
      · exact (hspent hvacant).trans_le hle
      · exact h.lt_tail_of_live hd (liveAt_eq_some hlap.symm hvacant)
    have hgapTail := gap_eq_toNat_sub (a := d) (b := r.tail) (by omega) (by omega)
    have hgapHead := gap_eq_toNat_sub (a := d) (b := r.head) (by omega) (by omega)
    refine ⟨d, hcell, hlap, by omega, by omega, fun hvacant => ?_⟩
    have hlt := hspent hvacant
    omega

/-- When no thread is at the ring any more, it is at rest. -/
theorem Reliable.atRest (h : r.Reliable limit fun _ : Fin t => none)
    (hattended : r.Attended fun _ : Fin t => none) (hr : r.Early) (hlimit : limit ≤ k.capacity) :
    r.AtRest := by
  have hle := h.covered.head_le (by rintro _ _ ⟨⟩)
  have hgap := gap_eq_toNat_sub (a := r.tail) (b := r.head) (hr.2.trans (by omega))
    (hr.1.trans (by omega))
  have hsettled : r.Settled (2 ^ 61 + 2 ^ 32) := by
    refine ⟨by omega, ?_, ?_, hattended.exists_written hr h.paced.dated hle⟩
    · have htail := hr.2
      omega
    · intro c hoccupied
      obtain ⟨d, hd, -, hlive⟩ := h.paced.dated.exists_liveAt hoccupied
      exact (h.paced.index_lt _ (.inl d) ⟨hd, hlive⟩).trans_le hlimit
  have hreach : (2 ^ 61 + 2 ^ 32 : Int) ≤ maxReach := by decide
  refine ⟨⟨_, hreach, hsettled⟩, hsettled.handsOut hreach ?_, ?_⟩
  · intro gaps i hfirst
    have hahead := hfirst.ahead
    have hcursor : (r.head + gaps.toUInt64).toNat = r.head.toNat + gaps := by
      have hearly := hr.2
      rw [toNat_add_toUInt64]
      omega
    have hearly := hr.2
    have hlasts := h.lasts.le_threshold (c := r.head + gaps.toUInt64) (by omega) (by omega)
      hfirst.live
    omega
  · exact h.paced.exists_vacant (hlimit.trans_lt k.capacity_lt_cellCount)

end Ring

/-! ## Threads at a queue -/

namespace Interleaving

variable {α : Type} {t : Nat} {index : Nat}

/-- The index that the thread at this post has claimed or is to publish. -/
def RingLocation.index? : RingLocation → Option Nat
  | .publishing index _ location => location.held? index
  | .taking _ location => location.claimed?

theorem Thread.spare?_of_freePost? {thread : QueueThread α}
    (h : thread.freePost?.bind RingLocation.index? = some index) : thread.spare? = some index := by
  rcases thread with _ | ⟨hand, call, location⟩
  · cases h
  · cases location <;> first | exact h | cases h

theorem Thread.laden?_of_allocatedPost? {thread : QueueThread α}
    (h : thread.allocatedPost?.bind RingLocation.index? = some index) :
    thread.laden? = some index := by
  rcases thread with _ | ⟨hand, call, location⟩
  · cases h
  · cases location <;> first | exact h | cases h

end Interleaving

/-- An index in a ring is unclaimed, or some thread has it. -/
theorem Ring.Attended.mem_unclaimed_or_of_lies {k : Order} {t : Nat} {r : Ring k}
    {posts : Fin t → Option RingLocation} {index : Nat} {place : Cursor ⊕ Fin t}
    (h : r.Attended posts) (hr : r.Early) (hlies : r.Lies posts index place) :
    index ∈ r.unclaimed posts ∨ ∃ i, (posts i).bind RingLocation.index? = some index := by
  rcases place with c | i
  · by_cases hclaimed : ∃ i nonempty, posts i = some (.taking nonempty (.take c index))
    · obtain ⟨i, nonempty, hpost⟩ := hclaimed
      exact .inr ⟨i, by rw [hpost]; rfl⟩
    · refine .inl ((h.mem_unclaimed_iff hr).2 ⟨c, hlies.1, hlies.2, fun i nonempty hpost => ?_⟩)
      exact hclaimed ⟨i, nonempty, hpost⟩
  · obtain ⟨location, hpost, hheld⟩ := Option.bind_eq_some_iff.1 hlies
    cases location with
    | taking => cases hheld
    | publishing => exact .inr ⟨i, by rw [hpost]; exact hheld⟩

namespace Interleaving.World

variable {α : Type} {t : Nat} {w w' : QueueWorld α t} {i : Fin t} {call : Transfer α}
  {next : Next (QueueLocation α) (Receipt α × Unit)} {index patience : Nat}

theorem Custody.not_lies_free (h : w.Custody) (hr : w.shared.free.Early)
    (hindex : index ∉ w.emptySlots) (place : Cursor ⊕ Fin t) :
    ¬ w.shared.free.Lies w.freePosts index place := by
  intro hlies
  rcases h.free.mem_unclaimed_or_of_lies hr hlies with hunclaimed | ⟨i, hi⟩
  · exact hindex (List.mem_append_left _ hunclaimed)
  · exact hindex (List.mem_append_right _ (mem_gather_iff.2 ⟨i, Thread.spare?_of_freePost? hi⟩))

theorem Custody.not_lies_allocated (h : w.Custody) (hr : w.shared.allocated.Early)
    (hindex : index ∉ w.filledSlots) (place : Cursor ⊕ Fin t) :
    ¬ w.shared.allocated.Lies w.allocatedPosts index place := by
  intro hlies
  rcases h.allocated.mem_unclaimed_or_of_lies hr hlies with hunclaimed | ⟨i, hi⟩
  · exact hindex (List.mem_append_left _ hunclaimed)
  · exact hindex
      (List.mem_append_right _ (mem_gather_iff.2 ⟨i, Thread.laden?_of_allocatedPost? hi⟩))

/-- What makes sure of a queue, between any two accesses, that it will be at rest when the threads
have returned. -/
structure Reliable (w : QueueWorld α t) : Prop where
  custody : w.Custody
  free : w.shared.free.Reliable w.shared.capacity.val w.freePosts
  allocated : w.shared.allocated.Reliable w.shared.capacity.val w.allocatedPosts

namespace Reliable

/-- A thread moves at the free ring. -/
theorem at_free (h : w.Reliable) {free : Ring w.shared.capacity.order}
    (hcustody : (w.advance { w.shared with free } i call next).Custody)
    (hfree : free.Reliable w.shared.capacity.val
      (Function.update w.freePosts i (Thread.after () call next).freePost?))
    (hpost : (Thread.after () call next).allocatedPost? = (w.threads.get i).allocatedPost?) :
    (w.advance { w.shared with free } i call next).Reliable where
  custody := hcustody
  free := by
    rw [freePosts_advance]
    exact hfree
  allocated := by
    rw [Custody.allocatedPosts_eq _ hpost]
    exact h.allocated

/-- A thread moves at the allocated ring. -/
theorem at_allocated (h : w.Reliable) {allocated : Ring w.shared.capacity.order}
    (hcustody : (w.advance { w.shared with allocated } i call next).Custody)
    (hallocated : allocated.Reliable w.shared.capacity.val
      (Function.update w.allocatedPosts i (Thread.after () call next).allocatedPost?))
    (hpost : (Thread.after () call next).freePost? = (w.threads.get i).freePost?) :
    (w.advance { w.shared with allocated } i call next).Reliable where
  custody := hcustody
  free := by
    rw [Custody.freePosts_eq _ hpost]
    exact h.free
  allocated := by
    rw [allocatedPosts_advance]
    exact hallocated

theorem move (h : w.Reliable) (hearly : w.Early) (ht : t ≤ w.shared.capacity.val)
    (hmove : w.Move patience w') : w'.Reliable := by
  have hcustody := h.custody.move hearly hmove
  have hlimit := w.shared.capacity.val_le_capacity_order
  obtain ⟨hfreeEarly, hallocatedEarly⟩ := hearly
  cases hmove with
  | still => exact h
  | @start i hat call =>
    cases call with
    | tryEnqueue v =>
      have hpost : w.freePosts i = none := by rw [freePosts, hat]; rfl
      exact h.at_free hcustody (h.free.enter_consumer hpost) (by rw [hat]; rfl)
    | dequeue =>
      have hpost : w.allocatedPosts i = none := by rw [allocatedPosts, hat]; rfl
      exact h.at_allocated hcustody (h.allocated.enter_consumer hpost) (by rw [hat]; rfl)
  | @claimFree i call v location spurious free next hat hstep =>
    have hpost : w.freePosts i = some (.taking false location) := by rw [freePosts, hat]; rfl
    have hfree := h.free.consumer_step h.custody.free hfreeEarly hpost hstep
    rcases next with location' | _ | index <;>
      exact h.at_free hcustody hfree (by rw [hat]; rfl)
  | @storeValue i call v index slots hat hstore =>
    have hpost : w.allocatedPosts i = none := by rw [allocatedPosts, hat]; rfl
    obtain ⟨hmem, -⟩ := h.custody.slots_of_store hat hstore
    have hindex := h.custody.lt_capacity (List.mem_append_left _ hmem)
    have hfresh := h.custody.not_lies_allocated hallocatedEarly (h.custody.not_mem_filledSlots hmem)
    refine ⟨hcustody, ?_, ?_⟩
    · rw [Custody.freePosts_eq _ (by rw [hat]; rfl)]
      exact h.free
    · rw [allocatedPosts_advance]
      exact h.allocated.enter_producer hpost hindex hfresh
  | @announce i call index location spurious allocated next hat hstep =>
    have hpost : w.allocatedPosts i = some (.publishing index false location) := by
      rw [allocatedPosts, hat]; rfl
    have hallocated := h.allocated.producer_step h.custody.allocated hallocatedEarly hlimit ht
      hpost hstep
    rcases next with location' | _ <;>
      exact h.at_allocated hcustody hallocated (by rw [hat]; rfl)
  | @claimValue i call location spurious allocated next hat hstep =>
    have hpost : w.allocatedPosts i = some (.taking false location) := by
      rw [allocatedPosts, hat]; rfl
    have hallocated := h.allocated.consumer_step h.custody.allocated hallocatedEarly hpost hstep
    rcases next with location' | _ | index <;>
      exact h.at_allocated hcustody hallocated (by rw [hat]; rfl)
  | @loadValue i call v index slots hat hload =>
    have hpost : w.freePosts i = none := by rw [freePosts, hat]; rfl
    obtain ⟨hmem, -, -⟩ := h.custody.slots_of_load hat hload
    have hindex := h.custody.lt_capacity (List.mem_append_right _ hmem)
    have hfresh := h.custody.not_lies_free hfreeEarly fun hempty =>
      h.custody.not_mem_filledSlots hempty hmem
    refine ⟨hcustody, ?_, ?_⟩
    · rw [freePosts_advance]
      exact h.free.enter_producer hpost hindex hfresh
    · rw [Custody.allocatedPosts_eq _ (by rw [hat]; rfl)]
      exact h.allocated
  | @giveBack i call v index location spurious free next hat hstep =>
    have hpost : w.freePosts i = some (.publishing index false location) := by
      rw [freePosts, hat]; rfl
    have hfree := h.free.producer_step h.custody.free hfreeEarly hlimit ht hpost hstep
    rcases next with location' | _ <;>
      exact h.at_free hcustody hfree (by rw [hat]; rfl)

theorem run (h : w.Reliable) (ht : t ≤ w.shared.capacity.val)
    {actions : List (Action (Transfer α) t)}
    (hearly : w.Throughout (queueMachine α patience) Early actions) :
    ∃ w', w.run (queueMachine α patience) actions = .ok w' ∧
      w'.shared.capacity = w.shared.capacity ∧ w'.Reliable := by
  induction actions generalizing w with
  | nil => exact ⟨w, rfl, rfl, h⟩
  | cons action actions ih =>
    obtain ⟨w₁, completed, hact, hmove⟩ := h.custody.exists_move patience action
    have hcapacity : w₁.shared.capacity = w.shared.capacity := by cases hmove <;> rfl
    obtain ⟨w₂, hrun, hcapacity₂, h₂⟩ :=
      ih (h.move hearly.now ht hmove) (hcapacity ▸ ht) (hearly.next hact)
    exact ⟨w₂, by rw [World.run, hact]; exact hrun, hcapacity₂.trans hcapacity, h₂⟩

/-- Before any call. -/
theorem start {q : Queue α} {spare : List Nat} (h : q.Owned spare [] [])
    (hfree : q.free.Early) (hallocated : q.allocated.Early) :
    (World.start q () t : QueueWorld α t).Reliable := by
  have hnodup := h.nodup
  rw [List.append_nil] at hnodup
  refine ⟨Custody.start h hfree hallocated, ?_, ?_⟩
  · rw [freePosts_of_idle (get_start q ())]
    exact h.free.reliable hfree hnodup fun index hindex =>
      h.lt_capacity (List.mem_append_left _ hindex)
  · rw [allocatedPosts_of_idle (get_start q ())]
    exact h.allocated.reliable hallocated List.nodup_nil (by simp)

/-- When all threads have returned the queue is at rest. -/
theorem atRest (h : w.Reliable) (hearly : w.Early) (hquiet : w.isQuiet = true) :
    w.shared.AtRest := by
  have hidle (i : Fin t) : w.threads.get i = .idle () := by
    have hi := isIdle_of_isQuiet hquiet i
    rcases hat : w.threads.get i with ⟨⟨⟩⟩ | _
    · rfl
    · rw [hat] at hi
      cases hi
  have hfreePosts := freePosts_of_idle hidle
  have hallocatedPosts := allocatedPosts_of_idle hidle
  have hlimit := w.shared.capacity.val_le_capacity_order
  have hempty : w.emptySlots = w.shared.free.live := by
    rw [emptySlots, hfreePosts, Ring.unclaimed_none, gather_eq_nil fun i => by rw [hidle]; rfl,
      List.append_nil]
  have hfilled : w.filledSlots = w.shared.allocated.live := by
    rw [filledSlots, hallocatedPosts, Ring.unclaimed_none,
      gather_eq_nil fun i => by rw [hidle]; rfl, List.append_nil]
  obtain ⟨hcustody, hfree, hallocated⟩ := h
  refine ⟨?_, ?_, ?_, ?_⟩
  · rw [hfreePosts] at hfree
    exact hfree.atRest (hfreePosts ▸ hcustody.free) hearly.1 hlimit
  · rw [hallocatedPosts] at hallocated
    exact hallocated.atRest (hallocatedPosts ▸ hcustody.allocated) hearly.2 hlimit
  · rw [← hempty, ← hfilled]
    exact hcustody.places
  · rw [← hfilled]
    exact hcustody.filled

end Reliable

end Interleaving.World

namespace Interleaving

variable {α : Type}

/-- Threads append to a new queue and remove from it, at most as many as it has slots, and their
accesses fall in any order. Whenever they have all returned, as long as no cursor has passed
`2 ^ 61`: a ring that holds an index has a threshold that lasts for the gaps before the first one,
and hands it out; and the queue refuses a value only if it is full, and says that there is none only
if it is empty. -/
theorem none_stranded {c : Capacity} {q : Queue α} (hq : q.MadeFor c) (patience : Nat) {t : Nat}
    (ht : t ≤ c.val) (actions : List (Action (Transfer α) t))
    (hearly : (World.start q () t).Throughout (queueMachine α patience) World.Early actions) :
    ∃ w, (World.start q () t).run (queueMachine α patience) actions = .ok w ∧
      w.shared.capacity = c ∧
      (w.isQuiet = true →
        w.shared.free.HandsOut ∧ w.shared.allocated.HandsOut ∧ w.shared.Truthful) := by
  obtain ⟨rfl, spare, howned⟩ := hq.owned
  obtain ⟨hfree, hallocated⟩ := hearly.now
  obtain ⟨w, hrun, hcapacity, hw⟩ := (World.Reliable.start howned hfree hallocated).run ht hearly
  refine ⟨w, hrun, hcapacity, fun hquiet => ?_⟩
  have hrest := hw.atRest (hearly.last hrun) hquiet
  exact ⟨hrest.free.handsOut, hrest.allocated.handsOut, hrest.truthful⟩

/-- After a value has gone through a queue of two, the second thread comes again and closes the cell
that the first one reserves next. It lowers the threshold when the first one has published in the
cell after that and found the threshold full. -/
def lateSpending : List (Action (Transfer Nat) 2) :=
  List.flatten [
    .call 0 (.tryEnqueue 7) :: List.replicate 12 (.step 0 false),
    .call 1 .dequeue :: List.replicate 11 (.step 1 false),
    .call 1 .dequeue :: List.replicate 5 (.step 1 false),
    .call 0 (.tryEnqueue 8) :: List.replicate 13 (.step 0 false),
    List.replicate 4 (.step 1 false)]

theorem none_stranded_lateSpending :
    ∃ q : Queue Nat, q.MadeFor ⟨2, by decide, by decide⟩ ∧
      (World.start q () 2).Throughout (queueMachine Nat 0) World.Early lateSpending ∧
      ∃ w, (World.start q () 2).run (queueMachine Nat 0) lateSpending = .ok w ∧
        w.isQuiet = true ∧ w.shared.allocated.live = [1] ∧ w.shared.free.HandsOut ∧
        w.shared.allocated.HandsOut ∧ w.shared.Truthful := by
  have hmade : (Queue.cold ⟨2, by decide, by decide⟩ : Queue Nat).MadeFor
      ⟨2, by decide, by decide⟩ := Queue.madeFor_cold _
  have hearly : (World.start (Queue.cold ⟨2, by decide, by decide⟩) () 2).Throughout
      (queueMachine Nat 0) World.Early lateSpending := by decide +kernel
  obtain ⟨w, hrun, -, hw⟩ := none_stranded hmade 0 (by decide) lateSpending hearly
  have hend : ((World.start (Queue.cold ⟨2, by decide, by decide⟩) () 2).run
      (queueMachine Nat 0) lateSpending).toOption.all
        (fun w => w.isQuiet && w.shared.allocated.live == [1]) = true := by decide +kernel
  rw [hrun, Except.toOption, Option.all_some, Bool.and_eq_true, beq_iff_eq] at hend
  exact ⟨_, hmade, hearly, w, hrun, hend.1, hend.2, hw hend.1⟩

end Interleaving

end CircularQueue
