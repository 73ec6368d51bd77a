import CircularQueue.Proofs.Interleaving.Custody
import CircularQueue.Proofs.Queue.Service

/-!
# Slots are handed off under any interleaving

Any number of threads append to one queue and remove from it, and their accesses fall in any order.
As long as no cursor has passed `2 ^ 61` the slots are handed from ring to thread to ring: none is
lost, none is with two threads, and none is read before it is written. So values go through the
queue as in a run of one thread, except for their order.
-/

namespace CircularQueue.Interleaving

variable {α : Type} {t : Nat}

namespace World

theorem gather_start {β : Type} (q : Queue α) {f : QueueThread α → Option β}
    (hf : f (.idle ()) = none) :
    gather (World.start q () t : QueueWorld α t).threads f = [] :=
  gather_eq_nil fun i => by rw [get_start, hf]

namespace Custody

variable {w : QueueWorld α t}

/-- Before any call all slots are empty and free. -/
theorem start {q : Queue α} {spare : List Nat} (h : q.Owned spare [] [])
    (hfree : q.free.Early) (hallocated : q.allocated.Early) :
    (World.start q () t : QueueWorld α t).Custody := by
  set w : QueueWorld α t := World.start q () t with hw
  have hfreePosts : w.freePosts = fun _ => none := freePosts_of_idle (get_start q ())
  have hallocatedPosts : w.allocatedPosts = fun _ => none :=
    allocatedPosts_of_idle (get_start q ())
  have hempty : w.emptySlots = spare := by
    rw [emptySlots, hfreePosts, Ring.unclaimed_none, hw, gather_start q rfl, List.append_nil]
    exact h.free.live_eq
  have hfilled : w.filledSlots = [] := by
    rw [filledSlots, hallocatedPosts, Ring.unclaimed_none, hw, gather_start q rfl,
      List.append_nil]
    exact h.allocated.live_eq
  exact {
    free := by
      rw [hfreePosts]
      exact h.free.attended hfree
    allocated := by
      rw [hallocatedPosts]
      exact h.allocated.attended hallocated
    follows := by
      intro i call location hat
      rw [get_start] at hat
      cases hat
    places := by
      rw [hempty, hfilled]
      exact h.perm
    filled := by
      rw [hfilled]
      exact h.isSome_iff
    accounts := by
      rw [accepted, delivered, hfilled, hw, gather_start q rfl, gather_start q rfl]
      exact List.Perm.refl _ }

/-- No action meets a fault. -/
theorem exists_move (h : w.Custody) (patience : Nat) (action : Action (Transfer α) t) :
    ∃ w' completed, w.act (queueMachine α patience) action = .ok (w', completed) ∧
      w.Move patience w' := by
  refine World.exists_move ?_ ?_ action
  · intro i call v index hat
    have hmem : index ∈ w.emptySlots :=
      List.mem_append_right _ (mem_gather_iff.2 ⟨i, by rw [hat]; rfl⟩)
    exact ⟨h.lt_capacity (List.mem_append_left _ hmem), h.valueAt_eq_none hmem⟩
  · intro i call index hat
    have hmem : index ∈ w.filledSlots :=
      List.mem_append_right _ (mem_gather_iff.2 ⟨i, by rw [hat]; rfl⟩)
    exact ⟨h.lt_capacity (List.mem_append_right _ hmem), (h.filled index).2 hmem⟩

theorem run (h : w.Custody) {patience : Nat} {actions : List (Action (Transfer α) t)}
    (hearly : w.Throughout (queueMachine α patience) Early actions) :
    ∃ w', w.run (queueMachine α patience) actions = .ok w' ∧ w'.Custody ∧
      w'.shared.capacity = w.shared.capacity := by
  induction actions generalizing w with
  | nil => exact ⟨w, rfl, h, rfl⟩
  | cons action actions ih =>
    obtain ⟨w₁, completed, hact, hmove⟩ := h.exists_move patience action
    obtain ⟨w₂, hrun, h₂, hcapacity⟩ := ih (h.move hearly.now hmove) (hearly.next hact)
    refine ⟨w₂, by rw [World.run, hact]; exact hrun, h₂, hcapacity.trans ?_⟩
    cases hmove <;> rfl

end Custody

/-- The values in the slots whose numbers are allocated. -/
def residents (w : QueueWorld α t) : List α :=
  (w.shared.allocated.unclaimed w.allocatedPosts).filterMap w.shared.valueAt

/-- The values in the slots whose numbers are with threads. -/
def inHands (w : QueueWorld α t) : List α :=
  (gather w.threads Thread.laden?).filterMap w.shared.valueAt

/-- Every slot number is in exactly one place: published and not claimed in one of the rings, or
with one thread. No two threads are at one slot, a slot is filled when it is read and empty when it
is written, and the values that came in are those that went out and those in the filled slots. -/
structure HandsOver (w : QueueWorld α t) : Prop where
  free : ∀ index, index ∈ w.shared.free.unclaimed w.freePosts ↔
    w.shared.free.Claimable w.freePosts index
  allocated : ∀ index, index ∈ w.shared.allocated.unclaimed w.allocatedPosts ↔
    w.shared.allocated.Claimable w.allocatedPosts index
  places : (w.shared.free.unclaimed w.freePosts ++ w.shared.allocated.unclaimed w.allocatedPosts ++
    gather w.threads Thread.held?).Perm (List.range w.shared.capacity.val)
  exclusive : ∀ i j index, (w.threads.get i).held? = some index →
    (w.threads.get j).held? = some index → i = j
  accesses : ∀ i index, (w.threads.get i).accessing? = some index →
    (w.threads.get i).held? = some index
  read : ∀ i call index, w.threads.get i = .busy () call (.loadValue index) →
    (w.shared.valueAt index).isSome
  written : ∀ i call v index, w.threads.get i = .busy () call (.storeValue v index) →
    w.shared.valueAt index = none
  undelivered : w.accepted.length ≤ w.delivered.length + w.shared.capacity.val
  once : w.delivered.Subperm w.accepted
  accounts : w.accepted.Perm (w.delivered ++ w.residents ++ w.inHands)

theorem Custody.handsOver {w : QueueWorld α t} (h : w.Custody) (hearly : w.Early) :
    w.HandsOver where
  free := fun _ => h.free.mem_unclaimed_iff hearly.1
  allocated := fun _ => h.allocated.mem_unclaimed_iff hearly.2
  places := by
    have hheld := gather_held_perm w.threads
    have hplaces := h.places
    rw [emptySlots, filledSlots] at hplaces
    rw [List.perm_iff_count] at hheld hplaces ⊢
    intro index
    have hheld := hheld index
    have hplaces := hplaces index
    simp only [List.count_append] at hheld hplaces ⊢
    omega
  exclusive := by
    intro i j index hi hj
    refine eq_of_nodup_gather ?_ hi hj
    have hnodup := h.nodup
    rw [emptySlots, filledSlots] at hnodup
    refine (gather_held_perm w.threads).nodup_iff.2 (hnodup.sublist ?_)
    exact (List.sublist_append_right ..).append (List.sublist_append_right ..)
  accesses := by
    intro i index hi
    cases hat : w.threads.get i with
    | idle hand =>
      rw [hat] at hi
      cases hi
    | busy hand call location =>
      rw [hat] at hi
      cases location <;> first | exact hi | cases hi
  read := by
    intro i call index hat
    exact (h.filled index).2 (List.mem_append_right _ (mem_gather_iff.2 ⟨i, by rw [hat]; rfl⟩))
  written := by
    intro i call v index hat
    exact h.valueAt_eq_none (List.mem_append_right _ (mem_gather_iff.2 ⟨i, by rw [hat]; rfl⟩))
  undelivered := by
    have hlen := h.places.length_eq
    have hfull := List.length_filterMap_le w.shared.valueAt w.filledSlots
    rw [List.length_append, List.length_range] at hlen
    rw [h.accounts.length_eq, List.length_append]
    omega
  once := (List.sublist_append_left _ _).subperm.trans h.accounts.symm.subperm
  accounts := by
    have haccounts := h.accounts
    rw [filledSlots, List.filterMap_append, ← List.append_assoc] at haccounts
    exact haccounts

end World

/-- Whatever threads do with a new queue, and in whatever order their accesses fall, as long as no
cursor has passed `2 ^ 61`: no access meets a fault, and the slots are handed over. -/
theorem handsOver_of_run {c : Capacity} {q : Queue α} (hq : q.MadeFor c) (patience t : Nat)
    (actions : List (Action (Transfer α) t))
    (hearly : (World.start q () t).Throughout (queueMachine α patience) World.Early actions) :
    ∃ w, (World.start q () t).run (queueMachine α patience) actions = .ok w ∧
      w.shared.capacity = c ∧ w.HandsOver := by
  obtain ⟨rfl, spare, howned⟩ := hq.owned
  obtain ⟨hfree, hallocated⟩ := hearly.now
  obtain ⟨w, hrun, hw, hcapacity⟩ := (World.Custody.start howned hfree hallocated).run hearly
  exact ⟨w, hrun, hcapacity, hw.handsOver (hearly.last hrun)⟩

/-- Three threads at a queue of one value: the first appends a value, with an exchange that fails
for no reason, the second has moved the value out of its slot, and the third looks for a slot. -/
def shortSchedule : List (Action (Transfer Nat) 3) :=
  List.flatten [
    .call 0 (.tryEnqueue 7) :: List.replicate 7 (.step 0 false),
    .step 0 true :: List.replicate 3 (.step 0 false),
    .call 1 .dequeue :: List.replicate 5 (.step 1 false),
    .call 2 (.tryEnqueue 8) :: List.replicate 2 (.step 2 false)]

theorem handsOver_of_run_shortSchedule :
    ∃ q : Queue Nat, q.MadeFor ⟨1, by decide, by decide⟩ ∧
      (World.start q () 3).Throughout (queueMachine Nat 1) World.Early shortSchedule ∧
      ∃ w, (World.start q () 3).run (queueMachine Nat 1) shortSchedule = .ok w ∧
        w.accepted = [7] ∧ w.delivered = [7] ∧ w.HandsOver := by
  have hmade : (Queue.cold ⟨1, by decide, by decide⟩ : Queue Nat).MadeFor
      ⟨1, by decide, by decide⟩ := Queue.madeFor_cold _
  have hearly : (World.start (Queue.cold ⟨1, by decide, by decide⟩) () 3).Throughout
      (queueMachine Nat 1) World.Early shortSchedule := by decide
  obtain ⟨w, hrun, -, hw⟩ := handsOver_of_run hmade 1 3 shortSchedule hearly
  have hend : (((World.start (Queue.cold ⟨1, by decide, by decide⟩ : Queue Nat) () 3).run
      (queueMachine Nat 1) shortSchedule).toOption.map fun w => (w.accepted, w.delivered)) =
        some ([7], [7]) := by decide
  rw [hrun] at hend
  obtain ⟨haccepted, hdelivered⟩ := Prod.mk.inj (Option.some.inj hend)
  exact ⟨_, hmade, hearly, w, hrun, haccepted, hdelivered, hw⟩

end CircularQueue.Interleaving
