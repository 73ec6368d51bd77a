import CircularQueue.Interleaving.QueueThreads
import CircularQueue.Proofs.Interleaving.Acts
import CircularQueue.Proofs.Interleaving.Line
import CircularQueue.Proofs.Queue.Ownership

/-!
# What threads of a queue have

A thread in a call on a queue in slots works on one of the two rings, or on a slot. In between it
has a slot number of its own: from its reading of the cell in which it found the number to the
exchange by which it publishes it. On the way the slot is filled or emptied, so the number is one of
an empty slot or one of a filled slot. The value of a slot that has been filled is on its way into
the queue until the call returns, and the value of a slot that has been emptied is on its way out.

A `Move` is what an action does to the world, for each place in a call.
-/

namespace CircularQueue.Interleaving

variable {α β : Type} {t : Nat}

/-- A thread that makes calls on a queue in slots. -/
abbrev QueueThread (α : Type) := Thread Unit (Transfer α) (QueueLocation α)

/-- Threads that share a queue in slots. -/
abbrev QueueWorld (α : Type) (t : Nat) :=
  World (Queue α) Unit (Transfer α) (QueueLocation α) (Receipt α) t

namespace Thread

/-- Where the thread is posted at the free ring. -/
def freePost? : QueueThread α → Option RingLocation
  | .busy _ _ (.claimFree _ location) => some (.taking false location)
  | .busy _ _ (.giveBack _ index location) => some (.publishing index false location)
  | _ => none

/-- Where the thread is posted at the allocated ring. -/
def allocatedPost? : QueueThread α → Option RingLocation
  | .busy _ _ (.claimValue location) => some (.taking false location)
  | .busy _ _ (.announce index location) => some (.publishing index false location)
  | _ => none

/-- The number of an empty slot that the thread has. -/
def spare? : QueueThread α → Option Nat
  | .busy _ _ (.claimFree _ location) => location.claimed?
  | .busy _ _ (.storeValue _ index) => some index
  | .busy _ _ (.giveBack _ index location) => location.held? index
  | _ => none

/-- The number of a filled slot that the thread has. -/
def laden? : QueueThread α → Option Nat
  | .busy _ _ (.announce index location) => location.held? index
  | .busy _ _ (.claimValue location) => location.claimed?
  | .busy _ _ (.loadValue index) => some index
  | _ => none

/-- The number of a slot that the thread has. -/
def held? (thread : QueueThread α) : Option Nat := thread.spare?.or thread.laden?

/-- The number of the slot that the thread is about to read or write. -/
def accessing? : QueueThread α → Option Nat
  | .busy _ _ (.storeValue _ index) | .busy _ _ (.loadValue index) => some index
  | _ => none

/-- The value that the thread has written to a slot in a call that has not returned. -/
def accepting? : QueueThread α → Option α
  | .busy _ (.tryEnqueue v) (.announce ..) => some v
  | _ => none

/-- The value that the thread has moved out of a slot in a call that has not returned. -/
def delivering? : QueueThread α → Option α
  | .busy _ _ (.giveBack v _ _) => some v
  | _ => none

end Thread

namespace Completed

/-- The value that the call has put into the queue. -/
def admitted? : Completed (Transfer α) (Receipt α) t → Option α
  | ⟨_, .tryEnqueue v, .admitted⟩ => some v
  | _ => none

/-- The value that the call has taken out of the queue. -/
def removed? : Completed (Transfer α) (Receipt α) t → Option α
  | ⟨_, _, .removed v⟩ => v
  | _ => none

end Completed

/-! ## What all threads have -/

section Gather

variable {η κ γ : Type} {threads : Vector (Thread η κ γ) t} {i : Fin t} {x : Thread η κ γ}

/-- What the threads have, thread by thread. -/
def gather (threads : Vector (Thread η κ γ) t) (f : Thread η κ γ → Option β) : List β :=
  (List.finRange t).filterMap fun i => f (threads.get i)

theorem comp_get_set (f : Thread η κ γ → β) :
    (fun j => f ((threads.set i x i.isLt).get j)) =
      Function.update (fun j => f (threads.get j)) i (f x) := by
  rw [get_set]
  exact Function.comp_update f threads.get i x

theorem gather_set_perm (threads : Vector (Thread η κ γ) t) (i : Fin t) (x : Thread η κ γ)
    (f : Thread η κ γ → Option β) :
    ((f (threads.get i)).toList ++ gather (threads.set i x i.isLt) f).Perm
      ((f x).toList ++ gather threads f) := by
  have hperm : ((f (threads.get i)).toList ++ gather (threads.set i x i.isLt) f).Perm
      ((f ((threads.set i x i.isLt).get i)).toList ++ gather threads f) := by
    refine perm_filterMap_finRange (f := fun j => f (threads.get j))
      (g := fun j => f ((threads.set i x i.isLt).get j)) i fun j hj => ?_
    rw [get_set, Function.update_of_ne hj]
  rwa [get_set, Function.update_self] at hperm

theorem gather_set_of_some {f : Thread η κ γ → Option β} {b : β}
    (hbefore : f (threads.get i) = some b) (hafter : f x = none) :
    (b :: gather (threads.set i x i.isLt) f).Perm (gather threads f) := by
  have hperm := gather_set_perm threads i x f
  rwa [hbefore, hafter] at hperm

theorem gather_set_of_none {f : Thread η κ γ → Option β} {b : β}
    (hbefore : f (threads.get i) = none) (hafter : f x = some b) :
    (gather (threads.set i x i.isLt) f).Perm (b :: gather threads f) := by
  have hperm := gather_set_perm threads i x f
  rwa [hbefore, hafter] at hperm

theorem gather_set_of_eq {f : Thread η κ γ → Option β} (h : f x = f (threads.get i)) :
    gather (threads.set i x i.isLt) f = gather threads f := by
  rw [gather, comp_get_set, h, Function.update_eq_self]
  rfl

theorem gather_eq_nil {f : Thread η κ γ → Option β} (h : ∀ i, f (threads.get i) = none) :
    gather threads f = [] :=
  List.filterMap_eq_nil_iff.2 fun i _ => h i

theorem mem_gather_iff {f : Thread η κ γ → Option β} {b : β} :
    b ∈ gather threads f ↔ ∃ i, f (threads.get i) = some b := by
  simp [gather]

theorem eq_of_nodup_gather {f : Thread η κ γ → Option β} (h : (gather threads f).Nodup)
    {i j : Fin t} {b : β} (hi : f (threads.get i) = some b) (hj : f (threads.get j) = some b) :
    i = j := by
  by_contra hne
  have hperm := (List.perm_cons_erase (List.mem_finRange i)).filterMap fun i => f (threads.get i)
  simp only [List.filterMap_cons, hi] at hperm
  refine (List.nodup_cons.1 (hperm.nodup_iff.1 h)).1 (List.mem_filterMap.2 ⟨j, ?_, hj⟩)
  exact (List.nodup_finRange t).mem_erase_iff.2 ⟨fun heq => hne heq.symm, List.mem_finRange j⟩

end Gather

/-- Two lists over the same elements, each of which has an entry in one of them at most. -/
theorem perm_filterMap_or {ι : Type} {f g : ι → Option β} (h : ∀ a, f a = none ∨ g a = none)
    (l : List ι) :
    (l.filterMap fun a => (f a).or (g a)).Perm (l.filterMap f ++ l.filterMap g) := by
  induction l with
  | nil => exact List.Perm.refl _
  | cons a l ih =>
    simp only [List.filterMap_cons]
    cases hf : f a with
    | none =>
      cases hg : g a with
      | none => exact ih
      | some b => exact (ih.cons b).trans List.perm_middle.symm
    | some b =>
      rw [(h a).resolve_left (by simp [hf])]
      exact ih.cons b

theorem gather_held_perm (threads : Vector (QueueThread α) t) :
    (gather threads Thread.held?).Perm
      (gather threads Thread.spare? ++ gather threads Thread.laden?) := by
  refine perm_filterMap_or (fun i => ?_) (List.finRange t)
  rcases threads.get i with _ | ⟨_, _, location⟩
  · exact .inl rfl
  · cases location <;> first | exact .inl rfl | exact .inr rfl

namespace World

/-- The posts of the threads at the free ring. -/
def freePosts (w : QueueWorld α t) : Fin t → Option RingLocation :=
  fun i => (w.threads.get i).freePost?

/-- The posts of the threads at the allocated ring. -/
def allocatedPosts (w : QueueWorld α t) : Fin t → Option RingLocation :=
  fun i => (w.threads.get i).allocatedPost?

theorem freePosts_of_idle {w : QueueWorld α t} (h : ∀ i, w.threads.get i = .idle ()) :
    w.freePosts = fun _ => none :=
  funext fun i => congrArg Thread.freePost? (h i)

theorem allocatedPosts_of_idle {w : QueueWorld α t} (h : ∀ i, w.threads.get i = .idle ()) :
    w.allocatedPosts = fun _ => none :=
  funext fun i => congrArg Thread.allocatedPost? (h i)

/-- The numbers of the empty slots, free or with a thread. -/
def emptySlots (w : QueueWorld α t) : List Nat :=
  w.shared.free.unclaimed w.freePosts ++ gather w.threads Thread.spare?

/-- The numbers of the filled slots, allocated or with a thread. -/
def filledSlots (w : QueueWorld α t) : List Nat :=
  w.shared.allocated.unclaimed w.allocatedPosts ++ gather w.threads Thread.laden?

/-- The values that have been put into the queue: by calls that have returned, oldest first, and by
calls that have written a slot and have not returned. -/
def accepted (w : QueueWorld α t) : List α :=
  (w.history.filterMap Completed.admitted?).reverse ++ gather w.threads Thread.accepting?

/-- The values that have been taken out of the queue: by calls that have returned, oldest first, and
by calls that have emptied a slot and have not returned. A slot may be filled again before the call
that has emptied it returns. -/
def delivered (w : QueueWorld α t) : List α :=
  (w.history.filterMap Completed.removed?).reverse ++ gather w.threads Thread.delivering?

end World

/-! ## Moves -/

/-- Where a call on a queue begins. -/
def Transfer.opening : Transfer α → QueueLocation α
  | .tryEnqueue v => .claimFree v .readThreshold
  | .dequeue => .claimValue .readThreshold

namespace QueueLocation

/-- A place that the call can come to. -/
def Follows : QueueLocation α → Transfer α → Prop
  | .claimFree v _, call | .storeValue v _, call => call = .tryEnqueue v
  | .announce _ _, call => ∃ v, call = .tryEnqueue v
  | .claimValue _, call | .loadValue _, call | .giveBack _ _ _, call => call = .dequeue

/-- Where a call goes after an access to the free ring in search of a slot. -/
def afterClaimFree (v : α) : Next Consumer (Option Nat) → Next (QueueLocation α) (Receipt α × Unit)
  | .goto location => .goto (.claimFree v location)
  | .answer (some index) => .goto (.storeValue v index)
  | .answer none => .answer (.refused ⟨v⟩, ())

def afterAnnounce (index : Nat) : Next Producer Unit → Next (QueueLocation α) (Receipt α × Unit)
  | .goto location => .goto (.announce index location)
  | .answer _ => .answer (.admitted, ())

def afterClaimValue : Next Consumer (Option Nat) → Next (QueueLocation α) (Receipt α × Unit)
  | .goto location => .goto (.claimValue location)
  | .answer (some index) => .goto (.loadValue index)
  | .answer none => .answer (.removed none, ())

def afterGiveBack (v : α) (index : Nat) :
    Next Producer Unit → Next (QueueLocation α) (Receipt α × Unit)
  | .goto location => .goto (.giveBack v index location)
  | .answer _ => .answer (.removed (some v), ())

end QueueLocation

namespace World

open QueueLocation

/-- The world after a step of the thread `i` in a call, with the queue as it is then. -/
def advance (w : QueueWorld α t) (q : Queue α) (i : Fin t) (call : Transfer α)
    (next : Next (QueueLocation α) (Receipt α × Unit)) : QueueWorld α t where
  shared := q
  threads := w.threads.set i (Thread.after () call next) i.isLt
  history := Completed.after i call next ++ w.history

theorem moved_eq_advance (w : QueueWorld α t) (q : Queue α) (i : Fin t) (call : Transfer α)
    (next : Next (QueueLocation α) (Receipt α × Unit)) :
    (moved q w.threads w.history i () call next).1 = w.advance q i call next := by
  rcases next with location | ⟨answer, hand⟩ <;> rfl

/-- What one action does to the world. -/
inductive Move (patience : Nat) (w : QueueWorld α t) : QueueWorld α t → Prop
  | still : Move patience w w
  | start {i : Fin t} (hat : w.threads.get i = .idle ()) (call : Transfer α) :
      Move patience w (w.advance w.shared i call (.goto call.opening))
  | claimFree {i : Fin t} {call : Transfer α} {v : α} {location : Consumer} {spurious : Bool}
      {free : Ring w.shared.capacity.order} {next : Next Consumer (Option Nat)}
      (hat : w.threads.get i = .busy () call (.claimFree v location))
      (hstep : location.step patience false w.shared.free spurious = (free, next)) :
      Move patience w (w.advance { w.shared with free } i call (afterClaimFree v next))
  | storeValue {i : Fin t} {call : Transfer α} {v : α} {index : Nat}
      {slots : Vector (Option α) w.shared.capacity.val}
      (hat : w.threads.get i = .busy () call (.storeValue v index))
      (hstore : Queue.store w.shared.slots index v = .ok slots) :
      Move patience w
        (w.advance { w.shared with slots } i call (.goto (.announce index .reserve)))
  | announce {i : Fin t} {call : Transfer α} {index : Nat} {location : Producer} {spurious : Bool}
      {allocated : Ring w.shared.capacity.order} {next : Next Producer Unit}
      (hat : w.threads.get i = .busy () call (.announce index location))
      (hstep : location.step index false w.shared.allocated spurious = (allocated, next)) :
      Move patience w (w.advance { w.shared with allocated } i call (afterAnnounce index next))
  | claimValue {i : Fin t} {call : Transfer α} {location : Consumer} {spurious : Bool}
      {allocated : Ring w.shared.capacity.order} {next : Next Consumer (Option Nat)}
      (hat : w.threads.get i = .busy () call (.claimValue location))
      (hstep : location.step patience false w.shared.allocated spurious = (allocated, next)) :
      Move patience w (w.advance { w.shared with allocated } i call (afterClaimValue next))
  | loadValue {i : Fin t} {call : Transfer α} {v : α} {index : Nat}
      {slots : Vector (Option α) w.shared.capacity.val}
      (hat : w.threads.get i = .busy () call (.loadValue index))
      (hload : Queue.load w.shared.slots index = .ok (v, slots)) :
      Move patience w
        (w.advance { w.shared with slots } i call (.goto (.giveBack v index .reserve)))
  | giveBack {i : Fin t} {call : Transfer α} {v : α} {index : Nat} {location : Producer}
      {spurious : Bool} {free : Ring w.shared.capacity.order} {next : Next Producer Unit}
      (hat : w.threads.get i = .busy () call (.giveBack v index location))
      (hstep : location.step index false w.shared.free spurious = (free, next)) :
      Move patience w (w.advance { w.shared with free } i call (afterGiveBack v index next))

/-! Every action is a move, if no slot is written that is filled and none read that is empty. -/

variable {patience : Nat} {w : QueueWorld α t} {i : Fin t} {call : Transfer α} {spurious : Bool}

theorem act_step_of_ok {location : QueueLocation α} {q : Queue α}
    {next : Next (QueueLocation α) (Receipt α × Unit)}
    (hat : w.threads.get i = .busy () call location)
    (hstep : stepQueue patience w.shared location spurious = .ok (q, next)) :
    ∃ completed, w.act (queueMachine α patience) (.step i spurious) =
      .ok (w.advance q i call next, completed) := by
  refine ⟨(moved q w.threads w.history i () call next).2, ?_⟩
  rw [← moved_eq_advance]
  simp only [act, hat, queueMachine, hstep]

theorem stepQueue_claimFree (q : Queue α) (v : α) (location : Consumer) :
    stepQueue patience q (.claimFree v location) spurious =
      .ok ({ q with free := (location.step patience false q.free spurious).1 },
        afterClaimFree v (location.step patience false q.free spurious).2) := by
  rcases hstep : location.step patience false q.free spurious with ⟨free, _ | _ | _⟩ <;>
    simp only [stepQueue, hstep, afterClaimFree]

theorem stepQueue_announce (q : Queue α) (index : Nat) (location : Producer) :
    stepQueue patience q (.announce index location) spurious =
      .ok ({ q with allocated := (location.step index false q.allocated spurious).1 },
        afterAnnounce index (location.step index false q.allocated spurious).2) := by
  rcases hstep : location.step index false q.allocated spurious with ⟨allocated, _ | _⟩ <;>
    simp only [stepQueue, hstep, afterAnnounce]

theorem stepQueue_claimValue (q : Queue α) (location : Consumer) :
    stepQueue patience q (.claimValue location) spurious =
      .ok ({ q with allocated := (location.step patience false q.allocated spurious).1 },
        afterClaimValue (location.step patience false q.allocated spurious).2) := by
  rcases hstep : location.step patience false q.allocated spurious with ⟨allocated, _ | _ | _⟩ <;>
    simp only [stepQueue, hstep, afterClaimValue]

theorem stepQueue_giveBack (q : Queue α) (v : α) (index : Nat) (location : Producer) :
    stepQueue patience q (.giveBack v index location) spurious =
      .ok ({ q with free := (location.step index false q.free spurious).1 },
        afterGiveBack v index (location.step index false q.free spurious).2) := by
  rcases hstep : location.step index false q.free spurious with ⟨free, _ | _⟩ <;>
    simp only [stepQueue, hstep, afterGiveBack]

theorem exists_move
    (hstore : ∀ i call v index, w.threads.get i = .busy () call (.storeValue v index) →
      index < w.shared.capacity.val ∧ w.shared.valueAt index = none)
    (hload : ∀ i call index, w.threads.get i = .busy () call (.loadValue index) →
      index < w.shared.capacity.val ∧ (w.shared.valueAt index).isSome)
    (action : Action (Transfer α) t) :
    ∃ w' completed, w.act (queueMachine α patience) action = .ok (w', completed) ∧
      w.Move patience w' := by
  cases action with
  | call i call =>
    rcases hat : w.threads.get i with ⟨⟨⟩⟩ | _
    · have hstart : (queueMachine α patience).start () call = some (.goto call.opening) := by
        cases call <;> rfl
      exact ⟨_, none, by simp only [act, hat, hstart]; rfl, .start hat call⟩
    · exact ⟨w, none, by simp only [act, hat], .still⟩
  | step i spurious =>
    rcases hat : w.threads.get i with _ | ⟨⟨⟩, call, location⟩
    · exact ⟨w, none, by simp only [act, hat], .still⟩
    · cases location with
      | claimFree v location =>
        obtain ⟨completed, hact⟩ := act_step_of_ok hat (stepQueue_claimFree _ v location)
        exact ⟨_, completed, hact, .claimFree hat rfl⟩
      | storeValue v index =>
        obtain ⟨hindex, hvacant⟩ := hstore i call v index hat
        obtain ⟨slots, hslots, -⟩ := Queue.store_eq hindex hvacant v
        have hstep : stepQueue patience w.shared (.storeValue v index) spurious =
            .ok ({ w.shared with slots }, .goto (.announce index .reserve)) := by
          have horder := Nat.lt_of_lt_of_le hindex w.shared.capacity.val_le_capacity_order
          simp only [stepQueue, hslots, bind, Except.bind, if_pos horder]
          rfl
        obtain ⟨completed, hact⟩ := act_step_of_ok hat hstep
        exact ⟨_, completed, hact, .storeValue hat hslots⟩
      | announce index location =>
        obtain ⟨completed, hact⟩ := act_step_of_ok hat (stepQueue_announce _ index location)
        exact ⟨_, completed, hact, .announce hat rfl⟩
      | claimValue location =>
        obtain ⟨completed, hact⟩ := act_step_of_ok hat (stepQueue_claimValue _ location)
        exact ⟨_, completed, hact, .claimValue hat rfl⟩
      | loadValue index =>
        obtain ⟨hindex, hfilled⟩ := hload i call index hat
        obtain ⟨v, hvalue⟩ := Option.isSome_iff_exists.1 hfilled
        obtain ⟨slots, hslots, -⟩ := Queue.load_eq hvalue
        have hstep : stepQueue patience w.shared (.loadValue index) spurious =
            .ok ({ w.shared with slots }, .goto (.giveBack v index .reserve)) := by
          have horder := Nat.lt_of_lt_of_le hindex w.shared.capacity.val_le_capacity_order
          simp only [stepQueue, hslots, bind, Except.bind, if_pos horder]
          rfl
        obtain ⟨completed, hact⟩ := act_step_of_ok hat hstep
        exact ⟨_, completed, hact, .loadValue hat hslots⟩
      | giveBack v index location =>
        obtain ⟨completed, hact⟩ := act_step_of_ok hat (stepQueue_giveBack _ v index location)
        exact ⟨_, completed, hact, .giveBack hat rfl⟩

end World

end CircularQueue.Interleaving
