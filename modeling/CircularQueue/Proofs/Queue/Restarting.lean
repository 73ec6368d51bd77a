import CircularQueue.Proofs.Queue.Showing

/-!
# A queue that starts over

Clearing a queue and changing its capacity leave nothing of its past. A drain takes all values, so
that every slot is vacant, and the rings are written anew, in their own cells or in others. What is
left after any run is then the very queue that would have been made for that capacity, and every
later run is one on a new queue. A capacity that is refused changes nothing.
-/

namespace CircularQueue.Queue

variable {α : Type}

/-- The queue is a new one of the requested capacity, in every word of its rings and in every slot,
and each list of requests is answered and shows the same on both. -/
def LikeNew (q : Queue α) (requested : Nat) : Prop :=
  ∃ outcome fresh, newCold requested = .ok (outcome, fresh) ∧ q = fresh ∧
    ∀ requests, ∃ shown, q.showing requests = .ok shown ∧ fresh.showing requests = .ok shown

theorem likeNew_cold (c : Capacity) : (cold c : Queue α).LikeNew c.val := by
  refine ⟨_, cold c, by rw [newCold, tryCold_val]; rfl, rfl, fun requests => ?_⟩
  obtain ⟨shown, hshown, -⟩ := (madeFor_cold c).exists_showing requests
  exact ⟨shown, hshown, hshown⟩

theorem Keeps.likeNew_clear {q : Queue α} {s : BoundedList α} (h : q.Keeps s) :
    ∃ outcome q', q.clear = .ok (outcome, q') ∧ q'.LikeNew q.capacity.val :=
  ⟨_, _, h.clear, h.1 ▸ likeNew_cold s.capacity⟩

theorem Keeps.likeNew_setCapacity {q : Queue α} {s : BoundedList α} (h : q.Keeps s)
    (c : Capacity) :
    ∃ outcome q', q.setCapacity c.val = .ok (outcome, q') ∧ outcome.answer = .ok () ∧
      q'.LikeNew c.val :=
  ⟨_, _, h.setCapacity_ok c.ofNat?_val, rfl, likeNew_cold c⟩

/-- After any run of a queue, clearing it leaves a new queue of its capacity, and changing its
capacity leaves a new queue of the capacity asked for, whether that is another one or not. Only a
capacity out of bounds is refused, and the queue is then left as it was. -/
theorem likeNew_of_restart {c : Capacity} {q : Queue α} (h : q.MadeFor c)
    (requests : List (Request α)) :
    ∃ outcomes q', q.serveAll requests = .ok (outcomes, q') ∧
      (∃ outcome q'', q'.clear = .ok (outcome, q'') ∧ q''.LikeNew q'.capacity.val) ∧
      (∀ requested, 1 ≤ requested → requested ≤ 2 ^ 30 →
        ∃ outcome q'', q'.setCapacity requested = .ok (outcome, q'') ∧ outcome.answer = .ok () ∧
          q''.LikeNew requested) ∧
      q'.setCapacity 0 = .ok (.quiet (.error .zero), q') ∧
      ∀ requested, 2 ^ 30 < requested →
        q'.setCapacity requested = .ok (.quiet (.error (.tooLarge requested (2 ^ 30))), q') := by
  have hmax : maxCapacity = 2 ^ 30 := rfl
  obtain ⟨outcomes, q', hrun, -, h'⟩ := h.keeps.serveAll requests
  refine ⟨outcomes, q', hrun, h'.likeNew_clear, ?_, Keeps.setCapacity_error rfl, ?_⟩
  · intro requested hpos hle
    exact h'.likeNew_setCapacity ⟨requested, hpos, hle⟩
  · intro requested hlt
    refine Keeps.setCapacity_error ?_
    rw [Capacity.ofNat?, dif_pos (by omega), dif_neg (by omega), hmax]

theorem likeNew_of_restart_fewRequests :
    ∃ q : Queue Nat, q.MadeFor ⟨3, by decide, by decide⟩ ∧
      ∃ outcomes q', q.serveAll fewRequests = .ok (outcomes, q') ∧
        (∃ outcome q'', q'.clear = .ok (outcome, q'') ∧ q''.LikeNew q'.capacity.val) ∧
        (∃ outcome q'', q'.setCapacity 5 = .ok (outcome, q'') ∧ outcome.answer = .ok () ∧
          q''.LikeNew 5) ∧
        q'.setCapacity (2 ^ 30 + 1) =
          .ok (.quiet (.error (.tooLarge (2 ^ 30 + 1) (2 ^ 30))), q') := by
  have hmade : (cold ⟨3, by decide, by decide⟩ : Queue Nat).MadeFor ⟨3, by decide, by decide⟩ :=
    madeFor_cold _
  obtain ⟨outcomes, q', hrun, hclear, hresize, -, hlarge⟩ := likeNew_of_restart hmade fewRequests
  exact ⟨_, hmade, outcomes, q', hrun, hclear, hresize 5 (by decide) (by decide),
    hlarge _ (by decide)⟩

end CircularQueue.Queue
