import CircularQueue.Proofs.Interleaving.HandOff

/-!
# One producer and one consumer

With one thread that appends and one that removes, the numbers of the filled slots stand in a line:
the one that the consumer has, the one where it is looking, those in the ring from its head on, and
the one that the producer has. A slot that is filled comes to the end of the line, a slot that is
emptied leaves at its front, and no access to a ring changes the line, for the producer publishes
after all that is live. So the values come out as they went in, whatever cells the consumer closes
before the producer comes to them.
-/

namespace CircularQueue.Interleaving

variable {α β : Type} {t : Nat}

/-- The thread 0 appends values and the thread 1 removes them. -/
def Transfer.Fits (call : Transfer α) (i : Fin 2) : Prop :=
  match call with
  | .tryEnqueue _ => i = 0
  | .dequeue => i = 1

instance (call : Transfer α) (i : Fin 2) : Decidable (call.Fits i) := by
  cases call <;> exact inferInstanceAs (Decidable (i = _))

/-- The action starts no call that is the other thread's. -/
def Action.Fits : Action (Transfer α) 2 → Prop
  | .call i transfer => transfer.Fits i
  | .step .. => True

instance (action : Action (Transfer α) 2) : Decidable action.Fits := by
  cases action <;> unfold Action.Fits <;> infer_instance

/-- What two threads have. -/
theorem gather_two {η κ γ : Type} (threads : Vector (Thread η κ γ) 2)
    (f : Thread η κ γ → Option β) :
    gather threads f = (f (threads.get 0)).toList ++ (f (threads.get 1)).toList := by
  have htwo : List.finRange 2 = [0, 1] := rfl
  rw [gather, htwo]
  cases h₀ : f (threads.get 0) <;> cases h₁ : f (threads.get 1) <;> simp [h₀, h₁]

namespace World

section

variable {w : QueueWorld α t} {i : Fin t} {call : Transfer α}
  {next : Next (QueueLocation α) (Receipt α × Unit)}
  {g : Completed (Transfer α) (Receipt α) t → Option β} {f : QueueThread α → Option β}

theorem get_advance_self (q : Queue α) :
    (w.advance q i call next).threads.get i = Thread.after () call next := by
  rw [advance, get_set, Function.update_self]

theorem get_advance_of_ne (q : Queue α) {j : Fin t} (hj : j ≠ i) :
    (w.advance q i call next).threads.get j = w.threads.get j := by
  rw [advance, get_set, Function.update_of_ne hj]

/-- A move by which nothing comes in or goes out. -/
theorem account_eq_self (hcompleted : (Completed.after i call next).filterMap g = [])
    (hthread : f (Thread.after () call next) = f (w.threads.get i)) (q : Queue α) :
    ((w.advance q i call next).history.filterMap g).reverse ++
        gather (w.advance q i call next).threads f =
      (w.history.filterMap g).reverse ++ gather w.threads f := by
  rw [advance, List.filterMap_append, hcompleted, gather_set_of_eq hthread]
  rfl

/-- A move by which something comes in or goes out at the only thread that has to do with it. -/
theorem account_eq_append (gained : List β)
    (h : (Completed.after i call next).filterMap g ++ (f (Thread.after () call next)).toList =
      (f (w.threads.get i)).toList ++ gained)
    (honly : ∀ j, j ≠ i → f (w.threads.get j) = none) (q : Queue α) :
    ((w.advance q i call next).history.filterMap g).reverse ++
        gather (w.advance q i call next).threads f =
      (w.history.filterMap g).reverse ++ gather w.threads f ++ gained := by
  have hreverse : ((Completed.after i call next).filterMap g).reverse =
      (Completed.after i call next).filterMap g := by
    rcases next with location | ⟨answer, hand⟩
    · rfl
    · cases hg : g ⟨i, call, answer⟩ <;> simp [Completed.after, hg]
  have honly' (j : Fin t) (hj : j ≠ i) : f ((w.advance q i call next).threads.get j) = none := by
    rw [get_advance_of_ne q hj]
    exact honly j hj
  rw [gather, gather, filterMap_finRange_of_only honly, filterMap_finRange_of_only honly',
    get_advance_self, List.append_assoc, ← h, advance, List.filterMap_append, List.reverse_append,
    hreverse, List.append_assoc]

end

/-- The filled slots in the order in which the consumer comes to them. -/
def line (w : QueueWorld α 2) : List Nat :=
  (w.threads.get 1).laden?.toList ++
    ((w.shared.allocated.watched (w.allocatedPosts 1)).toList ++ w.shared.allocated.live) ++
    (w.threads.get 0).laden?.toList

/-- What holds of a producer and a consumer between any two accesses. -/
structure InOrder (w : QueueWorld α 2) : Prop where
  custody : w.Custody
  fits : ∀ i call location, w.threads.get i = .busy () call location → call.Fits i
  front : ∀ index nonempty location,
    w.allocatedPosts 0 = some (.publishing index nonempty location) →
      w.shared.allocated.InFront location
  order : w.accepted = w.delivered ++ w.line.filterMap w.shared.valueAt

/-- An action that fits leaves the threads at their own calls. -/
theorem fits_of_act {patience : Nat} {w w' : QueueWorld α 2} {action : Action (Transfer α) 2}
    {completed : Option (Completed (Transfer α) (Receipt α) 2)}
    (h : ∀ i call location, w.threads.get i = .busy () call location → call.Fits i)
    (hfits : action.Fits) (hact : w.act (queueMachine α patience) action = .ok (w', completed)) :
    ∀ i call location, w'.threads.get i = .busy () call location → call.Fits i := by
  have hmoved (q : Queue α) (i : Fin 2) (call : Transfer α) (hcall : call.Fits i)
      (next : Next (QueueLocation α) (Receipt α × Unit)) (j : Fin 2) (call' : Transfer α)
      (location : QueueLocation α)
      (hat : (moved q w.threads w.history i () call next).1.threads.get j =
        .busy () call' location) : call'.Fits j := by
    rw [moved_eq_advance] at hat
    by_cases hj : j = i
    · rw [hj, get_advance_self] at hat
      rcases next with location' | ⟨answer, hand⟩ <;> cases hat
      exact hj ▸ hcall
    · rw [get_advance_of_ne q hj] at hat
      exact h j call' location hat
  cases action with
  | call i call =>
    simp only [act] at hact
    split at hact
    · split at hact
      · rw [← (Prod.mk.inj (Except.ok.inj hact)).1]
        exact hmoved _ i call hfits _
      · cases hact
        exact h
    · cases hact
      exact h
  | step i spurious =>
    rcases hat : w.threads.get i with _ | ⟨⟨⟩, call, location⟩
    · simp only [act, hat] at hact
      cases hact
      exact h
    · simp only [act, hat] at hact
      split at hact
      · rw [← (Prod.mk.inj (Except.ok.inj hact)).1]
        exact hmoved _ i call (h i call location hat) _
      · cases hact

namespace InOrder

variable {w : QueueWorld α 2} {i : Fin 2} {call : Transfer α} {location : QueueLocation α}

theorem call_of_producer (h : w.InOrder) (hat : w.threads.get 0 = .busy () call location) :
    ∃ v, call = .tryEnqueue v := by
  cases call with
  | tryEnqueue v => exact ⟨v, rfl⟩
  | dequeue => exact absurd (h.fits 0 _ _ hat) (by simp [Transfer.Fits])

theorem call_of_consumer (h : w.InOrder) (hat : w.threads.get 1 = .busy () call location) :
    call = .dequeue := by
  cases call with
  | tryEnqueue v => exact absurd (h.fits 1 _ _ hat) (by simp [Transfer.Fits])
  | dequeue => rfl

/-- The consumer puts nothing in. -/
theorem accepting_eq_none (h : w.InOrder) {j : Fin 2} (hj : j ≠ 0) :
    (w.threads.get j).accepting? = none := by
  obtain rfl : j = 1 := by omega
  rcases hat : w.threads.get 1 with _ | ⟨⟨⟩, call, location⟩
  · rfl
  · rw [h.call_of_consumer hat]
    rfl

/-- The producer takes nothing out. -/
theorem delivering_eq_none (h : w.InOrder) {j : Fin 2} (hj : j ≠ 1) :
    (w.threads.get j).delivering? = none := by
  obtain rfl : j = 0 := by omega
  rcases hat : w.threads.get 0 with _ | ⟨⟨⟩, call, location⟩
  · rfl
  · obtain ⟨v, rfl⟩ := h.call_of_producer hat
    have hfollows := h.custody.follows 0 _ _ hat
    cases location <;> first | rfl | cases hfollows

/-- The producer has no cursor to take from. -/
theorem cursor_of_producer (h : w.InOrder) {j : Fin 2} (hj : j ≠ 1) :
    (w.allocatedPosts j).bind RingLocation.cursor? = none := by
  obtain rfl : j = 0 := by omega
  rw [allocatedPosts]
  rcases hat : w.threads.get 0 with _ | ⟨⟨⟩, call, location⟩
  · rfl
  · obtain ⟨v, rfl⟩ := h.call_of_producer hat
    have hfollows := h.custody.follows 0 _ _ hat
    cases location <;> first | rfl | cases hfollows

/-- The line holds the filled slots. -/
theorem line_perm (h : w.InOrder) : w.line.Perm w.filledSlots := by
  have hawaited : w.shared.allocated.awaited w.allocatedPosts =
      (w.shared.allocated.watched (w.allocatedPosts 1)).toList :=
    filterMap_finRange_of_only fun j hj => Ring.watched_eq_none (h.cursor_of_producer hj)
  rw [line, filledSlots, Ring.unclaimed, hawaited, gather_two, List.perm_iff_count]
  intro index
  simp only [List.count_append]
  omega

theorem not_mem_line (h : w.InOrder) {index : Nat} (hindex : index ∈ w.emptySlots) :
    index ∉ w.line :=
  fun hline => h.custody.not_mem_filledSlots hindex (h.line_perm.mem_iff.1 hline)

variable {next : Next (QueueLocation α) (Receipt α × Unit)}

theorem line_advance_producer (q : Queue α) : (w.advance q 0 call next).line =
    (w.threads.get 1).laden?.toList ++
      ((q.allocated.watched (w.allocatedPosts 1)).toList ++ q.allocated.live) ++
      (Thread.after () call next).laden?.toList := by
  have hpost : (w.advance q 0 call next).allocatedPosts 1 = w.allocatedPosts 1 := by
    rw [allocatedPosts, get_advance_of_ne q (by decide)]
    rfl
  rw [line, hpost, get_advance_self, get_advance_of_ne q (by decide)]
  rfl

theorem line_advance_consumer (q : Queue α) : (w.advance q 1 call next).line =
    (Thread.after () call next).laden?.toList ++
      ((q.allocated.watched (Thread.after () call next).allocatedPost?).toList ++
        q.allocated.live) ++
      (w.threads.get 0).laden?.toList := by
  have hpost : (w.advance q 1 call next).allocatedPosts 1 =
      (Thread.after () call next).allocatedPost? := by
    rw [allocatedPosts, get_advance_self]
  rw [line, hpost, get_advance_self, get_advance_of_ne q (by decide)]
  rfl

/-- The producer moves, and nothing changes in the line. -/
theorem order_of_producer (h : w.InOrder) {free allocated : Ring w.shared.capacity.order}
    (hline : (allocated.watched (w.allocatedPosts 1)).toList ++ allocated.live ++
        (Thread.after () call next).laden?.toList =
      (w.shared.allocated.watched (w.allocatedPosts 1)).toList ++ w.shared.allocated.live ++
        (w.threads.get 0).laden?.toList)
    (hadmitted : (Completed.after (0 : Fin 2) call next).filterMap Completed.admitted? ++
        (Thread.after () call next).accepting?.toList = (w.threads.get 0).accepting?.toList)
    (hremoved : (Completed.after (0 : Fin 2) call next).filterMap Completed.removed? = [])
    (hdelivering :
      (Thread.after () call next).delivering? = (w.threads.get 0).delivering?) :
    (w.advance { w.shared with free, allocated } 0 call next).accepted =
      (w.advance { w.shared with free, allocated } 0 call next).delivered ++
        (w.advance { w.shared with free, allocated } 0 call next).line.filterMap
          w.shared.valueAt := by
  have haccepted : (w.advance { w.shared with free, allocated } 0 call next).accepted =
      w.accepted ++ [] := account_eq_append [] (by rw [hadmitted, List.append_nil])
    (fun _ => h.accepting_eq_none) _
  have hdelivered : (w.advance { w.shared with free, allocated } 0 call next).delivered =
      w.delivered := account_eq_self hremoved hdelivering _
  have hsame : (w.advance { w.shared with free, allocated } 0 call next).line = w.line := by
    rw [line_advance_producer, line, List.append_assoc, hline, ← List.append_assoc]
  rw [haccepted, hdelivered, hsame, List.append_nil]
  exact h.order

/-- The consumer moves, and nothing changes in the line. -/
theorem order_of_consumer (h : w.InOrder) {free allocated : Ring w.shared.capacity.order}
    (hline : (Thread.after () call next).laden?.toList ++
        ((allocated.watched (Thread.after () call next).allocatedPost?).toList ++ allocated.live) =
      (w.threads.get 1).laden?.toList ++
        ((w.shared.allocated.watched (w.allocatedPosts 1)).toList ++ w.shared.allocated.live))
    (hadmitted : (Completed.after (1 : Fin 2) call next).filterMap Completed.admitted? = [])
    (haccepting : (Thread.after () call next).accepting? = (w.threads.get 1).accepting?)
    (hremoved : (Completed.after (1 : Fin 2) call next).filterMap Completed.removed? ++
        (Thread.after () call next).delivering?.toList = (w.threads.get 1).delivering?.toList) :
    (w.advance { w.shared with free, allocated } 1 call next).accepted =
      (w.advance { w.shared with free, allocated } 1 call next).delivered ++
        (w.advance { w.shared with free, allocated } 1 call next).line.filterMap
          w.shared.valueAt := by
  have haccepted : (w.advance { w.shared with free, allocated } 1 call next).accepted =
      w.accepted := account_eq_self hadmitted haccepting _
  have hdelivered : (w.advance { w.shared with free, allocated } 1 call next).delivered =
      w.delivered ++ [] := account_eq_append [] (by rw [hremoved, List.append_nil])
    (fun _ => h.delivering_eq_none) _
  have hsame : (w.advance { w.shared with free, allocated } 1 call next).line = w.line := by
    rw [line_advance_consumer, line, hline]
  rw [haccepted, hdelivered, hsame, List.append_nil]
  exact h.order

/-- The producer writes a slot, and its number comes to the end of the line. -/
theorem order_of_fill (h : w.InOrder) {v : α} {index : Nat}
    (hat : w.threads.get 0 = .busy () (.tryEnqueue v) (.storeValue v index))
    {slots : Vector (Option α) w.shared.capacity.val}
    (hslots : ∀ j, slots[j]?.join = if j = index then some v else w.shared.valueAt j) :
    (w.advance { w.shared with slots } 0 (.tryEnqueue v)
        (.goto (.announce index .reserve))).accepted =
      (w.advance { w.shared with slots } 0 (.tryEnqueue v)
          (.goto (.announce index .reserve))).delivered ++
        (w.advance { w.shared with slots } 0 (.tryEnqueue v)
          (.goto (.announce index .reserve))).line.filterMap fun j => slots[j]?.join := by
  have hmem : index ∈ w.emptySlots :=
    List.mem_append_right _ (mem_gather_iff.2 ⟨0, by rw [hat]; rfl⟩)
  set w' := w.advance { w.shared with slots } 0 (.tryEnqueue v)
    (.goto (.announce index .reserve)) with hw'
  have haccepted : w'.accepted = w.accepted ++ [v] := account_eq_append [v] (by rw [hat]; rfl)
    (fun _ => h.accepting_eq_none) _
  have hdelivered : w'.delivered = w.delivered := account_eq_self rfl (by rw [hat]; rfl) _
  have hline : w'.line = w.line ++ [index] := by
    have hladen : (w.threads.get 0).laden? = none := by rw [hat]; rfl
    rw [hw', line_advance_producer, line, hladen, Option.toList_none, List.append_nil]
    rfl
  have hrest : (w.line.filterMap fun j => slots[j]?.join) =
      w.line.filterMap w.shared.valueAt := by
    apply List.filterMap_congr
    intro j hj
    rw [hslots, if_neg fun heq : j = index => h.not_mem_line hmem (heq ▸ hj)]
  rw [haccepted, hdelivered, hline, List.filterMap_append, hrest, h.order, List.append_assoc]
  simp [hslots]

/-- The consumer empties a slot, and its number leaves at the front of the line. -/
theorem order_of_drain (h : w.InOrder) {v : α} {index : Nat}
    (hat : w.threads.get 1 = .busy () .dequeue (.loadValue index))
    {slots : Vector (Option α) w.shared.capacity.val} (hvalue : w.shared.valueAt index = some v)
    (hslots : ∀ j, slots[j]?.join = if j = index then none else w.shared.valueAt j) :
    (w.advance { w.shared with slots } 1 .dequeue (.goto (.giveBack v index .reserve))).accepted =
      (w.advance { w.shared with slots } 1 .dequeue
          (.goto (.giveBack v index .reserve))).delivered ++
        (w.advance { w.shared with slots } 1 .dequeue
          (.goto (.giveBack v index .reserve))).line.filterMap fun j => slots[j]?.join := by
  set w' := w.advance { w.shared with slots } 1 .dequeue (.goto (.giveBack v index .reserve))
    with hw'
  have haccepted : w'.accepted = w.accepted := account_eq_self rfl (by rw [hat]; rfl) _
  have hdelivered : w'.delivered = w.delivered ++ [v] := account_eq_append [v] (by rw [hat]; rfl)
    (fun _ => h.delivering_eq_none) _
  have hline : w.line = index :: w'.line := by
    have hladen : (w.threads.get 1).laden? = some index := by rw [hat]; rfl
    have hpost : w.allocatedPosts 1 = none := by rw [allocatedPosts, hat]; rfl
    rw [hw', line_advance_consumer, line, hladen, hpost]
    rfl
  have hgone : index ∉ w'.line := by
    have hnodup := h.line_perm.nodup_iff.2 (List.nodup_append.1 h.custody.nodup).2.1
    rw [hline] at hnodup
    exact (List.nodup_cons.1 hnodup).1
  have hrest : (w'.line.filterMap fun j => slots[j]?.join) =
      w'.line.filterMap w.shared.valueAt := by
    apply List.filterMap_congr
    intro j hj
    rw [hslots, if_neg fun heq : j = index => hgone (heq ▸ hj)]
  rw [haccepted, hdelivered, hrest, h.order, hline, List.filterMap_cons_some hvalue,
    List.append_assoc]
  rfl

/-- Order is kept by every move, as long as the threads keep to their calls. -/
theorem move (h : w.InOrder) (hearly : w.Early) {patience : Nat} {w' : QueueWorld α 2}
    (hmove : w.Move patience w')
    (hfits : ∀ i call location, w'.threads.get i = .busy () call location → call.Fits i) :
    w'.InOrder := by
  suffices hkeeps : (∀ index nonempty location,
      w'.allocatedPosts 0 = some (.publishing index nonempty location) →
        w'.shared.allocated.InFront location) ∧
      w'.accepted = w'.delivered ++ w'.line.filterMap w'.shared.valueAt from
    ⟨h.custody.move hearly hmove, hfits, hkeeps.1, hkeeps.2⟩
  obtain ⟨-, hallocatedEarly⟩ := hearly
  cases hmove with
  | still => exact ⟨h.front, h.order⟩
  | @start i hat call =>
    have hcall : call.Fits i := hfits i call call.opening (get_advance_self _)
    cases call with
    | tryEnqueue v =>
      obtain rfl : i = 0 := hcall
      refine ⟨?_, h.order_of_producer (by rw [hat]; rfl) (by rw [hat]; rfl) rfl (by rw [hat]; rfl)⟩
      intro index nonempty location hpost
      rw [allocatedPosts, get_advance_self] at hpost
      cases hpost
    | dequeue =>
      obtain rfl : i = 1 := hcall
      refine ⟨?_, h.order_of_consumer (by rw [allocatedPosts, hat]; rfl) rfl (by rw [hat]; rfl)
        (by rw [hat]; rfl)⟩
      intro index nonempty location hpost
      rw [allocatedPosts, get_advance_of_ne _ (by decide)] at hpost
      exact h.front index nonempty location hpost
  | @claimFree i call v location spurious free next hat hstep =>
    obtain rfl : call = .tryEnqueue v := h.custody.follows i call _ hat
    obtain rfl : i = 0 := h.fits i _ _ hat
    refine ⟨?_, ?_⟩
    · intro index nonempty location hpost
      rw [allocatedPosts, get_advance_self] at hpost
      rcases next with location' | _ | index' <;> cases hpost
    · rcases next with location' | _ | index <;>
        exact h.order_of_producer (by rw [hat]; rfl) (by rw [hat]; rfl) rfl (by rw [hat]; rfl)
  | @storeValue i call v index slots hat hstore =>
    obtain rfl : call = .tryEnqueue v := h.custody.follows i call _ hat
    obtain rfl : i = 0 := h.fits i _ _ hat
    refine ⟨?_, h.order_of_fill hat (h.custody.slots_of_store hat hstore).2⟩
    intro index' nonempty location hpost
    rw [allocatedPosts, get_advance_self] at hpost
    cases hpost
    rintro c ⟨⟩
  | @announce i call index location spurious allocated next hat hstep =>
    obtain ⟨v, rfl⟩ : ∃ v, call = .tryEnqueue v := h.custody.follows i call _ hat
    obtain rfl : i = 0 := h.fits i _ _ hat
    have hpost : w.allocatedPosts 0 = some (.publishing index false location) := by
      rw [allocatedPosts, hat]
      rfl
    have hfront := h.front index false location hpost
    have hline := h.custody.allocated.line_of_producer_step hallocatedEarly hpost hfront
      (fun j => h.cursor_of_producer) hstep
    have hladen : location.held? index = (w.threads.get 0).laden? := by
      rw [hat]
      rfl
    rw [hladen] at hline
    refine ⟨?_, ?_⟩
    · intro index' nonempty location' hpost'
      rw [allocatedPosts, get_advance_self] at hpost'
      rcases next with location'' | _ <;> cases hpost'
      exact h.custody.allocated.inFront_of_producer_step hallocatedEarly hpost hfront hstep
    · rcases next with location' | _ <;>
        exact h.order_of_producer hline (by rw [hat]; rfl) rfl (by rw [hat]; rfl)
  | @claimValue i call location spurious allocated next hat hstep =>
    obtain rfl : call = .dequeue := h.custody.follows i call _ hat
    obtain rfl : i = 1 := h.fits i _ _ hat
    have hpost : w.allocatedPosts 1 = some (.taking false location) := by
      rw [allocatedPosts, hat]
      rfl
    have hline := h.custody.allocated.line_of_move hallocatedEarly hpost
      (h.custody.allocated.move_of_step hallocatedEarly hpost hstep).1
    have hladen : location.claimed? = (w.threads.get 1).laden? := by
      rw [hat]
      rfl
    rw [hladen] at hline
    refine ⟨?_, ?_⟩
    · intro index nonempty location' hpost'
      rw [allocatedPosts, get_advance_of_ne _ (by decide)] at hpost'
      exact h.custody.allocated.inFront_of_consumer_step hallocatedEarly hpost hstep
        (h.front index nonempty location' hpost')
    · rcases next with location' | _ | index <;>
        exact h.order_of_consumer hline rfl (by rw [hat]; rfl) (by rw [hat]; rfl)
  | @loadValue i call v index slots hat hload =>
    obtain rfl : call = .dequeue := h.custody.follows i call _ hat
    obtain rfl : i = 1 := h.fits i _ _ hat
    obtain ⟨-, hvalue, hslots⟩ := h.custody.slots_of_load hat hload
    refine ⟨?_, h.order_of_drain hat hvalue hslots⟩
    intro index' nonempty location' hpost'
    rw [allocatedPosts, get_advance_of_ne _ (by decide)] at hpost'
    exact h.front index' nonempty location' hpost'
  | @giveBack i call v index location spurious free next hat hstep =>
    obtain rfl : call = .dequeue := h.custody.follows i call _ hat
    obtain rfl : i = 1 := h.fits i _ _ hat
    refine ⟨?_, ?_⟩
    · intro index' nonempty location' hpost'
      rw [allocatedPosts, get_advance_of_ne _ (by decide)] at hpost'
      exact h.front index' nonempty location' hpost'
    · rcases next with location' | _ <;>
        exact h.order_of_consumer (by rw [allocatedPosts, hat]; rfl) rfl (by rw [hat]; rfl)
          (by rw [hat]; rfl)

theorem start {q : Queue α} {spare : List Nat} (h : q.Owned spare [] []) (hfree : q.free.Early)
    (hallocated : q.allocated.Early) : (World.start q () 2 : QueueWorld α 2).InOrder where
  custody := .start h hfree hallocated
  fits := by
    intro i call location hat
    rw [get_start] at hat
    cases hat
  front := by
    intro index nonempty location hpost
    rw [allocatedPosts, get_start] at hpost
    cases hpost
  order := by
    have hlive : (World.start q () 2 : QueueWorld α 2).shared.allocated.live = [] :=
      h.allocated.live_eq
    rw [accepted, delivered, line, gather_start q rfl, gather_start q rfl, allocatedPosts,
      get_start, get_start, hlive]
    rfl

theorem run (h : w.InOrder) {patience : Nat} {actions : List (Action (Transfer α) 2)}
    (hfits : ∀ action ∈ actions, action.Fits)
    (hearly : w.Throughout (queueMachine α patience) Early actions) :
    ∃ w', w.run (queueMachine α patience) actions = .ok w' ∧ w'.InOrder := by
  induction actions generalizing w with
  | nil => exact ⟨w, rfl, h⟩
  | cons action actions ih =>
    obtain ⟨w₁, completed, hact, hmove⟩ := h.custody.exists_move patience action
    have hfirst := fits_of_act h.fits (hfits action List.mem_cons_self) hact
    obtain ⟨w₂, hrun, h₂⟩ := ih (h.move hearly.now hmove hfirst)
      (fun action haction => hfits action (List.mem_cons_of_mem _ haction)) (hearly.next hact)
    exact ⟨w₂, by rw [World.run, hact]; exact hrun, h₂⟩

end InOrder

end World

/-- One thread appends to a new queue and another removes from it, and their accesses fall in any
order. As long as no cursor has passed `2 ^ 61`, what the second has taken out is what the first has
put in, in the same order, up to some point. -/
theorem delivered_prefix_accepted {c : Capacity} {q : Queue α} (hq : q.MadeFor c) (patience : Nat)
    (actions : List (Action (Transfer α) 2)) (hfits : ∀ action ∈ actions, action.Fits)
    (hearly : (World.start q () 2).Throughout (queueMachine α patience) World.Early actions) :
    ∃ w, (World.start q () 2).run (queueMachine α patience) actions = .ok w ∧
      w.delivered <+: w.accepted := by
  obtain ⟨-, spare, howned⟩ := hq.owned
  obtain ⟨hfree, hallocated⟩ := hearly.now
  obtain ⟨w, hrun, hw⟩ := (World.InOrder.start howned hfree hallocated).run hfits hearly
  exact ⟨w, hrun, _, hw.order.symm⟩

/-- The consumer closes the cell that the producer has reserved for its second value, and the
producer publishes in the next. -/
def overtaken : List (Action (Transfer Nat) 2) :=
  List.flatten [
    .call 0 (.tryEnqueue 7) :: List.replicate 10 (.step 0 false),
    .call 1 .dequeue :: List.replicate 9 (.step 1 false),
    .call 0 (.tryEnqueue 8) :: List.replicate 6 (.step 0 false),
    .call 1 .dequeue :: List.replicate 5 (.step 1 false),
    List.replicate 4 (.step 0 false),
    List.replicate 4 (.step 1 false),
    .call 1 .dequeue :: List.replicate 5 (.step 1 false)]

theorem delivered_prefix_accepted_overtaken :
    ∃ q : Queue Nat, q.MadeFor ⟨2, by decide, by decide⟩ ∧
      (∀ action ∈ overtaken, action.Fits) ∧
      (World.start q () 2).Throughout (queueMachine Nat 0) World.Early overtaken ∧
      ∃ w, (World.start q () 2).run (queueMachine Nat 0) overtaken = .ok w ∧
        w.delivered = [7, 8] ∧ w.accepted = [7, 8] ∧ w.delivered <+: w.accepted := by
  have hmade : (Queue.cold ⟨2, by decide, by decide⟩ : Queue Nat).MadeFor
      ⟨2, by decide, by decide⟩ := Queue.madeFor_cold _
  have hfits : ∀ action ∈ overtaken, action.Fits := by decide
  have hearly : (World.start (Queue.cold ⟨2, by decide, by decide⟩) () 2).Throughout
      (queueMachine Nat 0) World.Early overtaken := by decide
  obtain ⟨w, hrun, hprefix⟩ := delivered_prefix_accepted hmade 0 overtaken hfits hearly
  have hend : (((World.start (Queue.cold ⟨2, by decide, by decide⟩ : Queue Nat) () 2).run
      (queueMachine Nat 0) overtaken).toOption.map fun w => (w.delivered, w.accepted)) =
        some ([7, 8], [7, 8]) := by decide
  rw [hrun] at hend
  obtain ⟨hdelivered, haccepted⟩ := Prod.mk.inj (Option.some.inj hend)
  exact ⟨_, hmade, hfits, hearly, w, hrun, hdelivered, haccepted, hprefix⟩

end CircularQueue.Interleaving
