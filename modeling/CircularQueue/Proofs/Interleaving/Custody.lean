import CircularQueue.Proofs.Interleaving.Publishing
import CircularQueue.Proofs.Interleaving.Roles
import CircularQueue.Proofs.Interleaving.Taking

/-!
# Who has a slot, access by access

Between any two accesses every slot number is in one place: unclaimed in one of the rings, or with
one thread. The filled slots are those whose numbers are allocated, or with a thread on their way
there or from there, and the values that came in and have not gone out are their values. An access
to a ring moves a number between the ring and its thread, and an access to a slot turns the number
of an empty slot into that of a filled one or back. So each of the two is settled by an equation
between lists, before and after.
-/

namespace CircularQueue.Interleaving

variable {α β : Type} {t : Nat}

namespace World

/-- What holds of threads at a queue between any two accesses. -/
structure Custody (w : QueueWorld α t) : Prop where
  free : w.shared.free.Attended w.freePosts
  allocated : w.shared.allocated.Attended w.allocatedPosts
  follows : ∀ i call location, w.threads.get i = .busy () call location → location.Follows call
  places : (w.emptySlots ++ w.filledSlots).Perm (List.range w.shared.capacity.val)
  filled : ∀ index, (w.shared.valueAt index).isSome ↔ index ∈ w.filledSlots
  accounts : w.accepted.Perm (w.delivered ++ w.filledSlots.filterMap w.shared.valueAt)

/-- The rings of the queue are early. -/
def Early (w : QueueWorld α t) : Prop := w.shared.free.Early ∧ w.shared.allocated.Early

instance (w : QueueWorld α t) : Decidable w.Early := inferInstanceAs (Decidable (_ ∧ _))

variable {w : QueueWorld α t} {i : Fin t} {call : Transfer α}
  {next : Next (QueueLocation α) (Receipt α × Unit)}

/-- What comes in and goes out, when one thread moves. -/
theorem account_perm {g : Completed (Transfer α) (Receipt α) t → Option β}
    {f : QueueThread α → Option β} (gained : List β)
    (h : (Completed.after i call next).filterMap g ++ (f (Thread.after () call next)).toList =
      gained ++ (f (w.threads.get i)).toList) (q : Queue α) :
    (((w.advance q i call next).history.filterMap g).reverse ++
        gather (w.advance q i call next).threads f).Perm
      (gained ++ ((w.history.filterMap g).reverse ++ gather w.threads f)) := by
  classical
  have hgather := gather_set_perm w.threads i (Thread.after () call next) f
  rw [List.perm_iff_count] at hgather ⊢
  intro b
  have hgather := hgather b
  have hcount := congrArg (List.count b) h
  simp only [advance, List.filterMap_append, List.reverse_append, List.count_append,
    List.count_reverse] at hgather hcount ⊢
  omega

/-- A number that goes from a ring to a thread or back. -/
theorem slots_perm {f : QueueThread α → Option Nat} {unclaimed unclaimed' : List Nat}
    (h : ((f (Thread.after () call next)).toList ++ unclaimed').Perm
      ((f (w.threads.get i)).toList ++ unclaimed)) (q : Queue α) :
    (unclaimed' ++ gather (w.advance q i call next).threads f).Perm
      (unclaimed ++ gather w.threads f) := by
  have hgather := gather_set_perm w.threads i (Thread.after () call next) f
  rw [List.perm_iff_count] at h hgather ⊢
  intro index
  have hlaw := h index
  have hgather := hgather index
  simp only [advance, List.count_append] at hlaw hgather ⊢
  omega

theorem freePosts_advance (q : Queue α) : (w.advance q i call next).freePosts =
    Function.update w.freePosts i (Thread.after () call next).freePost? :=
  comp_get_set _

theorem allocatedPosts_advance (q : Queue α) : (w.advance q i call next).allocatedPosts =
    Function.update w.allocatedPosts i (Thread.after () call next).allocatedPost? :=
  comp_get_set _

namespace Custody

theorem nodup (h : w.Custody) : (w.emptySlots ++ w.filledSlots).Nodup :=
  h.places.nodup_iff.2 List.nodup_range

theorem lt_capacity (h : w.Custody) {index : Nat} (hindex : index ∈ w.emptySlots ++ w.filledSlots) :
    index < w.shared.capacity.val :=
  List.mem_range.1 (h.places.mem_iff.1 hindex)

theorem not_mem_filledSlots (h : w.Custody) {index : Nat} (hindex : index ∈ w.emptySlots) :
    index ∉ w.filledSlots :=
  fun hfilled => (List.nodup_append.1 h.nodup).2.2 index hindex index hfilled rfl

theorem valueAt_eq_none (h : w.Custody) {index : Nat} (hindex : index ∈ w.emptySlots) :
    w.shared.valueAt index = none := by
  rw [← Option.not_isSome_iff_eq_none, h.filled]
  exact h.not_mem_filledSlots hindex

theorem follows_advance (h : w.Custody)
    (hfollows : ∀ location, next = .goto location → location.Follows call) (q : Queue α) :
    ∀ j call' location, (w.advance q i call next).threads.get j = .busy () call' location →
      location.Follows call' := by
  intro j call' location hat
  rw [advance, get_set] at hat
  by_cases hj : j = i
  · rw [hj, Function.update_self] at hat
    rcases next with location' | ⟨answer, hand⟩
    · cases hat
      exact hfollows _ rfl
    · cases hat
  · rw [Function.update_of_ne hj] at hat
    exact h.follows j call' location hat

/-- A thread moves at the rings, and no slot changes. -/
theorem move_rings (h : w.Custody) {free allocated : Ring w.shared.capacity.order}
    (hfree : free.Attended (Function.update w.freePosts i (Thread.after () call next).freePost?))
    (hallocated : allocated.Attended
      (Function.update w.allocatedPosts i (Thread.after () call next).allocatedPost?))
    (hfollows : ∀ location, next = .goto location → location.Follows call)
    (hspare : ((Thread.after () call next).spare?.toList ++
        free.unclaimed (Function.update w.freePosts i (Thread.after () call next).freePost?)).Perm
      ((w.threads.get i).spare?.toList ++ w.shared.free.unclaimed w.freePosts))
    (hladen : ((Thread.after () call next).laden?.toList ++ allocated.unclaimed
        (Function.update w.allocatedPosts i (Thread.after () call next).allocatedPost?)).Perm
      ((w.threads.get i).laden?.toList ++ w.shared.allocated.unclaimed w.allocatedPosts))
    (hadmitted : (Completed.after i call next).filterMap Completed.admitted? ++
        (Thread.after () call next).accepting?.toList = (w.threads.get i).accepting?.toList)
    (hremoved : (Completed.after i call next).filterMap Completed.removed? ++
        (Thread.after () call next).delivering?.toList = (w.threads.get i).delivering?.toList) :
    (w.advance { w.shared with free, allocated } i call next).Custody := by
  have hempty : (w.advance { w.shared with free, allocated } i call next).emptySlots.Perm
      w.emptySlots := by
    rw [emptySlots, freePosts_advance]
    exact slots_perm hspare _
  have hfilled : (w.advance { w.shared with free, allocated } i call next).filledSlots.Perm
      w.filledSlots := by
    rw [filledSlots, allocatedPosts_advance]
    exact slots_perm hladen _
  have haccepted : (w.advance { w.shared with free, allocated } i call next).accepted.Perm
      w.accepted := account_perm [] hadmitted _
  have hdelivered : (w.advance { w.shared with free, allocated } i call next).delivered.Perm
      w.delivered := account_perm [] hremoved _
  exact {
    free := by
      rw [freePosts_advance]
      exact hfree
    allocated := by
      rw [allocatedPosts_advance]
      exact hallocated
    follows := h.follows_advance hfollows _
    places := (hempty.append hfilled).trans h.places
    filled := fun index => (h.filled index).trans hfilled.mem_iff.symm
    accounts := haccepted.trans (h.accounts.trans
      (hdelivered.symm.append (hfilled.symm.filterMap _))) }

theorem freePosts_eq (q : Queue α)
    (hpost : (Thread.after () call next).freePost? = (w.threads.get i).freePost?) :
    (w.advance q i call next).freePosts = w.freePosts := by
  rw [freePosts_advance, hpost]
  exact Function.update_eq_self i _

theorem allocatedPosts_eq (q : Queue α)
    (hpost : (Thread.after () call next).allocatedPost? = (w.threads.get i).allocatedPost?) :
    (w.advance q i call next).allocatedPosts = w.allocatedPosts := by
  rw [allocatedPosts_advance, hpost]
  exact Function.update_eq_self i _

theorem unclaimed_enter {k : Order} {r : Ring k} {posts : Fin t → Option RingLocation}
    (hpost : posts i = none) {location : RingLocation} (hcursor : location.cursor? = none) :
    r.unclaimed (Function.update posts i (some location)) = r.unclaimed posts := by
  have hawaited : r.awaited (Function.update posts i (some location)) = r.awaited posts := by
    apply List.filterMap_congr
    intro j _
    by_cases hj : j = i
    · have hwatched : r.watched (some location) = none := Ring.watched_eq_none hcursor
      rw [hj, Function.update_self, hpost, hwatched]
      rfl
    · rw [Function.update_of_ne hj]
  rw [Ring.unclaimed, hawaited, Ring.unclaimed]

/-- A thread writes the slot whose number it has. -/
theorem fill (h : w.Custody) {v : α} {index : Nat}
    (hat : w.threads.get i = .busy () call (.storeValue v index))
    {slots : Vector (Option α) w.shared.capacity.val} (hindex : index < w.shared.capacity.val)
    (hfresh : index ∉ w.filledSlots)
    (hslots : ∀ j, slots[j]?.join = if j = index then some v else w.shared.valueAt j) :
    (w.advance { w.shared with slots } i call (.goto (.announce index .reserve))).Custody := by
  have hcall : call = .tryEnqueue v := h.follows i call _ hat
  subst hcall
  have hpost : w.allocatedPosts i = none := by rw [allocatedPosts, hat]; rfl
  set w' := w.advance { w.shared with slots } i (.tryEnqueue v)
    (.goto (.announce index .reserve)) with hw'
  have hvalue (j : Nat) : w'.shared.valueAt j = if j = index then some v else w.shared.valueAt j :=
    hslots j
  have hfreePosts : w'.freePosts = w.freePosts := freePosts_eq _ (by rw [hat]; rfl)
  have hempty : (index :: w'.emptySlots).Perm w.emptySlots := by
    have hspare :
        (index :: gather w'.threads Thread.spare?).Perm (gather w.threads Thread.spare?) :=
      gather_set_of_some (by rw [hat]; rfl) rfl
    rw [emptySlots, hfreePosts]
    exact List.perm_middle.symm.trans (hspare.append_left _)
  have hfilled : w'.filledSlots.Perm (index :: w.filledSlots) := by
    have hladen :
        (gather w'.threads Thread.laden?).Perm (index :: gather w.threads Thread.laden?) :=
      gather_set_of_none (by rw [hat]; rfl) rfl
    have hunclaimed : w'.shared.allocated.unclaimed w'.allocatedPosts =
        w.shared.allocated.unclaimed w.allocatedPosts := by
      rw [hw', allocatedPosts_advance]
      exact unclaimed_enter hpost rfl
    rw [filledSlots, hunclaimed]
    exact (hladen.append_left _).trans List.perm_middle
  have haccepted : w'.accepted.Perm (v :: w.accepted) := account_perm [v] (by rw [hat]; rfl) _
  have hdelivered : w'.delivered.Perm w.delivered := account_perm [] (by rw [hat]; rfl) _
  exact {
    free := by
      rw [hfreePosts]
      exact h.free
    allocated := by
      have horder := Nat.lt_of_lt_of_le hindex w.shared.capacity.val_le_capacity_order
      rw [hw', allocatedPosts_advance]
      exact h.allocated.enter hpost rfl ⟨horder, trivial⟩ (by rintro _ _ _ _ ⟨⟩)
    follows := h.follows_advance (by rintro _ ⟨⟩; exact ⟨v, rfl⟩) _
    places := by
      refine (hfilled.append_left _).trans (List.perm_middle.trans ?_)
      exact (hempty.append_right _).trans h.places
    filled := by
      intro j
      rw [hfilled.mem_iff, List.mem_cons, ← h.filled j, hvalue]
      by_cases hj : j = index <;> simp [hj]
    accounts := by
      have hold : w.filledSlots.filterMap w'.shared.valueAt =
          w.filledSlots.filterMap w.shared.valueAt := by
        apply List.filterMap_congr
        intro j hj
        exact (hvalue j).trans (if_neg fun heq : j = index => hfresh (heq ▸ hj))
      have hnew := hfilled.filterMap w'.shared.valueAt
      rw [List.filterMap_cons_some ((hvalue index).trans (if_pos rfl)), hold] at hnew
      exact haccepted.trans ((h.accounts.cons v).trans
        (List.perm_middle.symm.trans (hdelivered.symm.append hnew.symm))) }

/-- A thread moves the value out of the slot whose number it has. -/
theorem drain (h : w.Custody) {v : α} {index : Nat}
    (hat : w.threads.get i = .busy () call (.loadValue index))
    {slots : Vector (Option α) w.shared.capacity.val} (hindex : index < w.shared.capacity.val)
    (hvalue : w.shared.valueAt index = some v)
    (hslots : ∀ j, slots[j]?.join = if j = index then none else w.shared.valueAt j) :
    (w.advance { w.shared with slots } i call (.goto (.giveBack v index .reserve))).Custody := by
  have hcall : call = .dequeue := h.follows i call _ hat
  subst hcall
  have hpost : w.freePosts i = none := by rw [freePosts, hat]; rfl
  set w' := w.advance { w.shared with slots } i .dequeue (.goto (.giveBack v index .reserve))
    with hw'
  have hvalue' (j : Nat) : w'.shared.valueAt j = if j = index then none else w.shared.valueAt j :=
    hslots j
  have hallocatedPosts : w'.allocatedPosts = w.allocatedPosts :=
    allocatedPosts_eq _ (by rw [hat]; rfl)
  have hfilled : (index :: w'.filledSlots).Perm w.filledSlots := by
    have hladen :
        (index :: gather w'.threads Thread.laden?).Perm (gather w.threads Thread.laden?) :=
      gather_set_of_some (by rw [hat]; rfl) rfl
    rw [filledSlots, hallocatedPosts]
    exact List.perm_middle.symm.trans (hladen.append_left _)
  have hempty : w'.emptySlots.Perm (index :: w.emptySlots) := by
    have hspare :
        (gather w'.threads Thread.spare?).Perm (index :: gather w.threads Thread.spare?) :=
      gather_set_of_none (by rw [hat]; rfl) rfl
    have hunclaimed : w'.shared.free.unclaimed w'.freePosts =
        w.shared.free.unclaimed w.freePosts := by
      rw [hw', freePosts_advance]
      exact unclaimed_enter hpost rfl
    rw [emptySlots, hunclaimed]
    exact (hspare.append_left _).trans List.perm_middle
  have haccepted : w'.accepted.Perm w.accepted := account_perm [] (by rw [hat]; rfl) _
  have hdelivered : w'.delivered.Perm (v :: w.delivered) := account_perm [v] (by rw [hat]; rfl) _
  have hgone : index ∉ w'.filledSlots := by
    have hnodup := (List.nodup_append.1 h.nodup).2.1
    exact (List.nodup_cons.1 (hfilled.nodup_iff.2 hnodup)).1
  exact {
    free := by
      have horder := Nat.lt_of_lt_of_le hindex w.shared.capacity.val_le_capacity_order
      rw [hw', freePosts_advance]
      exact h.free.enter hpost rfl ⟨horder, trivial⟩ (by rintro _ _ _ _ ⟨⟩)
    allocated := by
      rw [hallocatedPosts]
      exact h.allocated
    follows := h.follows_advance (by rintro _ ⟨⟩; rfl) _
    places := by
      refine (hempty.append_right _).trans (List.perm_middle.symm.trans ?_)
      exact (hfilled.append_left _).trans h.places
    filled := by
      intro j
      rw [hvalue']
      by_cases hj : j = index
      · simp [hj, hgone]
      · rw [if_neg hj, h.filled j, ← hfilled.mem_iff, List.mem_cons, or_iff_right hj]
    accounts := by
      have hrest : w'.filledSlots.filterMap w.shared.valueAt =
          w'.filledSlots.filterMap w'.shared.valueAt := by
        apply List.filterMap_congr
        intro j hj
        exact ((hvalue' j).trans (if_neg fun heq : j = index => hgone (heq ▸ hj))).symm
      have hold := hfilled.filterMap w.shared.valueAt
      rw [List.filterMap_cons_some hvalue, hrest] at hold
      refine haccepted.trans (h.accounts.trans ((hold.symm.append_left _).trans ?_))
      exact List.perm_middle.trans (hdelivered.symm.append_right _) }

/-- A thread moves at the free ring. -/
theorem move_free (h : w.Custody) {free : Ring w.shared.capacity.order}
    (hattended : free.Attended
      (Function.update w.freePosts i (Thread.after () call next).freePost?))
    (hspare : ((Thread.after () call next).spare?.toList ++
        free.unclaimed (Function.update w.freePosts i (Thread.after () call next).freePost?)).Perm
      ((w.threads.get i).spare?.toList ++ w.shared.free.unclaimed w.freePosts))
    (hpost : (Thread.after () call next).allocatedPost? = (w.threads.get i).allocatedPost?)
    (hladen : (Thread.after () call next).laden? = (w.threads.get i).laden?)
    (hfollows : ∀ location, next = .goto location → location.Follows call)
    (hadmitted : (Completed.after i call next).filterMap Completed.admitted? ++
        (Thread.after () call next).accepting?.toList = (w.threads.get i).accepting?.toList)
    (hremoved : (Completed.after i call next).filterMap Completed.removed? ++
        (Thread.after () call next).delivering?.toList = (w.threads.get i).delivering?.toList) :
    (w.advance { w.shared with free } i call next).Custody := by
  have hposts : Function.update w.allocatedPosts i (Thread.after () call next).allocatedPost? =
      w.allocatedPosts := by
    rw [hpost]
    exact Function.update_eq_self i _
  refine h.move_rings hattended ?_ hfollows hspare ?_ hadmitted hremoved
  · rw [hposts]
    exact h.allocated
  · rw [hposts, hladen]

/-- A thread moves at the allocated ring. -/
theorem move_allocated (h : w.Custody) {allocated : Ring w.shared.capacity.order}
    (hattended : allocated.Attended
      (Function.update w.allocatedPosts i (Thread.after () call next).allocatedPost?))
    (hladen : ((Thread.after () call next).laden?.toList ++ allocated.unclaimed
        (Function.update w.allocatedPosts i (Thread.after () call next).allocatedPost?)).Perm
      ((w.threads.get i).laden?.toList ++ w.shared.allocated.unclaimed w.allocatedPosts))
    (hpost : (Thread.after () call next).freePost? = (w.threads.get i).freePost?)
    (hspare : (Thread.after () call next).spare? = (w.threads.get i).spare?)
    (hfollows : ∀ location, next = .goto location → location.Follows call)
    (hadmitted : (Completed.after i call next).filterMap Completed.admitted? ++
        (Thread.after () call next).accepting?.toList = (w.threads.get i).accepting?.toList)
    (hremoved : (Completed.after i call next).filterMap Completed.removed? ++
        (Thread.after () call next).delivering?.toList = (w.threads.get i).delivering?.toList) :
    (w.advance { w.shared with allocated } i call next).Custody := by
  have hposts : Function.update w.freePosts i (Thread.after () call next).freePost? =
      w.freePosts := by
    rw [hpost]
    exact Function.update_eq_self i _
  refine h.move_rings ?_ hattended hfollows ?_ hladen hadmitted hremoved
  · rw [hposts]
    exact h.free
  · rw [hposts, hspare]

/-- What a thread finds that is about to write a slot, and what it leaves. -/
theorem slots_of_store (h : w.Custody) {v : α} {index : Nat}
    (hat : w.threads.get i = .busy () call (.storeValue v index))
    {slots : Vector (Option α) w.shared.capacity.val}
    (hstore : Queue.store w.shared.slots index v = .ok slots) :
    index ∈ w.emptySlots ∧
      ∀ j, slots[j]?.join = if j = index then some v else w.shared.valueAt j := by
  have hmem : index ∈ w.emptySlots :=
    List.mem_append_right _ (mem_gather_iff.2 ⟨i, by rw [hat]; rfl⟩)
  have hindex := h.lt_capacity (List.mem_append_left _ hmem)
  obtain ⟨slots', hstore', hslots⟩ := Queue.store_eq hindex (h.valueAt_eq_none hmem) v
  obtain rfl : slots = slots' := Except.ok.inj (hstore.symm.trans hstore')
  exact ⟨hmem, hslots⟩

/-- What a thread finds that is about to read a slot, and what it leaves. -/
theorem slots_of_load (h : w.Custody) {v : α} {index : Nat}
    (hat : w.threads.get i = .busy () call (.loadValue index))
    {slots : Vector (Option α) w.shared.capacity.val}
    (hload : Queue.load w.shared.slots index = .ok (v, slots)) :
    index ∈ w.filledSlots ∧ w.shared.valueAt index = some v ∧
      ∀ j, slots[j]?.join = if j = index then none else w.shared.valueAt j := by
  have hmem : index ∈ w.filledSlots :=
    List.mem_append_right _ (mem_gather_iff.2 ⟨i, by rw [hat]; rfl⟩)
  obtain ⟨v', hvalue⟩ := Option.isSome_iff_exists.1 ((h.filled index).2 hmem)
  obtain ⟨slots', hload', hslots⟩ := Queue.load_eq hvalue
  obtain ⟨rfl, rfl⟩ := Prod.mk.inj (Except.ok.inj (hload.symm.trans hload'))
  exact ⟨hmem, hvalue, hslots⟩

/-- Custody is kept by every move. -/
theorem move (h : w.Custody) (hearly : w.Early) {patience : Nat} {w' : QueueWorld α t}
    (hmove : w.Move patience w') : w'.Custody := by
  obtain ⟨hfreeEarly, hallocatedEarly⟩ := hearly
  cases hmove with
  | still => exact h
  | @start i hat call =>
    cases call with
    | tryEnqueue v =>
      have hpost : w.freePosts i = none := by rw [freePosts, hat]; rfl
      refine h.move_free (h.free.enter hpost rfl trivial (by rintro _ _ _ _ ⟨⟩)) ?_
        (by rw [hat]; rfl) (by rw [hat]; rfl) (by rintro _ ⟨⟩; rfl) (by rw [hat]; rfl)
        (by rw [hat]; rfl)
      rw [hat]
      exact List.Perm.of_eq (unclaimed_enter hpost rfl)
    | dequeue =>
      have hpost : w.allocatedPosts i = none := by rw [allocatedPosts, hat]; rfl
      refine h.move_allocated (h.allocated.enter hpost rfl trivial (by rintro _ _ _ _ ⟨⟩))
        ?_ (by rw [hat]; rfl) (by rw [hat]; rfl) (by rintro _ ⟨⟩; rfl) (by rw [hat]; rfl)
        (by rw [hat]; rfl)
      rw [hat]
      exact List.Perm.of_eq (unclaimed_enter hpost rfl)
  | @claimFree i call v location spurious free next hat hstep =>
    have hcall : call = .tryEnqueue v := h.follows i call _ hat
    subst hcall
    have hpost : w.freePosts i = some (.taking false location) := by rw [freePosts, hat]; rfl
    have hspare : location.claimed? = (w.threads.get i).spare? := by rw [hat]; rfl
    have hattended := h.free.consumer_step hfreeEarly hpost hstep
    have hlaw := h.free.unclaimed_of_consumer_step hfreeEarly hpost hstep
    rw [hspare] at hlaw
    rcases next with location' | _ | index <;>
      exact h.move_free hattended hlaw (by rw [hat]; rfl) (by rw [hat]; rfl)
        (by rintro _ ⟨⟩ <;> rfl) (by rw [hat]; rfl) (by rw [hat]; rfl)
  | @storeValue i call v index slots hat hstore =>
    obtain ⟨hmem, hslots⟩ := h.slots_of_store hat hstore
    exact h.fill hat (h.lt_capacity (List.mem_append_left _ hmem)) (h.not_mem_filledSlots hmem)
      hslots
  | @announce i call index location spurious allocated next hat hstep =>
    obtain ⟨v, hcall⟩ : ∃ v, call = .tryEnqueue v := h.follows i call _ hat
    subst hcall
    have hpost : w.allocatedPosts i = some (.publishing index false location) := by
      rw [allocatedPosts, hat]; rfl
    have hladen : location.held? index = (w.threads.get i).laden? := by rw [hat]; rfl
    have hattended := h.allocated.producer_step hallocatedEarly hpost hstep
    have hlaw := h.allocated.unclaimed_of_producer_step hallocatedEarly hpost hstep
    rw [hladen] at hlaw
    rcases next with location' | _ <;>
      exact h.move_allocated hattended hlaw (by rw [hat]; rfl) (by rw [hat]; rfl)
        (by rintro _ ⟨⟩ <;> exact ⟨v, rfl⟩) (by rw [hat]; rfl) (by rw [hat]; rfl)
  | @claimValue i call location spurious allocated next hat hstep =>
    have hcall : call = .dequeue := h.follows i call _ hat
    have hpost : w.allocatedPosts i = some (.taking false location) := by
      rw [allocatedPosts, hat]; rfl
    have hladen : location.claimed? = (w.threads.get i).laden? := by rw [hat]; rfl
    have hattended := h.allocated.consumer_step hallocatedEarly hpost hstep
    have hlaw := h.allocated.unclaimed_of_consumer_step hallocatedEarly hpost hstep
    rw [hladen] at hlaw
    subst hcall
    rcases next with location' | _ | index <;>
      exact h.move_allocated hattended hlaw (by rw [hat]; rfl) (by rw [hat]; rfl)
        (by rintro _ ⟨⟩ <;> rfl) (by rw [hat]; rfl) (by rw [hat]; rfl)
  | @loadValue i call v index slots hat hload =>
    obtain ⟨hmem, hvalue, hslots⟩ := h.slots_of_load hat hload
    exact h.drain hat (h.lt_capacity (List.mem_append_right _ hmem)) hvalue hslots
  | @giveBack i call v index location spurious free next hat hstep =>
    have hcall : call = .dequeue := h.follows i call _ hat
    subst hcall
    have hpost : w.freePosts i = some (.publishing index false location) := by
      rw [freePosts, hat]; rfl
    have hspare : location.held? index = (w.threads.get i).spare? := by rw [hat]; rfl
    have hattended := h.free.producer_step hfreeEarly hpost hstep
    have hlaw := h.free.unclaimed_of_producer_step hfreeEarly hpost hstep
    rw [hspare] at hlaw
    rcases next with location' | _ <;>
      exact h.move_free hattended hlaw (by rw [hat]; rfl) (by rw [hat]; rfl)
        (by rintro _ ⟨⟩ <;> rfl) (by rw [hat]; rfl) (by rw [hat]; rfl)

end Custody

end World

end CircularQueue.Interleaving
