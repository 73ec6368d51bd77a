import CircularQueue.Proofs.Interleaving.Acts
import CircularQueue.Proofs.Interleaving.Tickets

/-!
# Cursors never go back

Any number of threads publish and take indices at one ring, and their accesses fall in any order.
As long as no cursor has passed `2 ^ 61`, head and tail only grow, and so does the lap of each cell.
A cursor is worked on by one attempt only: where two threads are found with the same cursor, earlier
and later in a schedule, they are one thread, and it has had the cursor all the time in between.
-/

namespace CircularQueue.Interleaving

/-- Threads that share a ring. -/
abbrev RingWorld (k : Order) (t : Nat) := World (Ring k) Unit RingCall RingLocation Ring.Answer t

/-- The caller may be told that the ring is empty. -/
def RingCall.Concedes : RingCall → Prop
  | .dequeue true => False
  | .dequeue false | .enqueue .. => True

/-- The action starts no call that has to find an index. -/
def Action.Concedes {t : Nat} : Action RingCall t → Prop
  | .call _ ringCall => ringCall.Concedes
  | .step .. => True

/-- The ends of a ring. Each deals cursors to the threads that come to it. -/
inductive RingEnd
  | head
  | tail

/-- Where the thread is posted. -/
def Thread.post? : Thread Unit RingCall RingLocation → Option RingLocation
  | .idle _ => none
  | .busy _ _ location => some location

namespace RingLocation

/-- Where a call goes after an access of a producer. -/
def afterPublishing (index : Nat) (nonempty : Bool) :
    Next Producer Unit → Next RingLocation (Ring.Answer × Unit)
  | .goto location => .goto (.publishing index nonempty location)
  | .answer _ => .answer (.accepted true, ())

/-- Where a call goes after an access of a consumer. -/
def afterTaking (nonempty : Bool) :
    Next Consumer (Option Nat) → Next RingLocation (Ring.Answer × Unit)
  | .goto location => .goto (.taking nonempty location)
  | .answer index => .answer (.taken index, ())

theorem post?_afterPublishing (call : RingCall) (index : Nat) (nonempty : Bool)
    (next : Next Producer Unit) :
    (Thread.after () call (afterPublishing index nonempty next)).post? =
      Producer.post index nonempty next := by
  cases next <;> rfl

theorem post?_afterTaking (call : RingCall) (nonempty : Bool)
    (next : Next Consumer (Option Nat)) :
    (Thread.after () call (afterTaking nonempty next)).post? = Consumer.post nonempty next := by
  cases next <;> rfl

end RingLocation

variable {k : Order} {t : Nat}

namespace RingEnd

/-- The next cursor that the end deals. -/
def next : RingEnd → Ring k → Cursor
  | .head, r => r.head
  | .tail, r => r.tail

/-- The cursor that the end has dealt to the thread. -/
def ticket? : RingEnd → RingLocation → Option Cursor
  | .head => RingLocation.headTicket?
  | .tail => RingLocation.tailTicket?

end RingEnd

theorem step_publishing (patience : Nat) (r : Ring k) (index : Nat) (nonempty spurious : Bool)
    (location : Producer) :
    (ringMachine k patience).step r () (.publishing index nonempty location) spurious =
      .ok ((location.step index nonempty r spurious).1,
        RingLocation.afterPublishing index nonempty
          (location.step index nonempty r spurious).2) := by
  rcases hstep : location.step index nonempty r spurious with ⟨s, _ | _⟩ <;>
    simp only [ringMachine, hstep, RingLocation.afterPublishing]

theorem step_taking (patience : Nat) (r : Ring k) (nonempty spurious : Bool)
    (location : Consumer) :
    (ringMachine k patience).step r () (.taking nonempty location) spurious =
      .ok ((location.step patience nonempty r spurious).1,
        RingLocation.afterTaking nonempty (location.step patience nonempty r spurious).2) := by
  rcases hstep : location.step patience nonempty r spurious with ⟨s, _ | _⟩ <;>
    simp only [ringMachine, hstep, RingLocation.afterTaking]

namespace World

/-- The posts of the threads at the ring. -/
def posts (w : RingWorld k t) : Fin t → Option RingLocation := fun i => (w.threads.get i).post?

/-- The cursor of the end `e` that the thread works on. -/
def cursor? (w : RingWorld k t) (e : RingEnd) (i : Fin t) : Option Cursor :=
  (w.posts i).bind e.ticket?

theorem posts_moved (r : Ring k) (w : RingWorld k t) (i : Fin t) (call : RingCall)
    (next : Next RingLocation (Ring.Answer × Unit)) :
    (moved r w.threads w.history i () call next).1.posts =
      Function.update w.posts i (Thread.after () call next).post? := by
  funext j
  rw [posts, get_moved]
  exact congrFun (Function.comp_update Thread.post? w.threads.get i _) j

/-- What holds of the threads at a ring between any two accesses. -/
structure Marches (w : RingWorld k t) : Prop where
  attended : w.shared.Attended w.posts
  covered : w.shared.Covered w.posts
  dealt : ∀ e : RingEnd, Dealt e.ticket? (e.next w.shared) w.posts
  concedes : ∀ i location, w.posts i ≠ some (.taking true location)

/-- What one action does to the cursors of the ring and of the threads. -/
inductive Onward (w : RingWorld k t) : RingWorld k t → Prop
  | still : Onward w w
  | move {w' : RingWorld k t} {i : Fin t} {post : Option RingLocation}
      (hevolves : w.shared.Evolves w'.shared) (hposts : w'.posts = Function.update w.posts i post)
      (hdraws : ∀ e : RingEnd,
        Draws e.ticket? (w.posts i) post (e.next w.shared) (e.next w'.shared)) :
      Onward w w'

namespace Marches

variable {w : RingWorld k t} {i : Fin t} {call : RingCall} {patience : Nat} {spurious : Bool}

/-- The thread `i` moves and the others stay. -/
theorem moved (h : w.Marches) {s : Ring k} {next : Next RingLocation (Ring.Answer × Unit)}
    {post : Option RingLocation} (hpost : (Thread.after () call next).post? = post)
    (hattended : s.Attended (Function.update w.posts i post))
    (hevolves : w.shared.Evolves s) (hcovered : s.Covered (Function.update w.posts i post))
    (hdraws : ∀ e : RingEnd, Draws e.ticket? (w.posts i) post (e.next w.shared) (e.next s))
    (hconcedes : ∀ location, post ≠ some (.taking true location)) :
    w.Onward (World.moved s w.threads w.history i () call next).1 ∧
      (World.moved s w.threads w.history i () call next).1.Marches := by
  have hposts := w.posts_moved s i call next
  rw [hpost] at hposts
  constructor
  · refine .move ?_ hposts ?_ <;> rwa [shared_moved]
  · refine ⟨?_, ?_, ?_, ?_⟩ <;> rw [hposts] <;> try rw [shared_moved]
    · exact hattended
    · exact hcovered
    · exact fun e => (h.dealt e).update (hdraws e)
    · exact (Function.forall_update_iff w.posts fun _ place =>
        ∀ location, place ≠ some (.taking true location)).2 ⟨hconcedes, fun j _ => h.concedes j⟩

theorem publish (h : w.Marches) (hr : w.shared.Early) {index : Nat} {nonempty : Bool}
    {location : Producer}
    (hat : w.threads.get i = .busy () call (.publishing index nonempty location)) {s : Ring k}
    {next : Next Producer Unit}
    (hstep : location.step index nonempty w.shared spurious = (s, next)) :
    w.Onward (World.moved s w.threads w.history i () call
        (RingLocation.afterPublishing index nonempty next)).1 ∧
      (World.moved s w.threads w.history i () call
        (RingLocation.afterPublishing index nonempty next)).1.Marches := by
  have hpost : w.posts i = some (.publishing index nonempty location) := by
    rw [posts, hat]
    rfl
  have hstride := Producer.stride_of_step hstep
  have hevolves := h.attended.evolves_of_producer_step hr hpost hstep
  refine h.moved (RingLocation.post?_afterPublishing call index nonempty next)
    (h.attended.producer_step hr hpost hstep) hevolves
    (Ring.covered_of_producer_stride hr hpost hstride h.covered) ?_
    (by cases next <;> rintro _ ⟨⟩)
  rintro (_ | _)
  · exact .of_none hevolves.head_le (by cases next <;> rfl)
  · exact Ring.tail_of_producer_stride hr hpost hstride

theorem take (h : w.Marches) (hr : w.shared.Early) {location : Consumer}
    (hat : w.threads.get i = .busy () call (.taking false location)) {s : Ring k}
    {next : Next Consumer (Option Nat)}
    (hstep : location.step patience false w.shared spurious = (s, next)) :
    w.Onward (World.moved s w.threads w.history i () call
        (RingLocation.afterTaking false next)).1 ∧
      (World.moved s w.threads w.history i () call
        (RingLocation.afterTaking false next)).1.Marches := by
  have hpost : w.posts i = some (.taking false location) := by
    rw [posts, hat]
    rfl
  have hstride := Consumer.stride_of_step hr (h.attended.informed i _ hpost) hstep
  have hevolves := h.attended.evolves_of_consumer_step hr hpost hstep
  refine h.moved (RingLocation.post?_afterTaking call false next)
    (h.attended.consumer_step hr hpost hstep) hevolves
    (h.attended.covered_of_consumer_stride hr hpost hstride h.covered) ?_
    (by cases next <;> rintro _ ⟨⟩)
  rintro (_ | _)
  · exact Ring.head_of_consumer_stride hr hpost hstride
  · exact .of_none hevolves.tail_le (by cases next <;> rfl)

/-- A thread comes to the ring and has no cursor there yet. -/
theorem enter (h : w.Marches) (hpost : w.posts i = none)
    {next : Next RingLocation (Ring.Answer × Unit)} {post : Option RingLocation}
    (hnext : (Thread.after () call next).post? = post)
    (hattended : w.shared.Attended (Function.update w.posts i post))
    (hticket : ∀ e : RingEnd, post.bind e.ticket? = none)
    (hconcedes : ∀ location, post ≠ some (.taking true location)) :
    w.Onward (World.moved w.shared w.threads w.history i () call next).1 ∧
      (World.moved w.shared w.threads w.history i () call next).1.Marches := by
  refine h.moved hnext hattended ⟨le_rfl, le_rfl, fun _ => .inl rfl⟩
    (h.covered.of_not_seesTo rfl le_rfl ?_) (fun e => .of_none le_rfl (hticket e)) hconcedes
  rw [hpost]
  rintro _ _ ⟨⟩

/-- A call begins: a thread comes to the ring, or is refused at once. -/
theorem startCall (h : w.Marches) (hat : w.threads.get i = .idle ())
    {next : Next RingLocation (Ring.Answer × Unit)} (hconcedes : call.Concedes)
    (hstart : (ringMachine k patience).start () call = some next) :
    w.Onward (World.moved w.shared w.threads w.history i () call next).1 ∧
      (World.moved w.shared w.threads w.history i () call next).1.Marches := by
  have hpost : w.posts i = none := by
    rw [posts, hat]
    rfl
  match call, hconcedes with
  | .enqueue index nonempty, _ =>
    simp only [ringMachine] at hstart
    split at hstart
    · rename_i hindex
      cases hstart
      exact h.enter hpost rfl
        (h.attended.enter hpost rfl ⟨hindex, trivial⟩ (by rintro _ _ _ _ ⟨⟩))
        (by rintro (_ | _) <;> rfl) (by rintro _ ⟨⟩)
    · cases hstart
      have hattended : w.shared.Attended (Function.update w.posts i none) := by
        rw [← hpost, Function.update_eq_self]
        exact h.attended
      exact h.enter hpost rfl hattended (by rintro (_ | _) <;> rfl) (by rintro _ ⟨⟩)
  | .dequeue false, _ =>
    cases hstart
    exact h.enter hpost rfl (h.attended.enter hpost rfl trivial (by rintro _ _ _ _ ⟨⟩))
      (by rintro (_ | _) <;> rfl) (by rintro _ ⟨⟩)

/-- No action meets a fault, and every one leads onward. -/
theorem act (h : w.Marches) (hr : w.shared.Early) (patience : Nat) {action : Action RingCall t}
    (hconcedes : action.Concedes) :
    ∃ r, w.act (ringMachine k patience) action = .ok r ∧ w.Onward r.1 ∧ r.1.Marches := by
  have hok (i : Fin t) (hand : Unit) (call : RingCall) (location : RingLocation) (spurious : Bool)
      (_ : w.threads.get i = .busy hand call location) :
      ∃ r, (ringMachine k patience).step w.shared hand location spurious = .ok r := by
    cases location with
    | publishing => exact ⟨_, step_publishing ..⟩
    | taking => exact ⟨_, step_taking ..⟩
  obtain ⟨r, hr'⟩ := w.exists_act hok action
  refine ⟨r, hr', ?_⟩
  cases acts_of_act hr' with
  | still => exact ⟨.still, h⟩
  | start hat hstart => exact h.startCall hat hconcedes hstart
  | @step i hand call location spurious s next hat hstep =>
    cases location with
    | publishing index nonempty location =>
      cases (step_publishing ..).symm.trans hstep
      exact h.publish hr hat rfl
    | taking nonempty location =>
      cases nonempty with
      | false =>
        cases (step_taking ..).symm.trans hstep
        exact h.take hr hat rfl
      | true =>
        exact absurd (by rw [posts, hat]; rfl) (h.concedes i location)

theorem run (h : w.Marches) {actions : List (Action RingCall t)}
    (hconcedes : ∀ action ∈ actions, action.Concedes)
    (hearly : w.Throughout (ringMachine k patience) (fun v => v.shared.Early) actions) :
    ∃ w', w.run (ringMachine k patience) actions = .ok w' ∧ w'.Marches ∧
      w.shared.head.toNat ≤ w'.shared.head.toNat ∧ w.shared.tail.toNat ≤ w'.shared.tail.toNat ∧
      ∀ c, k.turn (w.shared.word c) ≤ k.turn (w'.shared.word c) := by
  induction actions generalizing w with
  | nil => exact ⟨w, rfl, h, le_rfl, le_rfl, fun _ => le_rfl⟩
  | cons action actions ih =>
    obtain ⟨hfirst, hrest⟩ := List.forall_mem_cons.1 hconcedes
    obtain ⟨⟨w₁, completed⟩, hact, honward, h₁⟩ := h.act hearly.now patience hfirst
    obtain ⟨w₂, hrun, h₂, hhead, htail, hturn⟩ := ih h₁ hrest (hearly.next hact)
    refine ⟨w₂, by rw [World.run, hact]; exact hrun, h₂, ?_⟩
    cases honward with
    | still => exact ⟨hhead, htail, hturn⟩
    | move hevolves =>
      exact ⟨hevolves.head_le.trans hhead, hevolves.tail_le.trans htail,
        fun c => (hevolves.turn_le c).trans (hturn c)⟩

end Marches

/-! ## One attempt for each cursor -/

variable {w w' : RingWorld k t} {e : RingEnd} {i j : Fin t} {c : Cursor} {patience : Nat}
  {actions : List (Action RingCall t)}

theorem Onward.givenBack (honward : w.Onward w')
    (h : GivenBack e.ticket? (e.next w.shared) w.posts c) :
    GivenBack e.ticket? (e.next w'.shared) w'.posts c := by
  cases honward with
  | still => exact h
  | move _ hposts hdraws =>
    rw [hposts]
    exact h.update (hdraws e)

theorem Onward.has_or_givenBack (honward : w.Onward w') (h : w.Marches)
    (hcursor : w.cursor? e i = some c) :
    w'.cursor? e i = some c ∨ GivenBack e.ticket? (e.next w'.shared) w'.posts c := by
  cases honward with
  | still => exact .inl hcursor
  | move _ hposts hdraws =>
    rw [cursor?, hposts]
    exact (h.dealt e).has_or_givenBack (hdraws e) hcursor

/-- A cursor that was given back is with no thread later. -/
theorem Marches.not_cursor_of_givenBack (h : w.Marches)
    (hconcedes : ∀ action ∈ actions, action.Concedes)
    (hearly : w.Throughout (ringMachine k patience) (fun v => v.shared.Early) actions)
    (hrun : w.run (ringMachine k patience) actions = .ok w')
    (hback : GivenBack e.ticket? (e.next w.shared) w.posts c) : w'.cursor? e j ≠ some c := by
  induction actions generalizing w with
  | nil =>
    cases hrun
    exact hback.2 j
  | cons action actions ih =>
    obtain ⟨hfirst, hrest⟩ := List.forall_mem_cons.1 hconcedes
    obtain ⟨⟨w₁, completed⟩, hact, honward, h₁⟩ := h.act hearly.now patience hfirst
    rw [World.run, hact] at hrun
    exact ih h₁ hrest (hearly.next hact) hrun (honward.givenBack hback)

/-- Where a cursor is found twice, one thread has had it all the time. -/
theorem Marches.once (h : w.Marches) (hconcedes : ∀ action ∈ actions, action.Concedes)
    (hearly : w.Throughout (ringMachine k patience) (fun v => v.shared.Early) actions)
    (hrun : w.run (ringMachine k patience) actions = .ok w') (hi : w.cursor? e i = some c)
    (hj : w'.cursor? e j = some c) :
    i = j ∧ w.Throughout (ringMachine k patience) (fun v => v.cursor? e i = some c) actions := by
  induction actions generalizing w with
  | nil =>
    cases hrun
    exact ⟨(h.dealt e).apart i j c hi hj, hi⟩
  | cons action actions ih =>
    obtain ⟨hfirst, hrest⟩ := List.forall_mem_cons.1 hconcedes
    obtain ⟨⟨w₁, completed⟩, hact, honward, h₁⟩ := h.act hearly.now patience hfirst
    rw [World.run, hact] at hrun
    have hearly₁ := hearly.next hact
    rcases honward.has_or_givenBack h hi with hi₁ | hback
    · obtain ⟨heq, hhas⟩ := ih h₁ hrest hearly₁ hrun hi₁
      refine ⟨heq, hi, ?_⟩
      rw [hact]
      exact hhas
    · exact absurd hj (h₁.not_cursor_of_givenBack hrest hearly₁ hrun hback)

/-- A step of a dequeue leaves the tail alone or pulls it up to a cursor that is not beyond the
head. -/
theorem Marches.tail_of_dequeue (h : w.Marches) (hr : w.shared.Early) {nonempty spurious : Bool}
    {location : Consumer} (hpost : w.posts i = some (.taking nonempty location))
    {completed : Option (Completed RingCall Ring.Answer t)}
    (hact : w.act (ringMachine k patience) (.step i spurious) = .ok (w', completed)) :
    w'.shared.tail = w.shared.tail ∨ w'.shared.tail.toNat ≤ w'.shared.head.toNat := by
  cases nonempty with
  | true => exact absurd hpost (h.concedes i location)
  | false =>
    generalize hr' : (w', completed) = r at hact
    cases acts_of_act hact with
    | still =>
      cases hr'
      exact .inl rfl
    | @step _ hand call location' _ s next hat hstep =>
      rw [posts, hat] at hpost
      cases hpost
      cases (step_taking ..).symm.trans hstep
      have hpost : w.posts i = some (.taking false location) := by
        rw [posts, hat]
        rfl
      have hstride := Consumer.stride_of_step hr (h.attended.informed i _ hpost)
        (rfl : location.step patience false w.shared spurious = _)
      have hshared := congrArg (fun r => r.1.shared) hr'
      simp only [shared_moved] at hshared
      rw [hshared]
      exact (h.attended.tail_of_consumer_stride hpost hstride).2

/-- What the accesses between `w` and a later world `w'` never do: move a cursor of the ring or the
lap of a cell back, hand out a cursor twice, drag the tail beyond the head, or leave the head beyond
the tail when the last dequeue is over. -/
structure NeverBack (patience : Nat) (w : RingWorld k t) (actions : List (Action RingCall t))
    (w' : RingWorld k t) : Prop where
  head_le : w.shared.head.toNat ≤ w'.shared.head.toNat
  tail_le : w.shared.tail.toNat ≤ w'.shared.tail.toNat
  turn_le : ∀ c, k.turn (w.shared.word c) ≤ k.turn (w'.shared.word c)
  once : ∀ (e : RingEnd) i j c, w.cursor? e i = some c → w'.cursor? e j = some c →
    i = j ∧ w.Throughout (ringMachine k patience) (fun v => v.cursor? e i = some c) actions
  tail_of_dequeue : ∀ i nonempty location spurious v completed,
    w'.posts i = some (.taking nonempty location) →
      w'.act (ringMachine k patience) (.step i spurious) = .ok (v, completed) →
        v.shared.tail = w'.shared.tail ∨ v.shared.tail.toNat ≤ v.shared.head.toNat
  head_le_tail : (∀ i nonempty location, w'.posts i ≠ some (.taking nonempty location)) →
    w'.shared.head.toNat ≤ w'.shared.tail.toNat

theorem Marches.neverBack (h : w.Marches) (hconcedes : ∀ action ∈ actions, action.Concedes)
    (hearly : w.Throughout (ringMachine k patience) (fun v => v.shared.Early) actions) :
    ∃ w', w.run (ringMachine k patience) actions = .ok w' ∧ w'.Marches ∧
      w.NeverBack patience actions w' := by
  obtain ⟨w', hrun, h', hhead, htail, hturn⟩ := h.run hconcedes hearly
  exact ⟨w', hrun, h', {
    head_le := hhead
    tail_le := htail
    turn_le := hturn
    once := fun e i j c => h.once hconcedes hearly hrun
    tail_of_dequeue := fun i nonempty location spurious v completed hpost hact =>
      h'.tail_of_dequeue (hearly.last hrun) hpost hact
    head_le_tail := fun hnone => h'.covered.head_le fun i location => hnone i false location }⟩

end World

/-! ## From the beginning -/

end CircularQueue.Interleaving

namespace CircularQueue.Ring

variable {k : Order} {t : Nat} {r : Ring k}

/-- The ring has just been made empty or been filled with a range of indices. -/
def Fresh (r : Ring k) : Prop :=
  withOrder k.exponent = .ok ⟨k, r⟩ ∨ ∃ (r₀ : Ring k) (start stop : Nat), r₀.fill start stop = .ok r

theorem Fresh.exists_holds (h : r.Fresh) : ∃ is, r.Holds is := by
  rcases h with hempty | ⟨r₀, start, stop, hfill⟩
  · rw [withOrder_exponent] at hempty
    cases hempty
    exact ⟨[], holds_empty k⟩
  · unfold fill at hfill
    split at hfill
    · split at hfill
      · rename_i hrange hstop
        cases hfill
        exact ⟨_, holds_fillRange r₀ hrange hstop⟩
      · cases hfill
    · cases hfill

end CircularQueue.Ring

namespace CircularQueue.Interleaving

variable {k : Order} {t : Nat} {r : Ring k}

theorem World.Marches.start (h : r.Fresh) (hr : r.Early) :
    (World.start r () t : RingWorld k t).Marches := by
  obtain ⟨is, hholds⟩ := h.exists_holds
  have hposts : (World.start r () t : RingWorld k t).posts = fun _ => none := by
    funext i
    rw [posts, get_start]
    rfl
  refine ⟨?_, ?_, ?_, ?_⟩ <;> rw [hposts]
  · exact hholds.attended hr
  · exact hholds.covered hr
  · exact fun e => Dealt.none _
  · rintro _ _ ⟨⟩

/-- Threads publish and take indices at a ring that has just been made, and their accesses fall in
any order. From any point of a schedule to any later one, as long as no cursor has passed `2 ^ 61`,
nothing goes back. -/
theorem cursors_never_back (hr : r.Fresh) (patience t : Nat)
    (before after : List (Action RingCall t))
    (hconcedes : ∀ action ∈ before ++ after, action.Concedes)
    (hearly : (World.start r () t).Throughout (ringMachine k patience) (fun w => w.shared.Early)
      (before ++ after)) :
    ∃ w w', (World.start r () t).run (ringMachine k patience) before = .ok w ∧
      w.run (ringMachine k patience) after = .ok w' ∧ w.NeverBack patience after w' := by
  obtain ⟨hbefore, hafter⟩ := List.forall_mem_append.1 hconcedes
  obtain ⟨w, hrun, hw, -⟩ := (World.Marches.start hr hearly.now).neverBack hbefore hearly.left
  obtain ⟨w', hrun', -, hnever⟩ := hw.neverBack hafter (hearly.right hrun)
  exact ⟨w, w', hrun, hrun', hnever⟩

/-- The first thread takes the only index, comes again and finds the tail behind it. -/
def overtaking : List (Action RingCall 2) :=
  .call 0 (.dequeue false) :: List.replicate 4 (.step 0 false) ++
    .call 0 (.dequeue false) :: List.replicate 5 (.step 0 false)

/-- The second thread moves the tail before the first one can drag it along. -/
def catchingUp : List (Action RingCall 2) :=
  .call 1 (.enqueue 0 true) :: .step 1 false :: List.replicate 3 (.step 0 false)

theorem cursors_never_back_catchingUp :
    ∃ r : Ring .one, r.Fresh ∧ (∀ action ∈ overtaking ++ catchingUp, action.Concedes) ∧
      (World.start r () 2).Throughout (ringMachine .one 0) (fun w => w.shared.Early)
        (overtaking ++ catchingUp) ∧
      ∃ w w', (World.start r () 2).run (ringMachine .one 0) overtaking = .ok w ∧
        w.run (ringMachine .one 0) catchingUp = .ok w' ∧ w.NeverBack 0 catchingUp w' := by
  have hfresh : ((Ring.empty .one).fillRange 0 1 (by decide) (by decide)).Fresh :=
    .inr ⟨.empty .one, 0, 1, rfl⟩
  have hconcedes : ∀ action ∈ overtaking ++ catchingUp, action.Concedes := by
    simp [overtaking, catchingUp, Action.Concedes, RingCall.Concedes]
  have hearly : (World.start ((Ring.empty .one).fillRange 0 1 (by decide) (by decide)) ()
      2).Throughout (ringMachine .one 0) (fun w => w.shared.Early) (overtaking ++ catchingUp) := by
    decide +kernel
  obtain ⟨w, w', hrun, hrun', hnever⟩ :=
    cursors_never_back hfresh 0 2 overtaking catchingUp hconcedes hearly
  exact ⟨_, hfresh, hconcedes, hearly, w, w', hrun, hrun', hnever⟩

end CircularQueue.Interleaving
