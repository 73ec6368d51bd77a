import CircularQueue.Proofs.Queue.Renaming

/-!
# What a queue shows in its life

A queue shows how it looks when it is new, an outcome and its new looks at each call, and an outcome
when it is given up. All of it together is the showing of a list of calls. Since renaming the values
commutes with each call, it commutes with showings: the answers and the values let go of are
renamed, one by one and in the same order, and the looks stay.
-/

namespace CircularQueue

variable {α β ρ τ : Type}

/-- The looks of a queue between two calls: its numbers, and how it and its parts are shown for
inspection. -/
structure View where
  capacity : Nat
  capacityMax : Nat
  size : Nat
  isEmpty : Bool
  renderings : List Rendering
deriving DecidableEq

/-- All that a queue shows: how it looks at first, what each call on it gives and how it looks
afterwards, and what it lets go of when it is given up. -/
structure Showing (α ρ : Type) where
  first : View
  calls : List (Outcome α ρ × View)
  last : Outcome α Unit
deriving DecidableEq

/-- The showing with its answers renamed by `g` and its values by `f`. -/
def Showing.map (f : α → β) (g : ρ → τ) (s : Showing α ρ) : Showing β τ :=
  ⟨s.first, s.calls.map (Prod.map (Outcome.map f g) id), s.last.map f id⟩

section

variable {σ σ' ι ι' : Type}

/-- What the calls of a list give, each with the looks of the queue after it, and the queue left in
the end. -/
def watch (step : σ → ι → Except Fault (Outcome α ρ × σ)) (view : σ → View) (q : σ) :
    List ι → Except Fault (List (Outcome α ρ × View) × σ)
  | [] => .ok ([], q)
  | call :: calls => do
    let (outcome, next) ← step q call
    let (rest, last) ← watch step view next calls
    return ((outcome, view next) :: rest, last)

/-- The showing of a list of calls on a queue that is given up afterwards. -/
def showing (step : σ → ι → Except Fault (Outcome α ρ × σ)) (view : σ → View)
    (release : σ → Except Fault (Outcome α Unit)) (q : σ) (calls : List ι) :
    Except Fault (Showing α ρ) := do
  let (seen, last) ← watch step view q calls
  let released ← release last
  return ⟨view q, seen, released⟩

variable {step : σ → ι → Except Fault (Outcome α ρ × σ)} {view : σ → View}
  {release : σ → Except Fault (Outcome α Unit)}
  {step' : σ' → ι' → Except Fault (Outcome β τ × σ')} {view' : σ' → View}
  {release' : σ' → Except Fault (Outcome β Unit)}
  {f : α → β} {g : ρ → τ} {rename : σ → σ'} {renameCall : ι → ι'}

theorem watch_map (hstep : ∀ q call, step' (rename q) (renameCall call) =
      (step q call).map (Prod.map (Outcome.map f g) rename))
    (hview : ∀ q, view' (rename q) = view q) (q : σ) (calls : List ι) :
    watch step' view' (rename q) (calls.map renameCall) =
      (watch step view q calls).map
        (Prod.map (List.map (Prod.map (Outcome.map f g) id)) rename) := by
  induction calls generalizing q with
  | nil => rfl
  | cons call calls ih =>
    refine bind_map_comm (hstep q call) ?_
    rintro ⟨outcome, next⟩
    refine bind_map_comm (ih next) ?_
    rintro ⟨rest, last⟩
    simp only [hview]
    rfl

theorem showing_map (hstep : ∀ q call, step' (rename q) (renameCall call) =
      (step q call).map (Prod.map (Outcome.map f g) rename))
    (hview : ∀ q, view' (rename q) = view q)
    (hrelease : ∀ q, release' (rename q) = (release q).map (Outcome.map f id))
    (q : σ) (calls : List ι) :
    showing step' view' release' (rename q) (calls.map renameCall) =
      (showing step view release q calls).map (Showing.map f g) := by
  refine bind_map_comm (watch_map hstep hview q calls) ?_
  rintro ⟨seen, last⟩
  refine bind_map_comm (hrelease last) fun released => ?_
  rw [hview]
  rfl

section

variable {run : σ → List ι → Except Fault (List (Outcome α ρ) × σ)}
  (hnil : ∀ q, run q [] = .ok ([], q))
  (hcons : ∀ q call calls, run q (call :: calls) = do
    let (outcome, q) ← step q call
    let (outcomes, q) ← run q calls
    return (outcome :: outcomes, q))

include hnil hcons

/-- A run is what is watched without the looks. -/
theorem run_eq_watch (view : σ → View) (q : σ) (calls : List ι) :
    run q calls = (watch step view q calls).map (Prod.map (List.map Prod.fst) id) := by
  induction calls generalizing q with
  | nil =>
    rw [hnil]
    rfl
  | cons call calls ih =>
    rw [hcons, watch]
    rcases step q call with fault | ⟨outcome, next⟩
    · rfl
    · simp only [bind, Except.bind, ih next]
      rcases watch step view next calls with fault | ⟨rest, last⟩ <;> rfl

/-- Where a run and the release after it have outcomes, so has the showing, and it shows them. -/
theorem showing_of_run (view : σ → View) {q last : σ} {calls : List ι}
    {outcomes : List (Outcome α ρ)} {released : Outcome α Unit}
    (hrun : run q calls = .ok (outcomes, last)) (hrelease : release last = .ok released) :
    ∃ shown, showing step view release q calls = .ok shown ∧
      shown.calls.map Prod.fst = outcomes ∧ shown.last = released := by
  rw [run_eq_watch hnil hcons view] at hrun
  rcases hwatch : watch step view q calls with fault | ⟨seen, left⟩
  · rw [hwatch] at hrun
    cases hrun
  · rw [hwatch] at hrun
    have hpair : (seen.map Prod.fst, left) = (outcomes, last) := Except.ok.inj hrun
    obtain ⟨rfl, rfl⟩ := Prod.mk.inj hpair
    refine ⟨⟨view q, seen, released⟩, ?_, rfl, rfl⟩
    rw [showing, hwatch]
    simp only [bind, Except.bind, hrelease]
    rfl

end

end

/-! ## The looks of both kinds of queue -/

def BoundedQueue.view {Q : Type → Type} [BoundedQueue Q] (q : Q α) : View where
  capacity := capacity q
  capacityMax := capacityMax q
  size := size q
  isEmpty := isEmpty q
  renderings := [rendering q]

theorem Renames.view {Q : Type → Type} [BoundedQueue Q] {f : α → β} {rename : Q α → Q β}
    (h : Renames f rename) (q : Q α) :
    BoundedQueue.view (rename q) = BoundedQueue.view q := by
  rw [BoundedQueue.view, BoundedQueue.view, h.capacity, h.capacityMax, h.size, h.isEmpty,
    h.rendering]

/-! What is left of data when the values are left out. -/

def Command.bare (command : Command α) : Command Unit := command.map fun _ => ()

def Answer.bare (answer : Answer α) : Answer Unit := answer.map fun _ => ()

def Queue.Request.bare (request : Queue.Request α) : Queue.Request Unit := request.map fun _ => ()

def Queue.Reply.bare (reply : Queue.Reply α) : Queue.Reply Unit := reply.map fun _ => ()

/-- The showing without the values, its answers left as `g` leaves them. -/
def Showing.bare (g : ρ → τ) (s : Showing α ρ) : Showing Unit τ := s.map (fun _ => ()) g

namespace Queue

variable {f : α → β} {q : Queue α}

/-- The looks of a queue in slots, with those of its two rings. -/
def view (q : Queue α) : View :=
  { BoundedQueue.view q with renderings := [q.rendering, q.free.rendering, q.allocated.rendering] }

/-- The showing of a list of requests. -/
def showing (q : Queue α) (requests : List (Request α)) : Except Fault (Showing α (Reply α)) :=
  CircularQueue.showing serve view release q requests

theorem showing_map (q : Queue α) (requests : List (Request α)) :
    (q.map f).showing (requests.map (Request.map f)) =
      (q.showing requests).map (Showing.map f (Reply.map f)) :=
  CircularQueue.showing_map serve_map (fun _ => rfl) release_map q requests

/-- A queue that was made shows what its requests and its release give. -/
theorem MadeFor.exists_showing {c : Capacity} (h : q.MadeFor c) (requests : List (Request α)) :
    ∃ shown, q.showing requests = .ok shown ∧
      q.serveAndRelease requests = .ok (shown.calls.map Prod.fst, shown.last) := by
  obtain ⟨outcomes, q', hrun, -, h'⟩ := h.keeps.serveAll requests
  obtain ⟨shown, hshown, hcalls, hlast⟩ :=
    showing_of_run (fun _ => rfl) (fun _ _ _ => rfl) view hrun h'.release
  refine ⟨shown, hshown, ?_⟩
  rw [hcalls, hlast]
  exact serveAndRelease_of_serveAll hrun h'.release

theorem MadeFor.map_eq {c : Capacity} {q' : Queue β} (h : q.MadeFor c) (h' : q'.MadeFor c)
    (f : α → β) : q.map f = q' := by
  rw [h.eq_cold, h'.eq_cold, cold_map]

/-- Requests that are the same without their values show the same without the values. -/
theorem MadeFor.bare_showing_eq {c : Capacity} {q' : Queue β} (h : q.MadeFor c)
    (h' : q'.MadeFor c) {requests : List (Request α)} {requests' : List (Request β)}
    (hbare : requests'.map Request.bare = requests.map Request.bare)
    {shown : Showing α (Reply α)} (hshown : q.showing requests = .ok shown) :
    ∃ shown', q'.showing requests' = .ok shown' ∧
      shown'.bare Reply.bare = shown.bare Reply.bare := by
  obtain ⟨shown', hshown', -⟩ := h'.exists_showing requests'
  have hqueues : q'.map (fun _ => ()) = q.map fun _ => () := by
    rw [h.eq_cold, h'.eq_cold, cold_map, cold_map]
  have hsame : Except.ok (shown'.bare Reply.bare) = Except.ok (shown.bare Reply.bare) := calc
    _ = (q'.showing requests').map (Showing.bare Reply.bare) := by rw [hshown']; rfl
    _ = (q'.map fun _ => ()).showing (requests'.map Request.bare) :=
      (showing_map q' requests').symm
    _ = (q.map fun _ => ()).showing (requests.map Request.bare) := by rw [hqueues, hbare]
    _ = (q.showing requests).map (Showing.bare Reply.bare) := showing_map q requests
    _ = _ := by rw [hshown]; rfl
  exact ⟨shown', hshown', Except.ok.inj hsame⟩

end Queue

namespace LockedQueue

variable {f : α → β} {q : LockedQueue α}

/-- The showing of a list of commands. -/
def showing (q : LockedQueue α) (commands : List (Command α)) :
    Except Fault (Showing α (Answer α)) :=
  CircularQueue.showing BoundedQueue.perform BoundedQueue.view BoundedQueue.release q commands

theorem showing_map (q : LockedQueue α) (commands : List (Command α)) :
    (q.map f).showing (commands.map (Command.map f)) =
      (q.showing commands).map (Showing.map f (Answer.map f)) :=
  CircularQueue.showing_map (renames_map f).perform (renames_map f).view (renames_map f).release q
    commands

theorem MadeFor.exists_showing {c : Capacity} (h : q.MadeFor c) (commands : List (Command α)) :
    ∃ shown q', q.showing commands = .ok shown ∧
      BoundedQueue.run q commands = .ok (shown.calls.map Prod.fst, q') ∧
      shown.last = q'.release := by
  obtain ⟨outcomes, q', hrun, -, -⟩ := realizes_keeps.run h.keeps commands
  have hrelease : BoundedQueue.release q' = .ok q'.release := rfl
  obtain ⟨shown, hshown, rfl, hlast⟩ :=
    showing_of_run (fun _ => rfl) (fun _ _ _ => rfl) BoundedQueue.view hrun hrelease
  exact ⟨shown, q', hshown, hrun, hlast⟩

theorem MadeFor.map_eq {c : Capacity} {q' : LockedQueue β} (h : q.MadeFor c) (h' : q'.MadeFor c)
    (f : α → β) : q.map f = q' := by
  rw [h.eq_ofCapacity, h'.eq_ofCapacity]
  rfl

theorem MadeFor.bare_showing_eq {c : Capacity} {q' : LockedQueue β} (h : q.MadeFor c)
    (h' : q'.MadeFor c) {commands : List (Command α)} {commands' : List (Command β)}
    (hbare : commands'.map Command.bare = commands.map Command.bare)
    {shown : Showing α (Answer α)} (hshown : q.showing commands = .ok shown) :
    ∃ shown', q'.showing commands' = .ok shown' ∧
      shown'.bare Answer.bare = shown.bare Answer.bare := by
  obtain ⟨shown', -, hshown', -⟩ := h'.exists_showing commands'
  have hqueues : q'.map (fun _ => ()) = q.map fun _ => () := by
    rw [h.eq_ofCapacity, h'.eq_ofCapacity]
    rfl
  have hsame : Except.ok (shown'.bare Answer.bare) = Except.ok (shown.bare Answer.bare) := calc
    _ = (q'.showing commands').map (Showing.bare Answer.bare) := by rw [hshown']; rfl
    _ = (q'.map fun _ => ()).showing (commands'.map Command.bare) :=
      (showing_map q' commands').symm
    _ = (q.map fun _ => ()).showing (commands.map Command.bare) := by rw [hqueues, hbare]
    _ = (q.showing commands).map (Showing.bare Answer.bare) := showing_map q commands
    _ = _ := by rw [hshown]; rfl
  exact ⟨shown', hshown', Except.ok.inj hsame⟩

end LockedQueue

/-- Values never show. Let the values in a list of requests be renamed by any function. Then a new
queue in slots shows the same as before, call by call, except that the values it gives and lets go
of are renamed: it is made or refused in the same way, with the same report, it takes and refuses
the same values, and its sizes, its errors, its size hints, its events and its renderings are the
same. A queue behind a lock does so too, and what is said of a refused value does not depend on it.
So two lists of requests that are the same without their values show the same without the values. -/
theorem values_never_show (f : α → β) :
    (∀ requested,
      Queue.tryCold requested =
        (Queue.tryCold requested).map (Prod.map (Outcome.map f id) (Queue.map f)) ∧
      Queue.tryNew requested =
        (Queue.tryNew requested).map (Prod.map (Outcome.map f id) (Queue.map f)) ∧
      Queue.newCold requested =
        (Queue.newCold requested).map (Prod.map (Outcome.map f id) (Queue.map f)) ∧
      Queue.new requested =
        (Queue.new requested).map (Prod.map (Outcome.map f id) (Queue.map f)) ∧
      LockedQueue.tryNew requested = (LockedQueue.tryNew requested).map (LockedQueue.map f) ∧
      LockedQueue.new requested = (LockedQueue.new requested).map (LockedQueue.map f)) ∧
    (∀ full : Full α,
      (full.map f).message = full.message ∧ (full.map f).rendering = full.rendering) ∧
    (∀ (c : Capacity) (q : Queue α) (q' : Queue β), q.MadeFor c → q'.MadeFor c →
      ∀ requests : List (Queue.Request α), ∃ shown,
        q.showing requests = .ok shown ∧
        q.serveAndRelease requests = .ok (shown.calls.map Prod.fst, shown.last) ∧
        q'.showing (requests.map (Queue.Request.map f)) =
          .ok (shown.map f (Queue.Reply.map f)) ∧
        ∀ requests' : List (Queue.Request β),
          requests'.map Queue.Request.bare = requests.map Queue.Request.bare →
          ∃ shown', q'.showing requests' = .ok shown' ∧
            shown'.bare Queue.Reply.bare = shown.bare Queue.Reply.bare) ∧
    (∀ (c : Capacity) (q : LockedQueue α) (q' : LockedQueue β), q.MadeFor c → q'.MadeFor c →
      ∀ commands : List (Command α), ∃ shown last,
        q.showing commands = .ok shown ∧
        BoundedQueue.run q commands = .ok (shown.calls.map Prod.fst, last) ∧
        shown.last = last.release ∧
        q'.showing (commands.map (Command.map f)) = .ok (shown.map f (Answer.map f)) ∧
        ∀ commands' : List (Command β), commands'.map Command.bare = commands.map Command.bare →
          ∃ shown', q'.showing commands' = .ok shown' ∧
            shown'.bare Answer.bare = shown.bare Answer.bare) := by
  refine ⟨fun requested => ?_, fun _ => ⟨rfl, rfl⟩, ?_, ?_⟩
  · exact ⟨Queue.tryCold_map f requested, Queue.tryNew_map f requested,
      Queue.newCold_map f requested, Queue.new_map f requested, LockedQueue.tryNew_map f requested,
      LockedQueue.new_map f requested⟩
  · intro c q q' hq hq' requests
    obtain ⟨shown, hshown, hrun⟩ := hq.exists_showing requests
    refine ⟨shown, hshown, hrun, ?_, fun requests' hbare => hq.bare_showing_eq hq' hbare hshown⟩
    rw [← hq.map_eq hq' f, Queue.showing_map, hshown]
    rfl
  · intro c q q' hq hq' commands
    obtain ⟨shown, last, hshown, hrun, hlast⟩ := hq.exists_showing commands
    refine ⟨shown, last, hshown, hrun, hlast, ?_,
      fun commands' hbare => hq.bare_showing_eq hq' hbare hshown⟩
    rw [← hq.map_eq hq' f, LockedQueue.showing_map, hshown]
    rfl

/-- Two new queues of three values show the same of `fewRequests`, the one with numbers and the
other with their parities, and the second shows no difference either if all its values are
`true`. -/
theorem values_never_show_fewRequests :
    ∃ (q : Queue Nat) (q' : Queue Bool) (shown : Showing Nat (Queue.Reply Nat))
        (shown' : Showing Bool (Queue.Reply Bool)),
      q.MadeFor ⟨3, by decide, by decide⟩ ∧ q'.MadeFor ⟨3, by decide, by decide⟩ ∧
      q.showing Queue.fewRequests = .ok shown ∧
      q'.showing (Queue.fewRequests.map (Queue.Request.map (· % 2 == 0))) =
        .ok (shown.map (· % 2 == 0) (Queue.Reply.map (· % 2 == 0))) ∧
      q'.showing (Queue.fewRequests.map (Queue.Request.map fun _ => true)) = .ok shown' ∧
      shown'.bare Queue.Reply.bare = shown.bare Queue.Reply.bare := by
  have hq : (Queue.cold ⟨3, by decide, by decide⟩ : Queue Nat).MadeFor
      ⟨3, by decide, by decide⟩ := Queue.madeFor_cold _
  have hq' : (Queue.cold ⟨3, by decide, by decide⟩ : Queue Bool).MadeFor
      ⟨3, by decide, by decide⟩ := Queue.madeFor_cold _
  obtain ⟨-, -, hqueues, -⟩ := values_never_show fun n : Nat => n % 2 == 0
  obtain ⟨shown, hshown, -, hrenamed, hbare⟩ := hqueues _ _ _ hq hq' Queue.fewRequests
  obtain ⟨shown', hshown', heq⟩ :=
    hbare (Queue.fewRequests.map (Queue.Request.map fun _ => true)) rfl
  exact ⟨_, _, shown, shown', hq, hq', hshown, hrenamed, hshown', heq⟩

end CircularQueue
