import CircularQueue.Proofs.Queue.Agreement

/-!
# What becomes of the values

A value that is passed to a queue comes back to a caller, as a removed or a drained value or inside
a refusal, or the queue lets go of it: at once if it is refused and not handed back, otherwise when
the queue is cleared, resized or given up. The books balance at each step: what was in the queue and
what is passed in is, up to order, what comes back, what is let go of and what is in the queue
afterwards. Added up over a run and the release at its end this accounts for every value once.

Run side by side on the same commands and given up in the end, a queue of either kind shows what the
bounded list does, so the two let go of the same values in the same order. A queue in slots also
reports how many there were.
-/

namespace CircularQueue

variable {α : Type}

/-! ## Values that go in and come back -/

/-- The value that a command passes to the queue, which for a copied value is the copy. -/
def Command.passed : Command α → List α
  | .tryEnqueue v | .enqueue v | .enqueueCloned v => [v]
  | _ => []

/-- The values that an answer takes out of the queue. -/
def Answer.returned : Answer α → List α
  | .removed value => value.toList
  | _ => []

/-- The value that an answer hands back without the queue having had it. -/
def Answer.handedBack : Answer α → List α
  | .refused full => [full.value]
  | _ => []

/-- The values that a queue lets go of when it answers a command: a refused value that is not handed
back, or the residents, all of them, oldest first, if it starts over. -/
def Command.letsGo : Command α → Answer α → List α → List α
  | .enqueue v, .accepted false, _ | .enqueueCloned v, .accepted false, _ => [v]
  | .clear, .done, residents | .setCapacity _, .done, residents => residents
  | _, _, _ => []

/-- What a queue in slots reports when it answers a command, given its capacity and the number of
its residents. -/
def Command.reports : Command α → Answer α → Nat → Nat → List Event
  | .clear, .done, _, residents => [.cleared residents]
  | .setCapacity requested, .done, old, _ => [.resizing old requested]
  | _, _, _, _ => []

namespace Queue

def Request.passed : Request α → List α
  | .command asked => asked.passed
  | .drain _ => []

def Reply.returned : Reply α → List α
  | .answer given => given.returned
  | .drained _ values => values.map Prod.fst

def Reply.handedBack : Reply α → List α
  | .answer given => given.handedBack
  | .drained _ _ => []

/-- A drain gives its values to the caller, so the queue lets go of none. -/
def Request.letsGo : Request α → Reply α → List α → List α
  | .command asked, .answer given, residents => asked.letsGo given residents
  | _, _, _ => []

def Request.reports : Request α → Reply α → Nat → Nat → List Event
  | .command asked, .answer given, capacity, residents => asked.reports given capacity residents
  | _, _, _, _ => []

end Queue

/-! ## The books of a bounded list -/

namespace BoundedList

theorem map_fst_front_eq_take (s : BoundedList α) (limit : Nat) :
    (s.front limit).map Prod.fst = s.values.take limit := by
  obtain ⟨c, vs⟩ := s
  induction limit generalizing vs with
  | zero => rfl
  | succ limit ih =>
    cases vs with
    | nil => rfl
    | cons v vs => exact congrArg (v :: ·) (ih vs)

theorem perform_letsGo (s : BoundedList α) (command : Command α) :
    (s.perform command).1.2 = command.letsGo (s.perform command).1.1 s.values := by
  cases command with
  | tryEnqueue v | enqueue v | enqueueCloned v =>
    rw [perform]
    rcases s.push v with ⟨_ | _, s'⟩ <;> rfl
  | setCapacity requested =>
    rw [perform]
    cases Capacity.ofNat? requested <;> rfl
  | _ => rfl

theorem perform_perm (s : BoundedList α) (command : Command α) :
    (s.values ++ command.passed).Perm ((s.perform command).1.1.returned ++
      (s.perform command).1.1.handedBack ++ (s.perform command).1.2 ++
      (s.perform command).2.values) := by
  cases command with
  | tryEnqueue v | enqueue v | enqueueCloned v =>
    rw [perform, push]
    split_ifs
    · exact .refl _
    · exact List.perm_append_comm
  | dequeue =>
    obtain ⟨c, vs⟩ := s
    cases vs with
    | nil => exact .refl _
    | cons v vs => exact .of_eq (List.append_nil _)
  | setCapacity requested =>
    rw [perform]
    cases Capacity.ofNat? requested with
    | ok c => exact .refl _
    | error reason => exact .of_eq (List.append_nil _)
  | clear => exact .refl _
  | size | isEmpty | capacity | capacityMax => exact .of_eq (List.append_nil _)

theorem serve_letsGo (s : BoundedList α) (request : Queue.Request α) :
    (s.serve request).1.2 = request.letsGo (s.serve request).1.1 s.values := by
  cases request with
  | command command => exact s.perform_letsGo command
  | drain limit => rfl

theorem serve_perm (s : BoundedList α) (request : Queue.Request α) :
    (s.values ++ request.passed).Perm ((s.serve request).1.1.returned ++
      (s.serve request).1.1.handedBack ++ (s.serve request).1.2 ++ (s.serve request).2.values) := by
  cases request with
  | command command => exact s.perform_perm command
  | drain limit =>
    have htaken := s.map_fst_front_eq_take (limit.getD s.values.length)
    refine .of_eq ?_
    simp only [serve, Queue.Request.passed, Queue.Reply.returned, Queue.Reply.handedBack, htaken,
      drop, List.append_nil, List.take_append_drop]

/-- The books of a run: what was there and what is passed in comes back, is let go of or is left. -/
theorem serveAll_perm (s : BoundedList α) (requests : List (Queue.Request α)) :
    (s.values ++ requests.flatMap Queue.Request.passed).Perm
      ((s.serveAll requests).1.flatMap (·.1.returned) ++
        (s.serveAll requests).1.flatMap (·.1.handedBack) ++
        (s.serveAll requests).1.flatMap (·.2) ++ (s.serveAll requests).2.values) := by
  classical
  induction requests generalizing s with
  | nil => exact .of_eq (List.append_nil _)
  | cons request requests ih =>
    have hfirst := List.perm_iff_count.1 (s.serve_perm request)
    have hrest := List.perm_iff_count.1 (ih (s.serve request).2)
    rw [List.perm_iff_count]
    intro v
    have hfirst := hfirst v
    have hrest := hrest v
    simp only [serveAll, List.flatMap_cons, List.count_append] at hfirst hrest ⊢
    omega

/-- What a queue in slots reports at each request of a list, if it keeps the values of `s`. -/
def reports (s : BoundedList α) : List (Queue.Request α) → List (List Event)
  | [] => []
  | request :: requests =>
    let first := s.serve request
    request.reports first.1.1 s.capacity.val s.values.length :: first.2.reports requests

/-- Commands are served as the requests they are. -/
theorem serveAll_map_command (s : BoundedList α) (commands : List (Command α)) :
    s.serveAll (commands.map .command) =
      ((s.run commands).1.map fun shown => (.answer shown.1, shown.2), (s.run commands).2) := by
  induction commands generalizing s with
  | nil => rfl
  | cons command commands ih =>
    simp only [List.map_cons, serveAll, serve, run, ih]

theorem run_perm (s : BoundedList α) (commands : List (Command α)) :
    (s.values ++ commands.flatMap Command.passed).Perm
      ((s.run commands).1.flatMap (·.1.returned) ++ (s.run commands).1.flatMap (·.1.handedBack) ++
        (s.run commands).1.flatMap (·.2) ++ (s.run commands).2.values) := by
  have hserve := s.serveAll_perm (commands.map .command)
  rw [serveAll_map_command] at hserve
  simp only [List.flatMap_map] at hserve
  exact hserve

end BoundedList

/-! ## Queues of both kinds -/

namespace Queue

variable {q : Queue α} {s : BoundedList α}

theorem Keeps.perform_events (h : q.Keeps s) {command : Command α} {outcome : Outcome α (Answer α)}
    {q' : Queue α} (heq : BoundedQueue.perform q command = .ok (outcome, q')) :
    outcome.events = command.reports outcome.answer q.capacity.val s.values.length := by
  cases command with
  | tryEnqueue v =>
    obtain ⟨q₁, -, hput⟩ := realizes_keeps.tryEnqueue v h
    rw [BoundedQueue.perform, hput] at heq
    cases hroom : (s.push v).1 <;> rw [hroom] at heq <;> cases heq <;> rfl
  | enqueue v | enqueueCloned v =>
    obtain ⟨q₁, -, hput⟩ := realizes_keeps.enqueue h v
    simp only [BoundedQueue.perform, BoundedQueue.enqueueCloned] at heq
    rw [hput] at heq
    cases hroom : (s.push v).1 <;> rw [hroom] at heq <;> cases heq <;> rfl
  | dequeue =>
    obtain ⟨q₁, -, htake⟩ := realizes_keeps.dequeue h
    rw [BoundedQueue.perform, htake] at heq
    cases heq
    rfl
  | clear =>
    have hclear : BoundedQueue.clear q = _ := h.clear
    rw [BoundedQueue.perform, hclear] at heq
    cases heq
    rfl
  | setCapacity requested =>
    cases hc : Capacity.ofNat? requested with
    | ok c =>
      have hresize : BoundedQueue.setCapacity q requested = _ := h.setCapacity_ok hc
      rw [BoundedQueue.perform, hresize] at heq
      cases heq
      rw [← Capacity.val_of_ofNat? hc, h.1]
      rfl
    | error reason =>
      have hresize : BoundedQueue.setCapacity q requested = _ := Keeps.setCapacity_error hc
      rw [BoundedQueue.perform, hresize] at heq
      cases heq
      rfl
  | size | isEmpty | capacity | capacityMax =>
    cases heq
    rfl

theorem Keeps.serve_events (h : q.Keeps s) {request : Request α} {outcome : Outcome α (Reply α)}
    {q' : Queue α} (heq : q.serve request = .ok (outcome, q')) :
    outcome.events = request.reports outcome.answer q.capacity.val s.values.length := by
  cases request with
  | command command =>
    obtain ⟨made, q₁, hperform, -, -⟩ := realizes_keeps.perform h command
    rw [Queue.serve, hperform] at heq
    cases heq
    exact h.perform_events hperform
  | drain limit =>
    cases limit with
    | none =>
      obtain ⟨q₁, -, hdrain⟩ := h.drain
      simp only [Queue.serve, hdrain] at heq
      cases heq
      rfl
    | some limit =>
      obtain ⟨q₁, -, hdrain⟩ := h.drainUpTo limit
      simp only [Queue.serve, hdrain] at heq
      cases heq
      rfl

/-- A request lets go of what it should and reports it. -/
theorem Keeps.serve_letsGo (h : q.Keeps s) (request : Request α) :
    ∃ outcome q', q.serve request = .ok (outcome, q') ∧
      outcome.dropped = request.letsGo outcome.answer q.residents ∧
      outcome.events = request.reports outcome.answer q.capacity.val q.residents.length := by
  obtain ⟨outcome, q', hserve, hseen, -⟩ := h.serve request
  obtain ⟨hanswer, hdropped⟩ := Prod.mk.inj hseen
  rw [h.residents_eq]
  refine ⟨outcome, q', hserve, ?_, h.serve_events hserve⟩
  rw [hdropped, hanswer]
  exact s.serve_letsGo request

/-- A run reports what its requests call for, one after the other. -/
theorem Keeps.serveAll_events (h : q.Keeps s) {requests : List (Request α)}
    {outcomes : List (Outcome α (Reply α))} {q' : Queue α}
    (heq : q.serveAll requests = .ok (outcomes, q')) :
    outcomes.map Outcome.events = s.reports requests := by
  induction requests generalizing q s outcomes with
  | nil =>
    cases heq
    rfl
  | cons request requests ih =>
    obtain ⟨outcome, q₁, hserve, hseen, h₁⟩ := h.serve request
    obtain ⟨rest, q₂, hrun, -, -⟩ := h₁.serveAll requests
    have hanswer : outcome.answer = (s.serve request).1.1 := congrArg Prod.fst hseen
    rw [Queue.serveAll, hserve] at heq
    simp only [bind, Except.bind, hrun] at heq
    cases heq
    rw [List.map_cons, h.serve_events hserve, ih h₁ hrun, hanswer, h.1]
    rfl

/-- A queue that is given up lets go of its residents and reports them if there are any. -/
theorem Keeps.release (h : q.Keeps s) :
    q.release = .ok ⟨(), s.values,
      if s.values.isEmpty then [] else [.residual s.values.length]⟩ := by
  obtain ⟨q', -, hdrain⟩ := h.drain
  have hmap := s.map_fst_front
  have hempty : (s.front s.values.length).isEmpty = s.values.isEmpty := by
    rw [← List.isEmpty_map, hmap]
  rw [Queue.release, hdrain]
  simp only [bind, Except.bind, hmap, hempty, s.length_front]
  rfl

end Queue

/-- Each value that is passed to a queue in a run comes back as a removed or drained value, comes
back inside a refusal, or is let go of, once, by the end of the queue. The run answers, lets go of
and leaves what the bounded list does. At each point of it the next request lets go of a value only
if it refuses it, or of all residents, oldest first, if it starts over, and a queue in slots reports
their number; the release lets go of the residents that remain.

A queue behind a lock that gets the same commands shows the same at each of them, and when both are
given up they let go of the same values in the same order. So its books balance too. -/
theorem fates_of_values {c : Capacity} {q : Queue α} (hq : q.MadeFor c) {l : LockedQueue α}
    (hl : l.MadeFor c) :
    (∀ requests : List (Queue.Request α), ∃ outcomes q' last,
      q.serveAll requests = .ok (outcomes, q') ∧
      q.serveAndRelease requests = .ok (outcomes, last) ∧
      outcomes.map Outcome.seen = ((BoundedList.empty c).serveAll requests).1 ∧
      outcomes.map Outcome.events = (BoundedList.empty c).reports requests ∧
      q'.residents = ((BoundedList.empty c).serveAll requests).2.values ∧
      (requests.flatMap Queue.Request.passed).Perm
        (outcomes.flatMap (·.answer.returned) ++ outcomes.flatMap (·.answer.handedBack) ++
          (outcomes.flatMap Outcome.dropped ++ last.dropped)) ∧
      (∀ request, ∃ outcome q'', q'.serve request = .ok (outcome, q'') ∧
        outcome.dropped = request.letsGo outcome.answer q'.residents ∧
        outcome.events = request.reports outcome.answer q'.capacity.val q'.residents.length) ∧
      last.dropped = q'.residents ∧
      last.events = if q'.residents.isEmpty then [] else [.residual q'.residents.length]) ∧
    ∀ commands : List (Command α), ∃ outcomes outcomes' q' l' last,
      BoundedQueue.run q commands = .ok (outcomes, q') ∧
      BoundedQueue.run l commands = .ok (outcomes', l') ∧
      outcomes.map Outcome.seen = outcomes'.map Outcome.seen ∧
      outcomes'.map Outcome.seen = ((BoundedList.empty c).run commands).1 ∧
      q'.release = .ok last ∧
      last.dropped = l'.release.dropped ∧
      l'.release.dropped = ((BoundedList.empty c).run commands).2.values ∧
      (commands.flatMap Command.passed).Perm
        (outcomes'.flatMap (·.answer.returned) ++ outcomes'.flatMap (·.answer.handedBack) ++
          (outcomes'.flatMap Outcome.dropped ++ l'.release.dropped)) ∧
      (∀ command, ∃ outcome l'', BoundedQueue.perform l' command = .ok (outcome, l'') ∧
        outcome.dropped = command.letsGo outcome.answer l'.toList) ∧
      l'.release.dropped = l'.toList := by
  constructor
  · intro requests
    obtain ⟨outcomes, q', hrun, hseen, h'⟩ := hq.keeps.serveAll requests
    have hrelease := h'.release
    have hbooks := (BoundedList.empty c).serveAll_perm requests
    rw [← h'.residents_eq] at hrelease hbooks
    refine ⟨outcomes, q', _, hrun, Queue.serveAndRelease_of_serveAll hrun hrelease, hseen,
      hq.keeps.serveAll_events hrun, h'.residents_eq, ?_, h'.serve_letsGo, rfl, rfl⟩
    rw [← hseen] at hbooks
    simp only [List.flatMap_map, List.append_assoc] at hbooks ⊢
    exact hbooks
  · intro commands
    obtain ⟨outcomes, outcomes', q', l', hrun, hrun', halike, hseen, h', hl'⟩ :=
      Queue.realizes_keeps.run_alike LockedQueue.realizes_keeps hq.keeps hl.keeps commands
    have hbooks := (BoundedList.empty c).run_perm commands
    refine ⟨outcomes, outcomes', q', l', _, hrun, hrun', halike, hseen, h'.release, hl'.2.symm,
      hl'.2, ?_, ?_, rfl⟩
    · rw [← hseen, ← hl'.2] at hbooks
      simp only [List.flatMap_map, List.append_assoc] at hbooks ⊢
      exact hbooks
    · intro command
      obtain ⟨outcome, l'', hperform, hshown, -⟩ := LockedQueue.realizes_keeps.perform hl' command
      obtain ⟨hanswer, hdropped⟩ := Prod.mk.inj hshown
      refine ⟨outcome, l'', hperform, ?_⟩
      rw [hl'.2, hdropped, hanswer]
      exact BoundedList.perform_letsGo _ command

/-- Commands that resize a queue of three values, fill it and append to it when it is full. -/
def fewCommands : List (Command Nat) :=
  [.enqueue 1, .tryEnqueue 2, .setCapacity 1, .enqueue 3, .enqueueCloned 4]

/-- Nine values go through a queue of three: three are removed or drained, one is handed back, and
five are let go of, by a resize, by a clear, by a refusal and in the end. Four go through both kinds
of queue, which let go of two when they are resized, of the one that they refuse and of the one that
is left in the end. -/
theorem fates_of_values_fewRequests :
    ∃ (q : Queue Nat) (l : LockedQueue Nat), q.MadeFor ⟨3, by decide, by decide⟩ ∧
      l.MadeFor ⟨3, by decide, by decide⟩ ∧
      (∃ outcomes, q.serveAndRelease Queue.fewRequests =
          .ok (outcomes, ⟨(), [8], [.residual 1]⟩) ∧
        outcomes.map Outcome.seen =
          [(.answer .admitted, []), (.answer (.accepted true), []), (.answer (.accepted true), []),
            (.answer (.refused ⟨4⟩), []), (.answer (.removed (some 1)), []),
            (.drained (0, some 2) [(2, (0, some 1))], []), (.answer (.accepted true), []),
            (.answer .done, [3, 5]), (.answer (.rejected .zero), []), (.drained (0, some 0) [], []),
            (.answer (.accepted true), []), (.answer .done, [6]), (.answer (.accepted true), []),
            (.answer (.accepted true), []), (.answer (.accepted false), [9]),
            (.answer (.removed (some 7)), [])] ∧
        outcomes.flatMap Outcome.events = [.resizing 3 2, .cleared 1] ∧
        [1, 2, 3, 4, 5, 6, 7, 8, 9].Perm
          (outcomes.flatMap (·.answer.returned) ++ outcomes.flatMap (·.answer.handedBack) ++
            (outcomes.flatMap Outcome.dropped ++ [8]))) ∧
      ∃ outcomes outcomes' q' l' last,
        BoundedQueue.run q fewCommands = .ok (outcomes, q') ∧
        BoundedQueue.run l fewCommands = .ok (outcomes', l') ∧
        outcomes.map Outcome.seen = outcomes'.map Outcome.seen ∧
        outcomes'.map Outcome.seen = [(.accepted true, []), (.admitted, []), (.done, [1, 2]),
          (.accepted true, []), (.accepted false, [4])] ∧
        q'.release = .ok last ∧ last.dropped = [3] ∧ l'.release.dropped = [3] ∧
        [1, 2, 3, 4].Perm
          (outcomes'.flatMap (·.answer.returned) ++ outcomes'.flatMap (·.answer.handedBack) ++
            (outcomes'.flatMap Outcome.dropped ++ [3])) := by
  have hq : (Queue.cold ⟨3, by decide, by decide⟩ : Queue Nat).MadeFor
      ⟨3, by decide, by decide⟩ := Queue.madeFor_cold _
  have hl : (LockedQueue.ofCapacity ⟨3, by decide, by decide⟩ : LockedQueue Nat).MadeFor
      ⟨3, by decide, by decide⟩ := .inl (LockedQueue.tryNew_val _)
  obtain ⟨hqueue, hboth⟩ := fates_of_values hq hl
  refine ⟨_, _, hq, hl, ?_, ?_⟩
  · obtain ⟨outcomes, q', ⟨⟨⟩, dropped, events⟩, -, hrun, hseen, hevents, hleft, hperm, -, hdropped,
      hlast⟩ := hqueue Queue.fewRequests
    have hresidents : q'.residents = [8] := hleft
    simp only [hresidents] at hdropped hlast
    subst hdropped hlast
    refine ⟨outcomes, hrun, hseen, ?_, hperm⟩
    rw [List.flatMap_def, hevents]
    rfl
  · obtain ⟨outcomes, outcomes', q', l', last, hrun, hrun', halike, hseen, hrelease, hsame, hleft,
      hperm, -⟩ := hboth fewCommands
    have hthree : l'.release.dropped = [3] := hleft
    rw [hthree] at hsame hperm
    exact ⟨outcomes, outcomes', q', l', last, hrun, hrun', halike, hseen, hrelease, hsame, hthree,
      hperm⟩

end CircularQueue
