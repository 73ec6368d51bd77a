import CircularQueue.Interleaving.Plans
import CircularQueue.Proofs.Interleaving.Exclusion

/-!
# No count is lost

Threads add one to a number under a mutex, a round at a time: they lock the mutex, read the number,
write it back increased and drop the guard. A thread that has read the number and not written it has
the guard, so no other thread writes meanwhile and what it has read is still the number. So each
write adds one, and the number and the rounds to come always make the same sum.
-/

namespace CircularQueue.Interleaving

/-- The call is one that starts at the location or comes to it. -/
def MutexCall.LeadsTo {α : Type} : MutexCall α → MutexLocation α → Prop
  | .lock, location => location = .swap ∨ location = .poll
  | .tryLock, location => location = .swapOnce
  | .read, location => location = .readData
  | .write data, location => location = .writeData data
  | .release, location => location = .clearBit
  | .leak, _ => False

namespace TallyStage

/-- How many times the thread is still to write the number. -/
def remaining : TallyStage → Nat
  | .resting rounds | .releasing rounds => rounds
  | .reading rounds | .writing rounds _ => rounds + 1

/-- The guards of a thread at the stage. -/
def hand : TallyStage → Guards
  | .resting _ => .none
  | .reading _ | .writing .. | .releasing _ => ⟨1, 0⟩

/-- The thread is at the stage or in the call of the stage. -/
def Fits (stage : TallyStage) : Thread Guards (MutexCall Int) (MutexLocation Int) → Prop
  | .idle g => g = stage.hand
  | .busy g call location => g = stage.hand ∧ stage.next = some call ∧ call.LeadsTo location

theorem Fits.hand_eq {stage : TallyStage}
    {thread : Thread Guards (MutexCall Int) (MutexLocation Int)} (h : stage.Fits thread) :
    thread.hand = stage.hand := by
  rcases thread with g | ⟨g, call, location⟩
  · exact h
  · exact h.1

/-- The call of a stage is one that a thread at the stage can make. -/
theorem exists_start {stage : TallyStage} {call : MutexCall Int} (h : stage.next = some call) :
    ∃ location, startMutexCall stage.hand call = some (.goto location) ∧
      stage.Fits (.busy stage.hand call location) := by
  cases stage with
  | resting rounds =>
    cases rounds <;> cases h
    exact ⟨.swap, rfl, rfl, rfl, .inl rfl⟩
  | reading | writing | releasing =>
    cases h
    exact ⟨_, rfl, rfl, rfl, rfl⟩

/-- What one step does to the number and to the stage of the thread. -/
structure Advances (m m' : SpinMutex Int) (stage stage' : TallyStage) : Prop where
  total : m'.data + stage'.remaining = m.data + stage.remaining
  seen : ∀ rounds seen, stage' = .writing rounds seen → seen = m'.data
  data : m'.data = m.data ∨ stage.hand = ⟨1, 0⟩

/-- The stage after the call of the stage has gone on to `next`. -/
def after {γ : Type} (stage : TallyStage) : Next γ (MutexAnswer Int × Guards) → TallyStage
  | .goto _ => stage
  | .answer (answer, _) => stage.note answer

theorem advances_step {m m' : SpinMutex Int} {stage : TallyStage} {call : MutexCall Int}
    {location : MutexLocation Int} {next : Next (MutexLocation Int) (MutexAnswer Int × Guards)}
    (hfits : stage.Fits (.busy stage.hand call location))
    (hseen : ∀ rounds seen, stage = .writing rounds seen → seen = m.data)
    (hstep : stepMutexCall m stage.hand location = (m', next)) :
    Advances m m' stage (stage.after next) ∧
      (stage.after next).Fits (Thread.after stage.hand call next) := by
  obtain ⟨⟨bit⟩, data⟩ := m
  obtain ⟨-, hnext, hlocation⟩ := hfits
  cases stage with
  | resting rounds =>
    rcases rounds with _ | rounds
    · cases hnext
    · cases hnext
      rcases hlocation with rfl | rfl <;> cases bit <;> cases hstep
      · exact ⟨⟨rfl, by rintro _ _ ⟨⟩, .inl rfl⟩, rfl⟩
      · exact ⟨⟨rfl, by rintro _ _ ⟨⟩, .inl rfl⟩, rfl, rfl, .inr rfl⟩
      · exact ⟨⟨rfl, by rintro _ _ ⟨⟩, .inl rfl⟩, rfl, rfl, .inl rfl⟩
      · exact ⟨⟨rfl, by rintro _ _ ⟨⟩, .inl rfl⟩, rfl, rfl, .inr rfl⟩
  | reading rounds =>
    cases hnext
    cases hlocation
    cases hstep
    exact ⟨⟨rfl, by rintro _ _ ⟨⟩; rfl, .inl rfl⟩, rfl⟩
  | writing rounds seen =>
    cases hnext
    cases hlocation
    cases hstep
    cases hseen rounds seen rfl
    refine ⟨⟨?_, by rintro _ _ ⟨⟩, .inr rfl⟩, rfl⟩
    simp only [after, note, remaining]
    omega
  | releasing rounds =>
    cases hnext
    cases hlocation
    cases hstep
    exact ⟨⟨rfl, by rintro _ _ ⟨⟩, .inl rfl⟩, rfl⟩

end TallyStage

/-- Threads that count under a mutex. -/
abbrev TallyCrew (t : Nat) :=
  Crew (SpinMutex Int) Guards (MutexCall Int) (MutexLocation Int) (MutexAnswer Int)
    (Vector TallyStage t) t

variable {t : Nat}

/-- What holds between any two accesses: the number and the writes to come make up `total`. -/
structure Crew.Tallying (total : Int) (crew : TallyCrew t) : Prop where
  guarded : crew.world.Guarded
  fits : ∀ i, (crew.account.get i).Fits (crew.world.threads.get i)
  seen : ∀ i rounds seen, crew.account.get i = .writing rounds seen →
    seen = crew.world.shared.data
  total_eq : crew.world.shared.data + (∑ i, (crew.account.get i).remaining : Nat) = total

namespace Crew.Tallying

variable {total : Int} {crew : TallyCrew t}

theorem start (initial : Int) (t rounds : Nat) :
    (tallyCrew (.new initial) t rounds).Tallying (initial + t * rounds) := by
  have hstage (i : Fin t) :
      (Vector.replicate t (TallyStage.resting rounds)).get i = .resting rounds :=
    Vector.getElem_replicate i.isLt
  exact {
    guarded := World.Guarded.start initial
    fits := by
      intro i
      simp only [tallyCrew, World.get_start, hstage]
      rfl
    seen := by
      intro i rounds' seen hat
      simp only [tallyCrew, hstage] at hat
      cases hat
    total_eq := by
      simp only [tallyCrew, hstage]
      simp [TallyStage.remaining, World.start, SpinMutex.new] }

/-- Only the thread that has the guard changes the number. -/
theorem data_eq (h : crew.Tallying total) {m : SpinMutex Int} {i j : Fin t} (hij : j ≠ i)
    {stage : TallyStage} (hadvances : TallyStage.Advances crew.world.shared m
      (crew.account.get i) stage) {rounds : Nat} {seen : Int}
    (hat : crew.account.get j = .writing rounds seen) : m.data = crew.world.shared.data := by
  have hi := (h.fits i).hand_eq
  have hj := (h.fits j).hand_eq
  rw [hat] at hj
  obtain ⟨-, hothers⟩ := h.guarded.guardedBy (i := j) (by rw [hj]; exact Nat.one_pos)
  rcases hadvances.data with hdata | hguard
  · exact hdata
  · rw [← hi, hothers i hij.symm] at hguard
    cases hguard

theorem move_step (h : crew.Tallying total) {i : Fin t} {call : MutexCall Int}
    {location : MutexLocation Int} {m : SpinMutex Int}
    {next : Next (MutexLocation Int) (MutexAnswer Int × Guards)}
    (hat : crew.world.threads.get i = .busy (crew.account.get i).hand call location)
    (hstep : stepMutexCall crew.world.shared (crew.account.get i).hand location = (m, next))
    {account : Vector TallyStage t}
    (haccount : account.get = Function.update crew.account.get i ((crew.account.get i).after next))
    (hguarded : (World.moved m crew.world.threads crew.world.history i (crew.account.get i).hand
      call next).1.Guarded) :
    (⟨(World.moved m crew.world.threads crew.world.history i (crew.account.get i).hand
      call next).1, account⟩ : TallyCrew t).Tallying total := by
  have hfits := h.fits i
  rw [hat] at hfits
  obtain ⟨hadvances, hafter⟩ := TallyStage.advances_step hfits (h.seen i) hstep
  exact {
    guarded := hguarded
    fits := by
      refine World.forall_get_moved (P := fun j thread => (account.get j).Fits thread) ?_ ?_
      · rw [haccount, Function.update_self]
        exact hafter
      · intro j hj
        rw [haccount, Function.update_of_ne hj]
        exact h.fits j
    seen := by
      intro j rounds seen hj
      rw [World.shared_moved]
      simp only [haccount] at hj
      by_cases hij : j = i
      · subst hij
        rw [Function.update_self] at hj
        exact hadvances.seen rounds seen hj
      · rw [Function.update_of_ne hij] at hj
        rw [h.data_eq hij hadvances hj]
        exact h.seen j rounds seen hj
    total_eq := by
      have hsum := World.sum_update_add (fun j => (crew.account.get j).remaining) i
        ((crew.account.get i).after next).remaining
      have hbefore := h.total_eq
      have hmove := hadvances.total
      have hnew : (∑ j, (account.get j).remaining) =
          ∑ j, Function.update (fun j => (crew.account.get j).remaining) i
            ((crew.account.get i).after next).remaining j := by
        rw [haccount]
        exact Finset.sum_congr rfl fun j _ =>
          congrFun (Function.comp_update TallyStage.remaining crew.account.get i _) j
      rw [World.shared_moved]
      simp only [hnew]
      omega }

theorem move_start (h : crew.Tallying total) {i : Fin t} {call : MutexCall Int}
    {location : MutexLocation Int}
    (hfits : (crew.account.get i).Fits (.busy (crew.account.get i).hand call location))
    (hguarded : (World.moved crew.world.shared crew.world.threads crew.world.history i
      (crew.account.get i).hand call (.goto location)).1.Guarded) :
    (⟨(World.moved crew.world.shared crew.world.threads crew.world.history i
      (crew.account.get i).hand call (.goto location)).1, crew.account⟩ :
        TallyCrew t).Tallying total where
  guarded := hguarded
  fits := World.forall_get_moved (P := fun j thread => (crew.account.get j).Fits thread) hfits
    fun j _ => h.fits j
  seen := h.seen
  total_eq := h.total_eq

/-- Whoever moves, the threads go on with their rounds. -/
theorem move (h : crew.Tallying total) (i : Fin t) (spurious : Bool) :
    ∃ crew', crew.move (mutexMachine Int) (tally t) i spurious = .ok crew' ∧
      crew'.Tallying total := by
  have hfits := h.fits i
  rcases hat : crew.world.threads.get i with g | ⟨g, call, location⟩
  · rw [hat] at hfits
    cases (show g = (crew.account.get i).hand from hfits)
    rcases hnext : (crew.account.get i).next with _ | call
    · refine ⟨crew, ?_, h⟩
      simp [Crew.move, hat, tally, hnext]
    · obtain ⟨location, hstart, hfits'⟩ := TallyStage.exists_start hnext
      have hact : crew.world.act (mutexMachine Int) (.call i call) =
          .ok (World.moved crew.world.shared crew.world.threads crew.world.history i
            (crew.account.get i).hand call (.goto location)) := by
        simp [World.act, hat, mutexMachine, hstart]
      obtain ⟨r, hr, hguarded⟩ := h.guarded.act (.call i call)
      cases hact.symm.trans hr
      refine ⟨_, ?_, h.move_start hfits' hguarded⟩
      simp only [Crew.move, hat, tally, hnext, Option.map_some, hact, World.moved]
  · rw [hat] at hfits
    cases hfits.1
    rcases hstep : stepMutexCall crew.world.shared (crew.account.get i).hand location with ⟨m, next⟩
    have hact : crew.world.act (mutexMachine Int) (.step i spurious) =
        .ok (World.moved m crew.world.threads crew.world.history i (crew.account.get i).hand call
          next) := by
      simp [World.act, hat, mutexMachine, hstep]
    obtain ⟨r, hr, hguarded⟩ := h.guarded.act (.step i spurious)
    cases hact.symm.trans hr
    rcases next with location' | ⟨answer, g⟩
    · refine ⟨_, ?_, h.move_step hat hstep (Function.update_eq_self i _).symm hguarded⟩
      simp only [Crew.move, hat, hact, World.moved]
    · refine ⟨_, ?_, h.move_step hat hstep (get_set crew.account i _) hguarded⟩
      simp only [Crew.move, hat, hact, World.moved]
      rfl

theorem run (h : crew.Tallying total) (schedule : List (Fin t × Bool)) :
    ∃ crew', crew.run (mutexMachine Int) (tally t) schedule = .ok crew' ∧
      crew'.Tallying total := by
  induction schedule generalizing crew with
  | nil => exact ⟨crew, rfl, h⟩
  | cons turn schedule ih =>
    obtain ⟨crew₁, hmove, h₁⟩ := h.move turn.1 turn.2
    obtain ⟨crew₂, hrun, h₂⟩ := ih h₁
    exact ⟨crew₂, by rw [Crew.run, hmove]; exact hrun, h₂⟩

/-- Once all rounds are over the lock is free and the number is the total. -/
theorem shared_eq (h : crew.Tallying total) (hdone : crew.isDone (tally t) = true) :
    crew.world.shared = .new total := by
  rw [Crew.isDone, Bool.and_eq_true, List.all_eq_true] at hdone
  have hstage (i : Fin t) : crew.account.get i = .resting 0 := by
    have hnext := hdone.2 i (List.mem_finRange i)
    simp only [tally] at hnext
    rcases hat : crew.account.get i with (_ | rounds) | _ | _ | _
    · rfl
    all_goals rw [hat] at hnext; cases hnext
  have hbit : crew.world.shared.bit = 0 := by
    rw [← h.guarded.guards_eq]
    refine Finset.sum_eq_zero fun i _ => ?_
    rw [(h.fits i).hand_eq, hstage]
    rfl
  have htotal := h.total_eq
  simp only [hstage, TallyStage.remaining, Finset.sum_const_zero] at htotal
  rcases hshared : crew.world.shared with ⟨⟨bit⟩, data⟩
  rw [hshared] at hbit htotal
  cases bit
  · rw [Nat.cast_zero, Int.add_zero] at htotal
    exact congrArg (SpinMutex.mk ⟨false⟩) htotal
  · cases hbit

end Crew.Tallying

/-- Whatever threads do at a new mutex, and in whatever order their accesses fall, there is one
guard at most, and only the thread that has it reads or writes the data. So when threads have added
one so many times each, under the mutex, the number has grown by as much and the lock is free. -/
theorem excludes_and_counts (t : Nat) :
    (∀ (α : Type) (data : α) (actions : List (Action (MutexCall α) t)),
      ∃ w, (World.start (.new data) .none t).run (mutexMachine α) actions = .ok w ∧ w.Excludes) ∧
    ∀ (initial : Int) (rounds : Nat) (schedule : List (Fin t × Bool)),
      ∃ crew, (tallyCrew (.new initial) t rounds).run (mutexMachine Int) (tally t) schedule =
          .ok crew ∧
        (crew.isDone (tally t) = true → crew.world.shared = .new (initial + t * rounds)) := by
  constructor
  · intro α data actions
    obtain ⟨w, hrun, hw⟩ := (World.Guarded.start data).run actions
    exact ⟨w, hrun, hw.excludes⟩
  · intro initial rounds schedule
    obtain ⟨crew, hrun, hcrew⟩ := (Crew.Tallying.start initial t rounds).run schedule
    exact ⟨crew, hrun, hcrew.shared_eq⟩

/-- The first thread locks the mutex and leaks the guard, while the second waits and the third gives
up. -/
def leakSchedule : List (Action (MutexCall Nat) 3) :=
  [.call 0 .lock, .call 1 .lock, .step 0 false, .step 1 false, .call 0 .leak, .call 2 .tryLock,
    .step 2 false, .step 1 false]

/-- Two threads, of which the second swaps in vain, polls, and comes to the number after the
first. -/
def countSchedule : List (Fin 2 × Bool) :=
  List.flatten [
    List.replicate 2 (0, false), List.replicate 3 (1, false), List.replicate 6 (0, false),
    List.replicate 8 (1, false)]

theorem excludes_and_counts_twoThreads :
    (∃ w : MutexWorld Nat 3, (World.start (.new 7) .none 3).run (mutexMachine Nat) leakSchedule =
      .ok w ∧ 0 < (w.threads.get 0).hand.leaked ∧ w.Excludes) ∧
    ∃ crew : TallyCrew 2, (tallyCrew (.new 5) 2 1).run (mutexMachine Int) (tally 2) countSchedule =
      .ok crew ∧ crew.isDone (tally 2) = true ∧ crew.world.shared = .new 7 := by
  constructor
  · obtain ⟨w, hrun, hw⟩ := (excludes_and_counts 3).1 Nat 7 leakSchedule
    have hleaked : ((World.start (.new 7) .none 3).run (mutexMachine Nat) leakSchedule).map
        (fun w => decide (0 < (w.threads.get 0).hand.leaked)) = .ok true := by decide
    rw [hrun] at hleaked
    exact ⟨w, hrun, of_decide_eq_true (Except.ok.inj hleaked), hw⟩
  · obtain ⟨crew, hrun, hcrew⟩ := (excludes_and_counts 2).2 5 1 countSchedule
    have hdone : ((tallyCrew (.new 5) 2 1).run (mutexMachine Int) (tally 2) countSchedule).map
        (fun crew => crew.isDone (tally 2)) = .ok true := by decide +kernel
    rw [hrun] at hdone
    have hdone := Except.ok.inj hdone
    exact ⟨crew, hrun, hdone, hcrew hdone⟩

end CircularQueue.Interleaving
