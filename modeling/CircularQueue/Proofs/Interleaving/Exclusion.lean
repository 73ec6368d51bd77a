import CircularQueue.Interleaving.MutexThreads
import CircularQueue.Proofs.Interleaving.Acts
import Mathlib.Algebra.BigOperators.Fin
import Mathlib.Algebra.BigOperators.Group.Finset.Piecewise
import Mathlib.Algebra.Order.BigOperators.Group.Finset

/-!
# One guard at a time

Threads lock one mutex, use the guards they hold, and drop or leak them, and their accesses fall in
any order. The guards that are alive and those that have been leaked are counted over all threads.
The count goes up where a swap finds the bit clear and goes down where the bit is cleared, and a
thread clears the bit only with a guard of its own. So the count is the bit: there is one guard at
most, whoever is at the data has it, and a leaked guard is the last.
-/

namespace CircularQueue

namespace SpinMutex

variable {α : Type}

/-- The bit as a number. -/
def bit (m : SpinMutex α) : Nat := m.isLocked.toNat

theorem bit_le (m : SpinMutex α) : m.bit ≤ 1 := Bool.toNat_le _

end SpinMutex

namespace Interleaving

/-- A thread that makes calls on a mutex. -/
abbrev MutexThread (α : Type) := Thread Guards (MutexCall α) (MutexLocation α)

/-- Threads that share a mutex. -/
abbrev MutexWorld (α : Type) (t : Nat) :=
  World (SpinMutex α) Guards (MutexCall α) (MutexLocation α) (MutexAnswer α) t

variable {α : Type} {t : Nat}

/-- The guards of a thread, held or leaked. -/
def Guards.count (g : Guards) : Nat := g.held + g.leaked

/-- The next access is one that only a thread with a guard makes. -/
def MutexLocation.NeedsGuard : MutexLocation α → Prop
  | .readData | .writeData _ | .clearBit => True
  | .swap | .poll | .swapOnce => False

/-- The thread has a guard if its next access needs one. -/
def Thread.Entitled : MutexThread α → Prop
  | .idle _ => True
  | .busy g _ location => location.NeedsGuard → 0 < g.held

/-- The call has acquired a guard. -/
def MutexAnswer.Acquires : MutexAnswer α → Prop
  | .locked | .tried true => True
  | .tried false | .value _ | .done => False

namespace World

section

variable {σ η κ γ ρ : Type}

theorem sum_update_add (f : Fin t → Nat) (i : Fin t) (n : Nat) :
    (∑ j, Function.update f i n j) + f i = (∑ j, f j) + n := by
  rw [Finset.sum_update_of_mem (Finset.mem_univ i), ← Finset.sum_sdiff (Finset.subset_univ {i}),
    Finset.sum_singleton]
  omega

theorem sum_get_moved (f : Thread η κ γ → Nat) (shared : σ) (threads : Vector (Thread η κ γ) t)
    (history : List (Completed κ ρ t)) (i : Fin t) (hand : η) (call : κ) (next : Next γ (ρ × η)) :
    (∑ j, f ((moved shared threads history i hand call next).1.threads.get j)) +
        f (threads.get i) =
      (∑ j, f (threads.get j)) + f (Thread.after hand call next) := by
  rw [get_moved, ← sum_update_add (fun j => f (threads.get j)) i]
  exact congrArg (· + f (threads.get i))
    (Finset.sum_congr rfl fun j _ => congrFun (Function.comp_update f threads.get i _) j)

theorem le_sum_get (f : Thread η κ γ → Nat) (threads : Vector (Thread η κ γ) t) (i : Fin t) :
    f (threads.get i) ≤ ∑ j, f (threads.get j) :=
  Finset.single_le_sum (f := fun j => f (threads.get j)) (fun _ _ => Nat.zero_le _)
    (Finset.mem_univ i)

theorem add_le_sum_get (f : Thread η κ γ → Nat) (threads : Vector (Thread η κ γ) t) {i j : Fin t}
    (hij : i ≠ j) : f (threads.get i) + f (threads.get j) ≤ ∑ l, f (threads.get l) := by
  rw [← Finset.sum_pair hij (f := fun l => f (threads.get l))]
  exact Finset.sum_le_sum_of_subset (Finset.subset_univ _)

end

/-- The number of guards that are alive or leaked. -/
def guards (w : MutexWorld α t) : Nat := ∑ i, (w.threads.get i).hand.count

/-- What holds of the threads at a mutex between any two accesses. -/
structure Guarded (w : MutexWorld α t) : Prop where
  guards_eq : w.guards = w.shared.bit
  entitled : ∀ i, (w.threads.get i).Entitled

end World

/-- A step adds a guard where it sets the bit and takes one away where it clears it. -/
theorem count_step {m m' : SpinMutex α} {g : Guards} {call : MutexCall α}
    {location : MutexLocation α} {next : Next (MutexLocation α) (MutexAnswer α × Guards)}
    (hstep : stepMutexCall m g location = (m', next)) (hheld : location.NeedsGuard → 0 < g.held)
    (hcount : g.count ≤ m.bit) :
    (Thread.after g call next).hand.count + m.bit = g.count + m'.bit := by
  obtain ⟨⟨bit⟩, data⟩ := m
  cases location with
  | swap | swapOnce =>
    cases bit <;> cases hstep
    · show g.held + 1 + g.leaked + 0 = g.held + g.leaked + 1
      omega
    · rfl
  | poll =>
    cases bit <;> cases hstep <;> rfl
  | readData | writeData =>
    cases hstep
    rfl
  | clearBit =>
    have hpos := hheld trivial
    have hbit := SpinMutex.bit_le ⟨⟨bit⟩, data⟩
    cases hstep
    show g.held - 1 + g.leaked + SpinMutex.bit ⟨⟨bit⟩, data⟩ = g.held + g.leaked + 0
    rw [Guards.count] at hcount
    omega

/-- A step leads to no access that needs a guard. -/
theorem entitled_step {m m' : SpinMutex α} {g : Guards} {call : MutexCall α}
    {location : MutexLocation α} {next : Next (MutexLocation α) (MutexAnswer α × Guards)}
    (hstep : stepMutexCall m g location = (m', next)) :
    (Thread.after g call next : MutexThread α).Entitled := by
  obtain ⟨⟨bit⟩, data⟩ := m
  cases location <;> cases bit <;> cases hstep <;> first | trivial | exact False.elim

/-- A call of a thread without a guard begins at no access that needs one. -/
theorem entitled_start {g : Guards} {call : MutexCall α}
    {next : Next (MutexLocation α) (MutexAnswer α × Guards)}
    (hstart : startMutexCall g call = some next) :
    (Thread.after g call next : MutexThread α).Entitled := by
  cases call <;> simp only [startMutexCall, Option.ite_none_left_eq_some] at hstart
  case lock | tryLock => cases hstart; exact False.elim
  case read | write | release =>
    obtain ⟨hne, hstart⟩ := hstart
    cases hstart
    exact fun _ => Nat.pos_of_ne_zero hne
  case leak => obtain ⟨-, hstart⟩ := hstart; cases hstart; trivial

/-- Leaking a guard does not change the count. -/
theorem count_start {g : Guards} {call : MutexCall α}
    {next : Next (MutexLocation α) (MutexAnswer α × Guards)}
    (hstart : startMutexCall g call = some next) :
    (Thread.after g call next).hand.count = g.count := by
  cases call <;> simp only [startMutexCall, Option.ite_none_left_eq_some] at hstart
  case leak =>
    obtain ⟨hpos, hstart⟩ := hstart
    cases hstart
    show g.held - 1 + (g.leaked + 1) = g.held + g.leaked
    omega
  case lock | tryLock => cases hstart; rfl
  case read | write | release => obtain ⟨-, hstart⟩ := hstart; cases hstart; rfl

namespace World.Guarded

variable {w : MutexWorld α t}

theorem start (data : α) :
    (World.start (SpinMutex.new data) .none t : MutexWorld α t).Guarded where
  guards_eq := Finset.sum_eq_zero fun i _ => by rw [get_start]; rfl
  entitled := fun i => by rw [get_start]; trivial

theorem count_le (h : w.Guarded) (i : Fin t) : (w.threads.get i).hand.count ≤ w.shared.bit := by
  rw [← h.guards_eq]
  exact le_sum_get (fun thread => thread.hand.count) w.threads i

/-- The thread `i` moves and the others stay. -/
theorem moved (h : w.Guarded) {m : SpinMutex α} {i : Fin t} {g : Guards} {call : MutexCall α}
    {next : Next (MutexLocation α) (MutexAnswer α × Guards)} (hhand : (w.threads.get i).hand = g)
    (hcount : (Thread.after g call next).hand.count + w.shared.bit = g.count + m.bit)
    (hentitled : (Thread.after g call next : MutexThread α).Entitled) :
    (World.moved m w.threads w.history i g call next).1.Guarded where
  guards_eq := by
    have hsum := sum_get_moved (fun thread => thread.hand.count) m w.threads w.history i g call next
    have hbefore := h.guards_eq
    rw [guards] at hbefore
    rw [hhand, hbefore] at hsum
    rw [guards, shared_moved]
    omega
  entitled :=
    forall_get_moved (P := fun _ thread => thread.Entitled) hentitled fun j _ => h.entitled j

/-- No action meets a fault, and none breaks the count. -/
theorem act (h : w.Guarded) (action : Action (MutexCall α) t) :
    ∃ r, w.act (mutexMachine α) action = .ok r ∧ r.1.Guarded := by
  obtain ⟨r, hr⟩ := w.exists_act (M := mutexMachine α)
    (fun _ g _ location _ _ => ⟨stepMutexCall w.shared g location, rfl⟩) action
  refine ⟨r, hr, ?_⟩
  cases acts_of_act hr with
  | still => exact h
  | @start i g call next hat hstart =>
    exact h.moved (by rw [hat]; rfl) (by rw [count_start hstart]) (entitled_start hstart)
  | @step i g call location spurious m next hat hstep =>
    have hstep : stepMutexCall w.shared g location = (m, next) := by
      simpa [mutexMachine] using hstep
    have hentitled := h.entitled i
    have hcount := h.count_le i
    rw [hat] at hentitled hcount
    exact h.moved (by rw [hat]; rfl) (count_step hstep hentitled hcount) (entitled_step hstep)

end World.Guarded

/-! ## What the count says -/

theorem leaked_le_of_start {g : Guards} {call : MutexCall α}
    {next : Next (MutexLocation α) (MutexAnswer α × Guards)}
    (hstart : startMutexCall g call = some next) :
    g.leaked ≤ (Thread.after g call next).hand.leaked := by
  cases call <;> simp only [startMutexCall, Option.ite_none_left_eq_some] at hstart
  case leak =>
    obtain ⟨-, hstart⟩ := hstart
    cases hstart
    exact Nat.le_succ _
  case lock | tryLock => cases hstart; exact Nat.le_refl _
  case read | write | release => obtain ⟨-, hstart⟩ := hstart; cases hstart; exact Nat.le_refl _

theorem leaked_step {m m' : SpinMutex α} {g : Guards} {call : MutexCall α}
    {location : MutexLocation α} {next : Next (MutexLocation α) (MutexAnswer α × Guards)}
    (hstep : stepMutexCall m g location = (m', next)) :
    (Thread.after g call next).hand.leaked = g.leaked := by
  obtain ⟨⟨bit⟩, data⟩ := m
  cases location <;> cases bit <;> cases hstep <;> rfl

/-- While the bit is set no call acquires a guard. -/
theorem not_acquires_of_step {m m' : SpinMutex α} {g g' : Guards} {location : MutexLocation α}
    {answer : MutexAnswer α} (hlocked : m.isLocked = true)
    (hstep : stepMutexCall m g location = (m', .answer (answer, g'))) : ¬ answer.Acquires := by
  obtain ⟨⟨bit⟩, data⟩ := m
  cases (show bit = true from hlocked)
  cases location <;> cases hstep <;> exact not_false

theorem not_acquires_of_start {g g' : Guards} {call : MutexCall α} {answer : MutexAnswer α}
    (hstart : startMutexCall g call = some (.answer (answer, g'))) : ¬ answer.Acquires := by
  cases call <;> simp only [startMutexCall, Option.ite_none_left_eq_some] at hstart
  case leak =>
    obtain ⟨-, hstart⟩ := hstart
    cases hstart
    exact not_false
  case lock | tryLock => cases hstart
  case read | write | release => obtain ⟨-, hstart⟩ := hstart; cases hstart

namespace World

/-- The thread `i` has a guard, and there is no other guard, alive or leaked. -/
def GuardedBy (w : MutexWorld α t) (i : Fin t) : Prop :=
  (w.threads.get i).hand = ⟨1, 0⟩ ∧ ∀ j, j ≠ i → (w.threads.get j).hand = .none

/-- The world with other data under the mutex. -/
def withData (w : MutexWorld α t) (data : α) : MutexWorld α t :=
  { w with shared := { w.shared with data } }

/-- An action that does not depend on the data under the mutex and leaves it as it is. -/
def Ignores (w : MutexWorld α t) (action : Action (MutexCall α) t) : Prop :=
  ∀ data, (w.withData data).act (mutexMachine α) action =
    (w.act (mutexMachine α) action).map fun (w', completed) => (w'.withData data, completed)

namespace Guarded

variable {w : MutexWorld α t}

/-- Whoever holds a guard holds the only one. -/
theorem guardedBy (h : w.Guarded) {i : Fin t} (hheld : 0 < (w.threads.get i).hand.held) :
    w.GuardedBy i := by
  have hsum := h.guards_eq
  have hbit := w.shared.bit_le
  have hcount : (w.threads.get i).hand.count = (w.threads.get i).hand.held +
    (w.threads.get i).hand.leaked := rfl
  have hself := h.count_le i
  constructor
  · rcases hhand : (w.threads.get i).hand with ⟨held, leaked⟩
    rw [hhand] at hheld hcount hself
    simp only [Guards.mk.injEq]
    simp only at hheld hcount
    omega
  · intro j hj
    have hpair := add_le_sum_get (fun thread => thread.hand.count) w.threads hj
    rw [← guards, hsum] at hpair
    rcases hhand : (w.threads.get j).hand with ⟨held, leaked⟩
    have hother : (w.threads.get j).hand.count = held + leaked := by rw [hhand]; rfl
    simp only [Guards.none, Guards.mk.injEq]
    omega

/-- Only a thread that has the guard reads or writes the data. -/
theorem ignores_or_guardedBy (h : w.Guarded) (action : Action (MutexCall α) t) :
    w.Ignores action ∨ ∃ i spurious, action = .step i spurious ∧ w.GuardedBy i := by
  obtain ⟨⟨⟨bit⟩, data⟩, threads, history⟩ := w
  cases action with
  | call i call =>
    left
    intro data'
    rcases hat : threads.get i with g | ⟨g, call', location⟩
    · rcases hstart : startMutexCall g call with _ | next
      · simp [World.act, withData, hat, mutexMachine, hstart, Except.map]
      · rcases next with location | ⟨answer, g'⟩ <;>
          simp [World.act, withData, hat, mutexMachine, hstart, Except.map, World.moved]
    · simp [World.act, withData, hat, Except.map]
  | step i spurious =>
    rcases hat : threads.get i with g | ⟨g, call, location⟩
    · left
      intro data'
      simp [World.act, withData, hat, Except.map]
    · by_cases hneeds : location.NeedsGuard
      · right
        refine ⟨i, spurious, rfl, h.guardedBy ?_⟩
        have hentitled := h.entitled i
        simp only [hat] at hentitled ⊢
        exact hentitled hneeds
      · left
        intro data'
        cases location with
        | readData | writeData | clearBit => exact absurd trivial hneeds
        | swap | swapOnce | poll =>
          cases bit <;>
            simp [World.act, withData, hat, mutexMachine, stepMutexCall, SpinLock.tryLock,
              SpinMutex.isLocked, Except.map, World.moved]

/-- A thread that moves keeps what has been leaked, and answers nothing that acquires a guard. -/
theorem leaked_moved {i j : Fin t} (hleaked : 0 < (w.threads.get i).hand.leaked)
    {m : SpinMutex α} {g : Guards} {call : MutexCall α}
    {next : Next (MutexLocation α) (MutexAnswer α × Guards)} (hhand : (w.threads.get j).hand = g)
    (hle : g.leaked ≤ (Thread.after g call next).hand.leaked)
    (hanswer : ∀ answer g', next = .answer (answer, g') → ¬ answer.Acquires) :
    0 < ((World.moved m w.threads w.history j g call next).1.threads.get i).hand.leaked ∧
      ∃ newer, (World.moved m w.threads w.history j g call next).1.history =
        newer ++ w.history ∧ ∀ c ∈ newer, ¬ c.answer.Acquires := by
  refine ⟨?_, _, history_moved .., ?_⟩
  · rw [get_moved]
    by_cases hi : i = j
    · subst hi
      rw [hhand] at hleaked
      rw [Function.update_self]
      omega
    · rw [Function.update_of_ne hi]
      exact hleaked
  · intro c hc
    rcases next with location | ⟨answer, g'⟩
    · cases hc
    · cases List.mem_singleton.1 hc
      exact hanswer answer g' rfl

/-- After a leak the bit stays set, so no call acquires a guard. -/
theorem act_of_leaked (h : w.Guarded) {i : Fin t} (hleaked : 0 < (w.threads.get i).hand.leaked)
    {action : Action (MutexCall α) t}
    {r : MutexWorld α t × Option (Completed (MutexCall α) (MutexAnswer α) t)}
    (hr : w.act (mutexMachine α) action = .ok r) :
    0 < (r.1.threads.get i).hand.leaked ∧
      ∃ newer, r.1.history = newer ++ w.history ∧ ∀ c ∈ newer, ¬ c.answer.Acquires := by
  have hlocked : w.shared.isLocked = true := by
    have hle := h.count_le i
    have hcount : (w.threads.get i).hand.count = (w.threads.get i).hand.held +
      (w.threads.get i).hand.leaked := rfl
    rw [← Bool.toNat_eq_one]
    exact Nat.le_antisymm w.shared.bit_le (show 1 ≤ w.shared.bit by omega)
  cases acts_of_act hr with
  | still => exact ⟨hleaked, [], rfl, by simp⟩
  | @start j g call next hat hstart =>
    refine leaked_moved hleaked (by rw [hat]; rfl) (leaked_le_of_start hstart) ?_
    rintro answer g' rfl
    exact not_acquires_of_start hstart
  | @step j g call location spurious m next hat hstep =>
    have hstep : stepMutexCall w.shared g location = (m, next) := by
      simpa [mutexMachine] using hstep
    refine leaked_moved hleaked (by rw [hat]; rfl) (leaked_step hstep).ge ?_
    rintro answer g' rfl
    exact not_acquires_of_step hlocked hstep

theorem run_of_leaked (h : w.Guarded) {i : Fin t} (hleaked : 0 < (w.threads.get i).hand.leaked)
    {actions : List (Action (MutexCall α) t)} {w' : MutexWorld α t}
    (hrun : w.run (mutexMachine α) actions = .ok w') :
    ∃ newer, w'.history = newer ++ w.history ∧ ∀ c ∈ newer, ¬ c.answer.Acquires := by
  induction actions generalizing w with
  | nil =>
    cases hrun
    exact ⟨[], rfl, by simp⟩
  | cons action actions ih =>
    obtain ⟨⟨w₁, completed⟩, hact, h₁⟩ := h.act action
    rw [World.run, hact] at hrun
    obtain ⟨hleaked₁, newer, hnewer, hanswers⟩ := h.act_of_leaked hleaked hact
    obtain ⟨newest, hnewest, hanswers'⟩ := ih h₁ hleaked₁ hrun
    refine ⟨newest ++ newer, by rw [hnewest, hnewer, List.append_assoc], fun c hc => ?_⟩
    rcases List.mem_append.1 hc with hc | hc
    · exact hanswers' c hc
    · exact hanswers c hc

end Guarded

/-- There is at most one guard, alive or leaked, and the bit says whether there is one. An action
that depends on the data or changes it is a step of the thread that has the guard. After a leak no
call acquires a guard any more. -/
structure Excludes (w : MutexWorld α t) : Prop where
  guards_le : w.guards ≤ 1
  isLocked_iff : w.shared.isLocked = true ↔ w.guards = 1
  ignores_or_guardedBy : ∀ action,
    w.Ignores action ∨ ∃ i spurious, action = .step i spurious ∧ w.GuardedBy i
  leaked : ∀ i, 0 < (w.threads.get i).hand.leaked → ∀ actions, ∃ w' newer,
    w.run (mutexMachine α) actions = .ok w' ∧ w'.history = newer ++ w.history ∧
      ∀ c ∈ newer, ¬ c.answer.Acquires

theorem Guarded.run {w : MutexWorld α t} (h : w.Guarded)
    (actions : List (Action (MutexCall α) t)) :
    ∃ w', w.run (mutexMachine α) actions = .ok w' ∧ w'.Guarded :=
  exists_run (fun _ h action => h.act action) h actions

theorem Guarded.excludes {w : MutexWorld α t} (h : w.Guarded) : w.Excludes where
  guards_le := h.guards_eq ▸ w.shared.bit_le
  isLocked_iff := by
    rw [h.guards_eq]
    exact Bool.toNat_eq_one.symm
  ignores_or_guardedBy := h.ignores_or_guardedBy
  leaked := by
    intro i hleaked actions
    obtain ⟨w', hrun, -⟩ := h.run actions
    obtain ⟨newer, hnewer, hanswers⟩ := h.run_of_leaked hleaked hrun
    exact ⟨w', newer, hrun, hnewer, hanswers⟩

end World

end Interleaving

end CircularQueue
