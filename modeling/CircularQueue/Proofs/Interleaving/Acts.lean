import CircularQueue.Interleaving.Machine
import Mathlib.Logic.Function.Basic

/-!
# Actions of any machine

An action does nothing, or it starts the call of an idle thread, or it takes one step of a call.
This holds whatever the machine, and so does what follows for schedules: a property that every
action keeps holds after every schedule, and a schedule can be cut anywhere.
-/

namespace CircularQueue.Interleaving

variable {σ η κ γ ρ : Type} {t : Nat}

theorem get_set {ε : Type} (xs : Vector ε t) (i : Fin t) (x : ε) :
    (xs.set i x i.isLt).get = Function.update xs.get i x := by
  funext j
  by_cases hj : j = i
  · subst hj
    rw [Function.update_self]
    exact Vector.getElem_set_self ..
  · rw [Function.update_of_ne hj]
    exact Vector.getElem_set_ne _ _ fun heq => hj (Fin.ext heq.symm)

/-- The thread after a step of a call. -/
def Thread.after (hand : η) (call : κ) : Next γ (ρ × η) → Thread η κ γ
  | .goto location => .busy hand call location
  | .answer (_, hand) => .idle hand

/-- The calls that return by a step of a call: the call itself or none. -/
def Completed.after (i : Fin t) (call : κ) : Next γ (ρ × η) → List (Completed κ ρ t)
  | .goto _ => []
  | .answer (answer, _) => [⟨i, call, answer⟩]

namespace World

/-- `P` holds of every world that the schedule comes through, from the first to the last. -/
def Throughout (M : Machine σ η κ γ ρ) (P : World σ η κ γ ρ t → Prop) (w : World σ η κ γ ρ t) :
    List (Action κ t) → Prop
  | [] => P w
  | action :: actions =>
    P w ∧
      match w.act M action with
      | .ok (w', _) => w'.Throughout M P actions
      | .error _ => True

instance decidableThroughout (M : Machine σ η κ γ ρ) (P : World σ η κ γ ρ t → Prop)
    [DecidablePred P] : ∀ (actions : List (Action κ t)) (w : World σ η κ γ ρ t),
      Decidable (w.Throughout M P actions)
  | [], w => inferInstanceAs (Decidable (P w))
  | action :: actions, w =>
    have : Decidable (match w.act M action with
        | .ok (w', _) => w'.Throughout M P actions
        | .error _ => True) :=
      match w.act M action with
      | .ok (w', _) => decidableThroughout M P actions w'
      | .error _ => instDecidableTrue
    inferInstanceAs (Decidable (_ ∧ _))

variable {M : Machine σ η κ γ ρ} {w w' : World σ η κ γ ρ t} {action : Action κ t}
  {actions : List (Action κ t)}

theorem get_start (shared : σ) (hand : η) (i : Fin t) :
    (World.start shared hand t : World σ η κ γ ρ t).threads.get i = .idle hand :=
  Vector.getElem_replicate i.isLt

theorem isIdle_of_isQuiet (h : w.isQuiet = true) (i : Fin t) :
    (w.threads.get i).isIdle = true := by
  rw [isQuiet, Vector.all_eq_true] at h
  exact h i i.isLt

theorem get_moved (shared : σ) (threads : Vector (Thread η κ γ) t)
    (history : List (Completed κ ρ t)) (i : Fin t) (hand : η) (call : κ) (next : Next γ (ρ × η)) :
    (moved shared threads history i hand call next).1.threads.get =
      Function.update threads.get i (Thread.after hand call next) := by
  rcases next with location | ⟨answer, hand⟩ <;> exact get_set threads i _

/-- What holds of the thread that has moved and of all others holds of all. -/
theorem forall_get_moved {P : Fin t → Thread η κ γ → Prop} {shared : σ}
    {threads : Vector (Thread η κ γ) t} {history : List (Completed κ ρ t)} {i : Fin t} {hand : η}
    {call : κ} {next : Next γ (ρ × η)} (hself : P i (Thread.after hand call next))
    (hother : ∀ j, j ≠ i → P j (threads.get j)) (j : Fin t) :
    P j ((moved shared threads history i hand call next).1.threads.get j) := by
  rw [get_moved]
  by_cases hj : j = i
  · subst hj
    rwa [Function.update_self]
  · rw [Function.update_of_ne hj]
    exact hother j hj

@[simp] theorem shared_moved (shared : σ) (threads : Vector (Thread η κ γ) t)
    (history : List (Completed κ ρ t)) (i : Fin t) (hand : η) (call : κ) (next : Next γ (ρ × η)) :
    (moved shared threads history i hand call next).1.shared = shared := by
  rcases next with location | ⟨answer, hand⟩ <;> rfl

theorem history_moved (shared : σ) (threads : Vector (Thread η κ γ) t)
    (history : List (Completed κ ρ t)) (i : Fin t) (hand : η) (call : κ) (next : Next γ (ρ × η)) :
    (moved shared threads history i hand call next).1.history =
      Completed.after i call next ++ history := by
  rcases next with location | ⟨answer, hand⟩ <;> rfl

/-- What an action can do. -/
inductive Acts (M : Machine σ η κ γ ρ) (w : World σ η κ γ ρ t) :
    Action κ t → World σ η κ γ ρ t × Option (Completed κ ρ t) → Prop
  | still {action : Action κ t} : Acts M w action (w, none)
  | start {i : Fin t} {hand : η} {call : κ} {next : Next γ (ρ × η)}
      (hat : w.threads.get i = .idle hand) (hstart : M.start hand call = some next) :
      Acts M w (.call i call) (moved w.shared w.threads w.history i hand call next)
  | step {i : Fin t} {hand : η} {call : κ} {location : γ} {spurious : Bool} {shared : σ}
      {next : Next γ (ρ × η)} (hat : w.threads.get i = .busy hand call location)
      (hstep : M.step w.shared hand location spurious = .ok (shared, next)) :
      Acts M w (.step i spurious) (moved shared w.threads w.history i hand call next)

theorem acts_of_act {action : Action κ t} {r : World σ η κ γ ρ t × Option (Completed κ ρ t)}
    (h : w.act M action = .ok r) : w.Acts M action r := by
  obtain ⟨shared, threads, history⟩ := w
  cases action with
  | call i call =>
    simp only [act] at h
    split at h
    · rename_i hand hat
      split at h
      · rename_i next hstart
        cases h
        exact .start hat hstart
      · cases h
        exact .still
    · cases h
      exact .still
  | step i spurious =>
    simp only [act] at h
    split at h
    · cases h
      exact .still
    · rename_i hand call location hat
      split at h
      · rename_i shared' next hstep
        cases h
        exact .step hat hstep
      · cases h

/-- A machine whose steps meet no fault has no action that meets one. -/
theorem exists_act (h : ∀ i hand call location spurious,
      w.threads.get i = .busy hand call location →
        ∃ r, M.step w.shared hand location spurious = .ok r)
    (action : Action κ t) : ∃ r, w.act M action = .ok r := by
  obtain ⟨shared, threads, history⟩ := w
  cases action with
  | call i call =>
    simp only [act]
    split
    · split <;> exact ⟨_, rfl⟩
    · exact ⟨_, rfl⟩
  | step i spurious =>
    simp only [act]
    split
    · exact ⟨_, rfl⟩
    · rename_i hand call location hat
      obtain ⟨⟨shared', next⟩, hstep⟩ := h i hand call location spurious hat
      simp only at hstep
      simp only [hstep]
      exact ⟨_, rfl⟩

/-- A property that every action keeps, without a fault, holds after every schedule. -/
theorem exists_run {P : World σ η κ γ ρ t → Prop}
    (hact : ∀ w, P w → ∀ action, ∃ r, w.act M action = .ok r ∧ P r.1) (h : P w)
    (actions : List (Action κ t)) : ∃ w', w.run M actions = .ok w' ∧ P w' := by
  induction actions generalizing w with
  | nil => exact ⟨w, rfl, h⟩
  | cons action actions ih =>
    obtain ⟨⟨w₁, completed⟩, hr, h₁⟩ := hact w h action
    obtain ⟨w₂, hrun, h₂⟩ := ih h₁
    exact ⟨w₂, by rw [World.run, hr]; exact hrun, h₂⟩

/-! ## Along a schedule -/

namespace Throughout

variable {P : World σ η κ γ ρ t → Prop} {before after : List (Action κ t)}

theorem now (h : w.Throughout M P actions) : P w := by
  cases actions with
  | nil => exact h
  | cons => exact h.1

theorem next {completed : Option (Completed κ ρ t)} (h : w.Throughout M P (action :: actions))
    (hact : w.act M action = .ok (w', completed)) : w'.Throughout M P actions := by
  have hrest := h.2
  rwa [hact] at hrest

theorem left (h : w.Throughout M P (before ++ after)) : w.Throughout M P before := by
  induction before generalizing w with
  | nil => exact h.now
  | cons action before ih =>
    refine ⟨h.now, ?_⟩
    rcases hact : w.act M action with fault | ⟨w₁, completed⟩
    · trivial
    · exact ih (h.next hact)

theorem right (h : w.Throughout M P (before ++ after)) (hrun : w.run M before = .ok w') :
    w'.Throughout M P after := by
  induction before generalizing w with
  | nil =>
    cases hrun
    exact h
  | cons action before ih =>
    rcases hact : w.act M action with fault | ⟨w₁, completed⟩
    · rw [World.run, hact] at hrun
      cases hrun
    · rw [World.run, hact] at hrun
      exact ih (h.next hact) hrun

theorem last (h : w.Throughout M P actions) (hrun : w.run M actions = .ok w') : P w' := by
  rw [← List.append_nil actions] at h
  exact h.right hrun

end Throughout

end World

end CircularQueue.Interleaving
