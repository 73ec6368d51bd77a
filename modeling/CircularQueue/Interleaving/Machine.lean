import CircularQueue.Fault

/-!
# Threads that interleave

Several threads make calls on one shared state. A call is a walk through control locations, and each
step from one location to the next makes one access to the shared state and decides from what it
saw. Between two steps of a thread any steps of the others may fall. All threads see the accesses in
one order.

A `Machine` says how calls of one kind start and step. A `World` is the shared state with the
threads and with the calls that have returned. A schedule is a list of actions: a thread starts a
call, or takes the next step of the call it is in. A compare-and-exchange may fail for no reason, so
a step carries a flag that lets it; steps of other kinds ignore the flag. An action that its thread
cannot take leaves the world as it is, so every list of actions is a schedule.
-/

namespace CircularQueue.Interleaving

/-- Where a call goes after a step: on to a location `γ`, or back to its caller with an answer
`ρ`. -/
inductive Next (γ ρ : Type)
  | goto (location : γ)
  | answer (result : ρ)
deriving DecidableEq

/-- How calls `κ` on a shared state `σ` proceed through locations `γ` to answers `ρ`. What a thread
keeps from one call to the next is its hand `η`. -/
structure Machine (σ η κ γ ρ : Type) where
  /-- The beginning of a call, before any access to the shared state; nothing if a thread with this
  hand cannot make the call. -/
  start : η → κ → Option (Next γ (ρ × η))
  /-- One step from a location. -/
  step : σ → η → γ → Bool → Except Fault (σ × Next γ (ρ × η))

/-- A thread: between two calls, or at a location of a call. -/
inductive Thread (η κ γ : Type)
  | idle (hand : η)
  | busy (hand : η) (call : κ) (location : γ)
deriving DecidableEq

namespace Thread

variable {η κ γ : Type}

def isIdle : Thread η κ γ → Bool
  | .idle _ => true
  | .busy .. => false

def hand : Thread η κ γ → η
  | .idle hand => hand
  | .busy hand .. => hand

end Thread

/-- A call that has returned to its thread. -/
structure Completed (κ ρ : Type) (t : Nat) where
  thread : Fin t
  call : κ
  answer : ρ
deriving DecidableEq

/-- A shared state, `t` threads, and the calls that have returned, newest first. -/
structure World (σ η κ γ ρ : Type) (t : Nat) where
  shared : σ
  threads : Vector (Thread η κ γ) t
  history : List (Completed κ ρ t)

/-- What may happen next: a thread starts a call, or takes a step, in which a compare-and-exchange
may be made to fail. -/
inductive Action (κ : Type) (t : Nat)
  | call (thread : Fin t) (call : κ)
  | step (thread : Fin t) (spurious : Bool)
deriving DecidableEq

/-! Two or three threads go by their numbers. With these instances a number stands for the same term
wherever a schedule is written down. -/

instance (priority := 2000) neZero_two : @NeZero Nat Zero.ofOfNat0 2 := ⟨Nat.succ_ne_zero 1⟩

instance (priority := 2000) neZero_three : @NeZero Nat Zero.ofOfNat0 3 := ⟨Nat.succ_ne_zero 2⟩

namespace World

variable {σ η κ γ ρ : Type} {t : Nat}

/-- All threads idle with the same hand. -/
def start (shared : σ) (hand : η) (t : Nat) : World σ η κ γ ρ t :=
  ⟨shared, Vector.replicate t (.idle hand), []⟩

/-- The world after the thread `i` has moved in the call `call`, and that call if it has
returned. -/
def moved (shared : σ) (threads : Vector (Thread η κ γ) t) (history : List (Completed κ ρ t))
    (i : Fin t) (hand : η) (call : κ) :
    Next γ (ρ × η) → World σ η κ γ ρ t × Option (Completed κ ρ t)
  | .goto location => (⟨shared, threads.set i (.busy hand call location) i.isLt, history⟩, none)
  | .answer (answer, hand) =>
    let completed := ⟨i, call, answer⟩
    (⟨shared, threads.set i (.idle hand) i.isLt, completed :: history⟩, some completed)

/-- The world after an action, and the call that returned by it, if any. -/
def act (M : Machine σ η κ γ ρ) (w : World σ η κ γ ρ t) :
    Action κ t → Except Fault (World σ η κ γ ρ t × Option (Completed κ ρ t))
  | .call i call =>
    match w.threads.get i with
    | .idle hand =>
      match M.start hand call with
      | some next => .ok (moved w.shared w.threads w.history i hand call next)
      | none => .ok (w, none)
    | .busy .. => .ok (w, none)
  | .step i spurious =>
    match w with
    | { shared, threads, history } =>
      match threads.get i with
      | .idle _ => .ok (⟨shared, threads, history⟩, none)
      | .busy hand call location =>
        match M.step shared hand location spurious with
        | .ok (shared, next) => .ok (moved shared threads history i hand call next)
        | .error fault => .error fault

/-- The world after a schedule. -/
def run (M : Machine σ η κ γ ρ) (w : World σ η κ γ ρ t) :
    List (Action κ t) → Except Fault (World σ η κ γ ρ t)
  | [] => .ok w
  | action :: actions =>
    match w.act M action with
    | .ok (w, _) => w.run M actions
    | .error fault => .error fault

def isQuiet (w : World σ η κ γ ρ t) : Bool := w.threads.all Thread.isIdle

end World

end CircularQueue.Interleaving
