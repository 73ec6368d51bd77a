import CircularQueue.Interleaving.Machine

/-!
# Crews of threads with a plan

A crew is a world whose threads follow a plan. The plan says which call an idle thread makes next,
if any, and keeps its own account of the calls that have returned. What remains open is the
schedule: which thread moves when. In a round every thread moves once, in order.
-/

namespace CircularQueue.Interleaving

/-- What `t` threads set out to do, with an account `τ` of what they have done. -/
structure Plan (τ κ ρ : Type) (t : Nat) where
  /-- The next call of a thread; nothing if it has no more to do for now. -/
  next : τ → Fin t → Option κ
  /-- The account after a call has returned. -/
  note : τ → Completed κ ρ t → τ

/-- A world whose threads follow a plan, with the account of the plan. -/
structure Crew (σ η κ γ ρ τ : Type) (t : Nat) where
  world : World σ η κ γ ρ t
  account : τ

namespace Crew

variable {σ η κ γ ρ τ : Type} {t : Nat}

/-- The crew after the thread `i` has moved: it starts its next call if it is idle, and takes a step
of its call otherwise. -/
def move (M : Machine σ η κ γ ρ) (P : Plan τ κ ρ t) (crew : Crew σ η κ γ ρ τ t) (i : Fin t)
    (spurious : Bool) : Except Fault (Crew σ η κ γ ρ τ t) :=
  match crew with
  | { world, account } =>
    let action :=
      match world.threads.get i with
      | .idle _ => (P.next account i).map (.call i)
      | .busy .. => some (.step i spurious)
    match action with
    | none => .ok { world, account }
    | some action =>
      match world.act M action with
      | .ok (world, some completed) => .ok { world, account := P.note account completed }
      | .ok (world, none) => .ok { world, account }
      | .error fault => .error fault

/-- The crew after a schedule: which thread moves, and whether it is let fail. -/
def run (M : Machine σ η κ γ ρ) (P : Plan τ κ ρ t) (crew : Crew σ η κ γ ρ τ t) :
    List (Fin t × Bool) → Except Fault (Crew σ η κ γ ρ τ t)
  | [] => .ok crew
  | (i, spurious) :: rest =>
    match crew.move M P i spurious with
    | .ok crew => crew.run M P rest
    | .error fault => .error fault

/-- The crew after each thread has moved once. -/
def round (M : Machine σ η κ γ ρ) (P : Plan τ κ ρ t) (crew : Crew σ η κ γ ρ τ t) :
    Except Fault (Crew σ η κ γ ρ τ t) :=
  crew.run M P ((List.finRange t).map (·, false))

/-- No thread is in a call or has more to do. -/
def isDone (P : Plan τ κ ρ t) (crew : Crew σ η κ γ ρ τ t) : Bool :=
  crew.world.isQuiet && (List.finRange t).all fun i => (P.next crew.account i).isNone

end Crew

end CircularQueue.Interleaving
