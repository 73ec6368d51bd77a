import CircularQueue.Interleaving.Crew
import CircularQueue.Interleaving.QueueThreads
import CircularQueue.Interleaving.MutexThreads

/-!
# Two plans

`relay` sends numbers through a queue: the first threads append consecutive numbers, each its own
share and each in order, trying again when a number is refused, and the other threads remove numbers
until all have come. `tally` counts under a mutex: every thread adds one a number of times, and each
time locks the mutex, reads the number, writes it back increased and drops the guard.
-/

namespace CircularQueue.Interleaving

/-! ## Numbers through a queue -/

/-- How many numbers each thread has appended, and the numbers removed, newest first, with their
count. -/
structure RelayAccount (t : Nat) where
  sent : Vector Nat t
  received : List Nat
  receivedCount : Nat

namespace RelayAccount

def start (t : Nat) : RelayAccount t := ⟨Vector.replicate t 0, [], 0⟩

end RelayAccount

/-- The first `producers` of `t` threads append `each` numbers apiece, the others remove them. -/
def relay (producers each t : Nat) : Plan (RelayAccount t) (Transfer Nat) (Receipt Nat) t where
  next account i :=
    if i < producers then
      let sent := account.sent.get i
      if sent < each then some (.tryEnqueue (i * each + sent)) else none
    else if account.receivedCount < producers * each then some .dequeue
    else none
  note account completed :=
    match account with
    | { sent, received, receivedCount } =>
      match completed.answer with
      | .admitted =>
        let i := completed.thread
        let count := sent.get i
        { sent := sent.set i (count + 1) i.isLt, received, receivedCount }
      | .removed (some v) =>
        { sent, received := v :: received, receivedCount := receivedCount + 1 }
      | .removed none => { sent, received, receivedCount }
      | .refused _ => { sent, received, receivedCount }

/-! ## Counting under a mutex -/

/-- How far a thread is with its rounds. -/
inductive TallyStage
  /-- Has so many rounds before it. -/
  | resting (rounds : Nat)
  /-- Holds the guard in a round, with so many rounds after it. -/
  | reading (rounds : Nat)
  /-- Has read the number. -/
  | writing (rounds : Nat) (seen : Int)
  /-- Has written the number. -/
  | releasing (rounds : Nat)
deriving DecidableEq

namespace TallyStage

def next : TallyStage → Option (MutexCall Int)
  | .resting 0 => none
  | .resting (_ + 1) => some .lock
  | .reading _ => some .read
  | .writing _ seen => some (.write (seen + 1))
  | .releasing _ => some .release

/-- The stage after the call of a stage has returned. -/
def note : TallyStage → MutexAnswer Int → TallyStage
  | .resting (rounds + 1), .locked => .reading rounds
  | .reading rounds, .value seen => .writing rounds seen
  | .writing rounds _, .done => .releasing rounds
  | .releasing rounds, .done => .resting rounds
  | stage, _ => stage

end TallyStage

/-- Every thread follows its own stages. -/
def tally (t : Nat) : Plan (Vector TallyStage t) (MutexCall Int) (MutexAnswer Int) t where
  next stages i := (stages.get i).next
  note stages completed :=
    let i := completed.thread
    stages.set i ((stages.get i).note completed.answer) i.isLt

/-- A mutex with a crew of `t` threads, each with so many rounds of counting before it. -/
def tallyCrew (m : SpinMutex Int) (t rounds : Nat) :
    Crew (SpinMutex Int) Guards (MutexCall Int) (MutexLocation Int) (MutexAnswer Int)
      (Vector TallyStage t) t :=
  ⟨.start m .none t, Vector.replicate t (.resting rounds)⟩

end CircularQueue.Interleaving
