import CircularQueue.Interleaving.Machine
import CircularQueue.Spin.Mutex

/-!
# Threads at one mutex

Any number of threads lock one mutex, reach its data through the guards they hold, and drop or leak
those guards. Acquiring is a swap of the lock bit. A thread that waits polls the bit with plain
reads and swaps again only when it has read it clear. Releasing is a store. A guard is the thread's
from the swap that acquired it to the store that releases it; a leaked guard is nobody's, but the
bit stays set. A thread can use, drop or leak a guard only while it holds one.
-/

namespace CircularQueue.Interleaving

/-- A call that threads may make on a mutex they share. -/
inductive MutexCall (α : Type)
  | lock
  | tryLock
  | read
  | write (data : α)
  | release
  | leak
deriving DecidableEq

/-- The answer of such a call. -/
inductive MutexAnswer (α : Type)
  | locked
  | tried (success : Bool)
  | value (data : α)
  | done
deriving DecidableEq

/-- Where a thread stands in a call on a mutex: each location is named for the access it makes
next. -/
inductive MutexLocation (α : Type)
  /-- Swaps the bit, and waits if it was set. -/
  | swap
  /-- Reads the bit until it is clear. -/
  | poll
  /-- Swaps the bit, and gives up if it was set. -/
  | swapOnce
  | readData
  | writeData (data : α)
  /-- Clears the bit. -/
  | clearBit
deriving DecidableEq

/-- How many guards a thread holds, and how many it has leaked. -/
structure Guards where
  held : Nat
  leaked : Nat
deriving DecidableEq

namespace Guards

def none : Guards := ⟨0, 0⟩

def acquire (g : Guards) : Guards := { g with held := g.held + 1 }

def drop (g : Guards) : Guards := { g with held := g.held - 1 }

def leak (g : Guards) : Guards := ⟨g.held - 1, g.leaked + 1⟩

end Guards

variable {α : Type}

/-- The beginning of a call on a mutex. Leaking a guard makes no access. -/
def startMutexCall (g : Guards) :
    MutexCall α → Option (Next (MutexLocation α) (MutexAnswer α × Guards))
  | .lock => some (.goto .swap)
  | .tryLock => some (.goto .swapOnce)
  | .read => if g.held = 0 then none else some (.goto .readData)
  | .write data => if g.held = 0 then none else some (.goto (.writeData data))
  | .release => if g.held = 0 then none else some (.goto .clearBit)
  | .leak => if g.held = 0 then none else some (.answer (.done, g.leak))

/-- One access of a call on a mutex. -/
def stepMutexCall (m : SpinMutex α) (g : Guards) :
    MutexLocation α → SpinMutex α × Next (MutexLocation α) (MutexAnswer α × Guards)
  | .swap =>
    match m.lock.tryLock with
    | (true, lock) => ({ m with lock }, .answer (.locked, g.acquire))
    | (false, lock) => ({ m with lock }, .goto .poll)
  | .poll => (m, if m.isLocked then .goto .poll else .goto .swap)
  | .swapOnce =>
    match m.lock.tryLock with
    | (true, lock) => ({ m with lock }, .answer (.tried true, g.acquire))
    | (false, lock) => ({ m with lock }, .answer (.tried false, g))
  | .readData => (m, .answer (.value m.data, g))
  | .writeData data => ({ m with data }, .answer (.done, g))
  | .clearBit => ({ m with lock := m.lock.unlock }, .answer (.done, g.drop))

/-- The calls on a mutex, access by access. -/
def mutexMachine (α : Type) :
    Machine (SpinMutex α) Guards (MutexCall α) (MutexLocation α) (MutexAnswer α) where
  start := startMutexCall
  step m g location _ := .ok (stepMutexCall m g location)

end CircularQueue.Interleaving
