import CircularQueue.Rendering

/-!
# Spin locks

A spin lock is one bit. Whoever swaps the bit from clear to set has the lock, and whoever stores a
clear bit releases it, holder or not. A caller that finds the lock held waits until it reads a clear
bit and tries again.
-/

namespace CircularQueue

/-- A lock of one bit. -/
structure SpinLock where
  isLocked : Bool
deriving DecidableEq

namespace SpinLock

def new : SpinLock := ⟨false⟩

/-- Sets the bit and answers whether it was clear. -/
def tryLock (l : SpinLock) : Bool × SpinLock := (!l.isLocked, ⟨true⟩)

/-- The lock once it is acquired; nothing while it is held, as the caller then waits. -/
def lock? (l : SpinLock) : Option SpinLock :=
  match l.tryLock with
  | (true, l) => some l
  | (false, _) => none

def unlock (_ : SpinLock) : SpinLock := ⟨false⟩

/-- Clears the bit while someone else waits for the lock, who acquires it then and releases it
again. -/
def handOver (l : SpinLock) : Option SpinLock := l.unlock.lock?.map unlock

def rendering (l : SpinLock) : Rendering :=
  .record "SpinLock" [("locked", .bool l.isLocked)] false

end SpinLock

end CircularQueue
