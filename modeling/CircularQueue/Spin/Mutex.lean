import CircularQueue.Spin.Lock

/-!
# Data behind a spin lock

A mutex holds data that is reached through a guard. There is a guard only while the lock is held, so
the guard stands for the locked mutex: releasing it gives the mutex back with the lock free, leaking
it gives the mutex back with the lock held for ever. Who owns the mutex alone may reach the data
without locking, whatever the bit says.
-/

namespace CircularQueue

/-- Data behind a spin lock. -/
structure SpinMutex (α : Type) where
  lock : SpinLock
  data : α
deriving DecidableEq

/-- The guard of a mutex: the right to its data while the lock is held. -/
structure Guard (α : Type) where
  data : α
deriving DecidableEq

namespace SpinMutex

variable {α : Type}

def new (data : α) : SpinMutex α := ⟨.new, data⟩

def isLocked (m : SpinMutex α) : Bool := m.lock.isLocked

/-- The guard, unless the lock is held. -/
def lock? (m : SpinMutex α) : Option (Guard α) := m.lock.lock?.map fun _ => ⟨m.data⟩

/-- The guard of a mutex whose lock is free. -/
def lockFree (m : SpinMutex α) (_ : m.isLocked = false) : Guard α := ⟨m.data⟩

/-- Puts other data in without locking, and gives the old data back. -/
def replace (m : SpinMutex α) (data : α) : α × SpinMutex α := (m.data, { m with data })

/-- The mutex as it is shown for inspection. The data is not shown. -/
def rendering (m : SpinMutex α) : Rendering :=
  .record "SpinMutex" [("locked", .bool m.isLocked)] true

end SpinMutex

namespace Guard

variable {α : Type}

/-- The mutex as others see it while the guard is there. -/
def mutex (g : Guard α) : SpinMutex α := ⟨⟨true⟩, g.data⟩

def write (_ : Guard α) (data : α) : Guard α := ⟨data⟩

/-- The mutex after the guard is gone and the lock is free. -/
def release (g : Guard α) : SpinMutex α := ⟨g.mutex.lock.unlock, g.data⟩

/-- The mutex after the guard was forgotten: no one will free the lock. -/
def leak (g : Guard α) : SpinMutex α := g.mutex

end Guard

end CircularQueue
