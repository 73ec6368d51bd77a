import CircularQueue.Order
import CircularQueue.Capacity
import CircularQueue.Cursor
import CircularQueue.Word
import CircularQueue.Rendering
import CircularQueue.Fault
import CircularQueue.Full
import CircularQueue.Ring.Basic
import CircularQueue.Ring.Enqueue
import CircularQueue.Ring.Dequeue
import CircularQueue.Ring.Call
import CircularQueue.Event
import CircularQueue.Outcome
import CircularQueue.Queue.Basic
import CircularQueue.Queue.Transfer
import CircularQueue.Queue.Drain
import CircularQueue.Spin.Lock
import CircularQueue.Spin.Mutex
import CircularQueue.Fifo
import CircularQueue.LockedQueue
import CircularQueue.Contract
import CircularQueue.Queue.Request
import CircularQueue.Interleaving.Machine
import CircularQueue.Interleaving.Producer
import CircularQueue.Interleaving.Consumer
import CircularQueue.Interleaving.RingThreads
import CircularQueue.Interleaving.QueueThreads
import CircularQueue.Interleaving.MutexThreads
import CircularQueue.Interleaving.Crew
import CircularQueue.Interleaving.Plans
import CircularQueue.Ring.Live
import CircularQueue.Queue.Residents
import CircularQueue.Proofs.Gap
import CircularQueue.Proofs.Words
import CircularQueue.Proofs.Cells
import CircularQueue.Proofs.Lines
import CircularQueue.Proofs.Packing
import CircularQueue.Proofs.Ring.Steps
import CircularQueue.Proofs.Ring.Contents
import CircularQueue.Proofs.Ring.FirstIn
import CircularQueue.Proofs.Ring.Orderly
import CircularQueue.Proofs.Ring.Traffic
import CircularQueue.Proofs.Ring.Safety
import CircularQueue.Proofs.Queue.Reference
import CircularQueue.Proofs.Queue.Ownership
import CircularQueue.Proofs.Queue.Service
import CircularQueue.Proofs.Queue.Agreement
import CircularQueue.Proofs.Ring.Layout
import CircularQueue.Proofs.Queue.Fates
import CircularQueue.Proofs.Turns
import CircularQueue.Proofs.Interleaving.Acts
import CircularQueue.Proofs.Interleaving.Posts
import CircularQueue.Proofs.Interleaving.Attendance
import CircularQueue.Proofs.Interleaving.Taking
import CircularQueue.Proofs.Interleaving.Line
import CircularQueue.Proofs.Interleaving.Publishing
import CircularQueue.Proofs.Interleaving.Roles
import CircularQueue.Proofs.Interleaving.Custody
import CircularQueue.Proofs.Interleaving.HandOff
import CircularQueue.Proofs.Interleaving.OneEach
import CircularQueue.Proofs.Ring.Laps
import CircularQueue.Proofs.Interleaving.Exclusion
import CircularQueue.Proofs.Interleaving.Tally
import CircularQueue.Proofs.Interleaving.Strides
import CircularQueue.Proofs.Interleaving.Tickets
import CircularQueue.Proofs.Interleaving.Cursors
import CircularQueue.Proofs.Interleaving.Budget
import CircularQueue.Proofs.Queue.Rest
import CircularQueue.Proofs.Interleaving.Quiescence
import CircularQueue.Proofs.Ring.Window
import CircularQueue.Proofs.Interleaving.Alone
import CircularQueue.Proofs.Ring.Passing
import CircularQueue.Proofs.Queue.Renaming
import CircularQueue.Proofs.Queue.Showing
import CircularQueue.Proofs.Ring.Landing
import CircularQueue.Proofs.Ring.Overhang
import CircularQueue.Proofs.Ring.Provision
import CircularQueue.Proofs.Ring.Filling
import CircularQueue.Proofs.Ring.Hints
import CircularQueue.Proofs.Queue.Restarting
import CircularQueue.Proofs.Queue.Settling
import CircularQueue.Proofs.Queue.Draining
import CircularQueue.Proofs.Checked.Arithmetic
import CircularQueue.Proofs.Checked.Ring
import CircularQueue.Proofs.Checked.Queue
import CircularQueue.Proofs.Checked.Capacities
