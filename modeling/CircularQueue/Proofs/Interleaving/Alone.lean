import CircularQueue.Proofs.Interleaving.Taking
import CircularQueue.Proofs.Ring.Window

/-!
# A consumer alone at a ring

A consumer that nobody disturbs makes finitely many accesses, whatever words it meets: it reads a
vacant cell again only while its patience lasts, and it goes on to the next cell only while the
threshold does. Access by access it does what a whole call does, so the accesses of such a call may
be counted as one. The patience decides how many they are, and nothing else.
-/

namespace CircularQueue

namespace Interleaving.Consumer

open CircularQueue.Ring

variable {k : Order} {patience : Nat} {r s : Ring k} {c : Cursor} {answer : Option Nat}

/-- A consumer that may give up goes from a location to its answer without another thread moving in
between, and leaves the given ring. -/
inductive Ends (patience : Nat) : Ring k → Consumer → Option Nat → Ring k → Prop
  | answer {r s : Ring k} {location : Consumer} {answer : Option Nat}
      (hstep : location.step patience false r false = (s, .answer answer)) :
      Ends patience r location answer s
  | goto {r s t : Ring k} {location location' : Consumer} {answer : Option Nat}
      (hstep : location.step patience false r false = (s, .goto location'))
      (hrest : Ends patience s location' answer t) : Ends patience r location answer t

/-- A consumer that is about to settle what it does with a cell leaves the cell as a whole look
does. -/
theorem ends_settle (hrest : Ends patience (r.leave c) (.readTail c) answer s) (left : Nat)
    {barred : Option Word} (hbarred : barred.getD (r.word c) = k.visited c (r.word c)) :
    Ends patience r (settle false c left (r.word c) barred) answer s := by
  have hcases : settle false c left (r.word c) barred =
      .bar c left (r.word c) (k.visited c (r.word c)) ∨ _ := settle_cases hbarred
  rcases hcases with heq | ⟨heq, hsame⟩
  · rw [heq]
    exact .goto (if_pos ⟨rfl, rfl⟩) hrest
  · rw [heq]
    rwa [leave_eq_self hsame] at hrest

/-- Where nothing is due the consumer leaves the cell in the end. -/
theorem ends_weigh (hlap : k.lapOf (r.word c) ≠ k.lap c)
    (hrest : Ends patience (r.leave c) (.readTail c) answer s) (left : Nat) :
    Ends patience r (weigh k false c left (r.word c)) answer s := by
  rcases k.sight_cases c (r.word c) with
    ⟨-, hdue⟩ | ⟨-, barred, hbarred, hstale | ⟨hvacant, -⟩⟩
  · exact absurd hdue hlap
  · rw [weigh, hstale]
    exact ends_settle hrest left hbarred
  · -- Every further look at the cell finds the same word with one unit of patience less.
    induction left with
    | zero =>
      rw [weigh, hvacant]
      exact ends_settle hrest 0 hbarred
    | succ left ih =>
      rw [weigh, hvacant]
      by_cases hreserved : 0 < gap r.tail c
      · refine .goto (congrArg (fun next => (r, Next.goto next)) (if_pos hreserved)) ?_
        exact .goto rfl ih
      · refine .goto (congrArg (fun next => (r, Next.goto next)) (if_neg hreserved)) ?_
        exact ends_settle hrest left hbarred

/-- What is due the consumer takes. -/
theorem ends_weigh_of_due (hlap : k.lapOf (r.word c) = k.lap c) (left : Nat) :
    Ends patience r (weigh k false c left (r.word c)) (some (k.indexOf (r.word c)))
      (r.leave c) := by
  have hdue := (k.sight_eq_due_iff c (r.word c) _).2 ⟨hlap, rfl⟩
  rw [weigh, hdue, leave, Order.visited, if_pos hlap]
  exact .answer rfl

/-- From the head on a consumer comes to the end of its look. -/
theorem ends_reserve_of_due (hdue : r.Due) :
    Ends patience r .reserve (some (k.indexOf (r.word r.head))) r.step :=
  .goto rfl (.goto rfl (ends_weigh_of_due (r := { r with head := r.head + 1 }) hdue patience))

theorem ends_reserve_of_not_due (hdue : ¬ r.Due)
    (hrest : Ends patience r.step (.readTail r.head) answer s) :
    Ends patience r .reserve answer s :=
  .goto rfl (.goto rfl (ends_weigh (r := { r with head := r.head + 1 }) hdue hrest patience))

/-- A consumer that is past the tail pulls it along at once. -/
theorem ends_readTail_of_overtaken (hgap : gap r.tail (r.head + 1) ≤ 0) :
    Ends patience r.step (.readTail r.head) none r.step.catchUp.spend := by
  refine .goto (congrArg (fun next => (r.step, Next.goto next)) (if_pos hgap)) ?_
  exact .goto (if_pos ⟨rfl, rfl⟩) (.answer rfl)

theorem ends_readTail_of_ahead (hgap : 0 < gap r.tail (r.head + 1))
    (hrest : Ends patience r.step .spend answer s) :
    Ends patience r.step (.readTail r.head) answer s :=
  .goto (congrArg (fun next => (r.step, Next.goto next)) (if_neg (Int.not_le.2 hgap))) hrest

/-- A look that is the last one, since it finds an index or overtakes the tail. -/
theorem ends_probe_of_stop (hstop : r.Due ∨ gap r.tail (r.head + 1) ≤ 0) (budget : Nat) :
    Ends patience r .reserve (r.probe patience budget).1 (r.probe patience budget).2 := by
  by_cases hdue : r.Due
  · rw [probe_of_due hdue]
    exact ends_reserve_of_due hdue
  · have hgap := hstop.resolve_left hdue
    rw [probe_of_overtaken hdue hgap]
    exact ends_reserve_of_not_due hdue (ends_readTail_of_overtaken hgap)

/-- From the head on a consumer alone goes as a whole call does. -/
theorem ends_probe (patience budget : Nat) (r : Ring k) (hbudget : r.threshold = budget) :
    Ends patience r .reserve (r.probe patience budget).1 (r.probe patience budget).2 := by
  induction budget generalizing r with
  | zero =>
    by_cases hstop : r.Due ∨ gap r.tail (r.head + 1) ≤ 0
    · exact ends_probe_of_stop hstop 0
    · obtain ⟨hdue, hgap⟩ := not_or.1 hstop
      rw [probe_zero hdue (Int.not_le.1 hgap)]
      refine ends_reserve_of_not_due hdue (ends_readTail_of_ahead (Int.not_le.1 hgap) ?_)
      exact .answer (congrArg (fun next => (r.step.spend, next)) (if_pos hbudget.le))
  | succ budget ih =>
    by_cases hstop : r.Due ∨ gap r.tail (r.head + 1) ≤ 0
    · exact ends_probe_of_stop hstop (budget + 1)
    · obtain ⟨hdue, hgap⟩ := not_or.1 hstop
      have hleft : ¬ r.threshold ≤ 0 := by omega
      have hspent : r.step.spend.threshold = budget := by
        rw [threshold_spend, threshold_step]
        omega
      rw [probe_succ hdue (Int.not_le.1 hgap)]
      refine ends_reserve_of_not_due hdue (ends_readTail_of_ahead (Int.not_le.1 hgap) ?_)
      exact .goto (congrArg (fun next => (r.step.spend, next)) (if_neg hleft))
        (ih r.step.spend hspent)

/-- A consumer alone comes to the end of its call, with the answer and the ring of the whole
call. -/
theorem ends_dequeueWith (patience : Nat) (r : Ring k) :
    Ends patience r .readThreshold (r.dequeueWith patience).1 (r.dequeueWith patience).2 := by
  by_cases hspent : r.threshold < 0
  · rw [dequeueWith_of_threshold_neg patience hspent]
    exact .answer (congrArg (fun next => (r, next)) (if_pos hspent))
  · rw [dequeueWith, if_neg hspent]
    refine .goto (congrArg (fun next => (r, next)) (if_neg hspent)) ?_
    exact ends_probe patience r.threshold.toNat r (Int.toNat_of_nonneg (Int.not_lt.1 hspent)).symm

end Interleaving.Consumer

namespace Ring

open Interleaving

variable {k : Order}

/-- A call that may give up is told by the words before it, whatever they are. With the threshold
spent it finds nothing and changes nothing. Otherwise it takes the first index due in its window and
pays one unit of the threshold for each cursor before it; or it finds none, moves the head past the
window, pays for every cursor in it, and pulls the tail up if that is not ahead then. With any
patience it does the same, and a consumer alone comes to that end access by access. -/
theorem dequeue_window (r : Ring k) (hfull : r.threshold ≤ k.fullThreshold)
    (hgap : gap r.tail r.head ≠ -2 ^ 63) (patience : Nat) :
    r.dequeueWith patience = r.dequeue ∧
    Consumer.Ends patience r .readThreshold r.dequeue.1 r.dequeue.2 ∧
    (r.threshold < 0 → r.dequeue = (none, r)) ∧
    (0 ≤ r.threshold →
      (∀ j < r.window, r.DueAt (r.head + j.toUInt64) →
        (∀ i < j, ¬ r.DueAt (r.head + i.toUInt64)) →
        ∃ r', r.dequeue = (some (k.indexOf (r.word (r.head + j.toUInt64))), r') ∧
          r'.head = r.head + (j + 1).toUInt64 ∧ r'.threshold = r.threshold - j ∧
          r'.tail = r.tail) ∧
      ((∀ j < r.window, ¬ r.DueAt (r.head + j.toUInt64)) →
        ∃ r', r.dequeue = (none, r') ∧ r'.head = r.head + r.window.toUInt64 ∧
          r'.threshold = r.threshold - r.window ∧
          r'.tail = if gap r.tail r'.head ≤ 0 then r'.head else r.tail)) := by
  have hsame : r.dequeueWith patience = r.dequeue := r.dequeueWith_eq_dequeue patience
  refine ⟨hsame, hsame ▸ Consumer.ends_dequeueWith patience r,
    dequeueWith_of_threshold_neg publishPatience, fun hspent => ⟨?_, ?_⟩⟩
  · intro j hj hdue hfirst
    refine ⟨_, dequeueWith_of_dueAt hspent hfull hj hdue hfirst, ?_, ?_, ?_⟩
    · rw [head_step, head_afterLooks, add_toUInt64_add_one]
    · rw [threshold_step, threshold_afterLooks]
    · rw [tail_step, tail_afterLooks]
  · intro hnone
    have hcall : r.dequeue = _ := dequeueWith_of_not_dueAt hspent hfull hgap hnone
    by_cases hle : gap r.tail (r.afterLooks r.window).head ≤ 0
    · rw [if_pos hle] at hcall
      refine ⟨_, hcall, ?_, ?_, (if_pos hle).symm⟩
      · rw [head_catchUp, head_afterLooks]
      · rw [threshold_catchUp, threshold_afterLooks]
    · rw [if_neg hle] at hcall
      refine ⟨_, hcall, head_afterLooks r _, threshold_afterLooks r _, ?_⟩
      rw [tail_afterLooks, if_neg hle]

/-- The call comes back to the first cell and takes the index. -/
theorem dequeue_window_ahead :
    ahead.threshold ≤ Order.one.fullThreshold ∧ gap ahead.tail ahead.head ≠ -2 ^ 63 ∧
    0 ≤ ahead.threshold ∧ 4 < ahead.window ∧ Order.one.cell 5 = Order.one.cell ahead.head ∧
    ∃ r', ahead.dequeue = (some 1, r') ∧ r'.head = 6 ∧ r'.threshold = 1 ∧ r'.tail = 10 := by
  have hfull : ahead.threshold ≤ Order.one.fullThreshold := by decide
  have hgap : gap ahead.tail ahead.head ≠ -2 ^ 63 := by decide
  have hspent : 0 ≤ ahead.threshold := by decide
  have hwindow : 4 < ahead.window := by decide
  obtain ⟨-, -, -, hcall⟩ := dequeue_window ahead hfull hgap 0
  obtain ⟨r', hdequeue, hhead, hthreshold, htail⟩ :=
    (hcall hspent).1 4 hwindow (by decide) (by decide)
  exact ⟨hfull, hgap, hspent, hwindow, by decide, r', hdequeue, hhead, hthreshold, htail⟩

end Ring

end CircularQueue
