import CircularQueue.Proofs.Checked.Queue
import CircularQueue.Proofs.Interleaving.HandOff
import CircularQueue.Proofs.Queue.Fates

/-!
# Capacities that are granted can be used

The capacity asked for is looked at once, when a queue is made or given another capacity. Nothing
after that asks again whether the sizes computed from it fit. So the bounds on a capacity have to
keep all that comes later out of trouble: they leave an order that a ring may have, in which every
cursor has a cell and every slot number is an index. A run of a queue then passes all the checks
that a machine makes, and comes to what it comes to without them.
-/

namespace CircularQueue

variable {α β γ ε : Type}

/-! ## Which capacities are granted -/

/-- The answer that a request for the capacity `n` gets: it is granted from one to `2 ^ 30`, and
refused with its reason otherwise. The reason may be wrapped in a fault. -/
structure Verdict (wrap : CapacityError → ε) (n : Nat) (answer : Except ε β) : Prop where
  granted_iff : (∃ b, answer = .ok b) ↔ 1 ≤ n ∧ n ≤ 2 ^ 30
  zero : n = 0 → answer = .error (wrap .zero)
  tooLarge : 2 ^ 30 < n → answer = .error (wrap (.tooLarge n (2 ^ 30)))

theorem verdict_ofNat? (n : Nat) : Verdict id n (Capacity.ofNat? n) where
  granted_iff := by
    constructor
    · rintro ⟨c, hc⟩
      rw [← Capacity.val_of_ofNat? hc]
      exact ⟨c.pos, c.le_max⟩
    · rintro ⟨hpos, hle⟩
      exact ⟨⟨n, hpos, hle⟩, Capacity.ofNat?_val ⟨n, hpos, hle⟩⟩
  zero := by
    rintro rfl
    rfl
  tooLarge := by
    intro hlt
    have hpos : 0 < n := Nat.zero_lt_of_lt hlt
    have hmax : ¬ n ≤ maxCapacity := Nat.not_le.2 hlt
    rw [Capacity.ofNat?, dif_pos hpos, dif_neg hmax]
    rfl

namespace Verdict

variable {δ : Type} {wrap : CapacityError → ε} {n : Nat} {answer : Except ε β}

/-- An answer that grants and refuses together with another one, its reasons wrapped by `f`. -/
theorem transfer (h : Verdict wrap n answer) (f : ε → δ) {answer' : Except δ γ}
    (hok : (∃ c, answer' = .ok c) ↔ ∃ b, answer = .ok b)
    (herror : ∀ e, answer = .error e → answer' = .error (f e)) :
    Verdict (f ∘ wrap) n answer' where
  granted_iff := hok.trans h.granted_iff
  zero := fun hn => herror _ (h.zero hn)
  tooLarge := fun hn => herror _ (h.tooLarge hn)

theorem map (h : Verdict wrap n answer) (f : β → γ) : Verdict wrap n (answer.map f) := by
  refine h.transfer id ?_ ?_
  · cases answer <;> simp [Except.map]
  · rintro e rfl
    rfl

theorem mapError (h : Verdict wrap n answer) (f : ε → δ) :
    Verdict (f ∘ wrap) n (answer.mapError f) := by
  refine h.transfer f ?_ ?_
  · cases answer <;> simp [Except.mapError]
  · rintro e rfl
    rfl

end Verdict

namespace Queue

theorem tryCold_eq_map (n : Nat) :
    (tryCold n : Except CapacityError (Outcome α Unit × Queue α)) =
      (Capacity.ofNat? n).map created := by
  rw [tryCold]
  cases Capacity.ofNat? n <;> rfl

theorem tryNew_eq_map (n : Nat) :
    (tryNew n : Except CapacityError (Outcome α Unit × Queue α)) =
      (tryCold n).map (Prod.map id warm) := by
  rw [tryNew]
  cases (tryCold n : Except CapacityError (Outcome α Unit × Queue α)) <;> rfl

end Queue

theorem LockedQueue.tryNew_eq_map (n : Nat) :
    (tryNew n : Except CapacityError (LockedQueue α)) = (Capacity.ofNat? n).map ofCapacity := by
  rw [tryNew]
  cases Capacity.ofNat? n <;> rfl

theorem LockedQueue.answer_setCapacity (l : LockedQueue α) (n : Nat) :
    (l.setCapacity n).1.answer = (Capacity.ofNat? n).map fun _ => () := by
  rw [setCapacity]
  cases Capacity.ofNat? n <;> rfl

theorem Queue.Keeps.answer_setCapacity {q : Queue α} {s : BoundedList α} (h : q.Keeps s) (n : Nat) :
    ∃ outcome q', q.setCapacity n = .ok (outcome, q') ∧
      outcome.answer = (Capacity.ofNat? n).map fun _ => () := by
  cases hn : Capacity.ofNat? n with
  | error reason => exact ⟨_, q, setCapacity_error hn, rfl⟩
  | ok c => exact ⟨_, _, h.setCapacity_ok hn, rfl⟩

/-- Every request for the capacity `n` gets the same verdict: for a new queue of either kind and for
one that there is, and with all checks as well as without them. Where the caller vouches for the
capacity, a refusal is a fault. -/
structure Judged (α : Type) (n : Nat) : Prop where
  tryNew : Verdict id n (Queue.tryNew n : Except CapacityError (Outcome α Unit × Queue α))
  new : Verdict Fault.capacity n (Queue.new n : Except Fault (Outcome α Unit × Queue α))
  newCold : Verdict Fault.capacity n (Queue.newCold n : Except Fault (Outcome α Unit × Queue α))
  lockedTryNew : Verdict id n (LockedQueue.tryNew n : Except CapacityError (LockedQueue α))
  lockedNew : Verdict Fault.capacity n (LockedQueue.new n : Except Fault (LockedQueue α))
  setCapacity : ∀ q : Queue α, q.Reached → ∃ outcome q', q.setCapacity n = .ok (outcome, q') ∧
    Verdict id n outcome.answer
  lockedSetCapacity : ∀ l : LockedQueue α, Verdict id n (l.setCapacity n).1.answer
  checkedNew : Verdict (Breach.fault ∘ Fault.capacity) n
    (BareQueue.vouched (BareQueue.tryNew n) : Checked (Outcome α Unit × BareQueue α))
  checkedCold : Verdict (Breach.fault ∘ Fault.capacity) n
    (BareQueue.vouched (BareQueue.tryCold n) : Checked (Outcome α Unit × BareQueue α))

theorem judged (n : Nat) : Judged α n := by
  have hcold :
      Verdict id n (Queue.tryCold n : Except CapacityError (Outcome α Unit × Queue α)) := by
    rw [Queue.tryCold_eq_map]
    exact (verdict_ofNat? n).map _
  have hnew : Verdict id n (Queue.tryNew n : Except CapacityError (Outcome α Unit × Queue α)) := by
    rw [Queue.tryNew_eq_map]
    exact hcold.map _
  have hlocked : Verdict id n (LockedQueue.tryNew n : Except CapacityError (LockedQueue α)) := by
    rw [LockedQueue.tryNew_eq_map]
    exact (verdict_ofNat? n).map _
  exact {
    tryNew := hnew
    new := hnew.mapError Fault.capacity
    newCold := hcold.mapError Fault.capacity
    lockedTryNew := hlocked
    lockedNew := hlocked.mapError Fault.capacity
    setCapacity := by
      intro q hq
      obtain ⟨outcome, q', hset, hanswer⟩ := hq.keeps.answer_setCapacity n
      refine ⟨outcome, q', hset, ?_⟩
      rw [hanswer]
      exact (verdict_ofNat? n).map _
    lockedSetCapacity := by
      intro l
      rw [l.answer_setCapacity]
      exact (verdict_ofNat? n).map _
    checkedNew := by
      rw [Queue.tryNew_bare]
      exact (hnew.map _).mapError (Breach.fault ∘ Fault.capacity)
    checkedCold := by
      rw [Queue.tryCold_bare]
      exact (hcold.map _).mapError (Breach.fault ∘ Fault.capacity) }

/-! ## What a capacity that is granted is good for -/

/-- What is computed from an order passes all checks: its sizes, and for every cursor the number of
its cell, which lies among the cells. -/
structure Order.PassesChecks (k : Order) : Prop where
  capacity : Checked.capacity k.exponent = .ok k.capacity
  cellCount : Checked.cellCount k.exponent = .ok k.safeFlag
  indexMask : Checked.indexMask k.safeFlag = .ok k.indexMask
  belowLap : Checked.belowLap k.safeFlag = .ok k.belowLap
  fullThreshold : Checked.fullThreshold k.exponent = .ok k.fullThreshold
  position : ∀ c, Checked.position c k.exponent = .ok (k.cell c).val
  position_lt : ∀ c, (k.cell c).val < k.cellCount

theorem Order.passesChecks (k : Order) : k.PassesChecks where
  capacity := k.capacity_exponent
  cellCount := k.cellCount_exponent
  indexMask := k.indexMask_safeFlag
  belowLap := k.belowLap_safeFlag
  fullThreshold := k.fullThreshold_exponent
  position := k.position_exponent
  position_lt := fun c => (k.cell c).isLt

/-- Every access to a cell of a ring and every call pass all checks, whatever its cursors, its
threshold and its words are. Only a range of indices that it cannot be filled with is refused, and
only a call that does not return has no answer. -/
structure Ring.PassesChecks {k : Order} (r : Ring k) : Prop where
  load : ∀ c, r.bare.load c = .ok (r.word c)
  store : ∀ c w, r.bare.store c w = .ok (r.write c w).bare
  enqueue : ∀ i nonempty, r.bare.enqueue i nonempty =
    Checked.answered ((r.enqueue i nonempty).map (Prod.map id Ring.bare))
  dequeue : r.bare.dequeue false = .ok (Prod.map id Ring.bare r.dequeue)
  dequeueNonempty : r.bare.dequeue true =
    Checked.answered (r.dequeueNonempty.map (Prod.map some Ring.bare))
  fill : ∀ start stop, r.bare.fill start stop =
    ((r.fill start stop).map Ring.bare).mapError .fault
  reset : ∀ l : Order, r.bare.reset l.exponent = .ok (r.reset l).bare

theorem Ring.passesChecks {k : Order} (r : Ring k) : r.PassesChecks where
  load := r.load_bare
  store := r.store_bare
  enqueue := r.enqueue_bare
  dequeue := r.dequeue_bare
  dequeueNonempty := r.dequeueNonempty_bare
  fill := r.fill_bare
  reset := r.reset_bare

open Interleaving in
/-- The rings of a queue of capacity `c` have the least order that covers it, which is one that a
ring may have, and in this order no check fails, neither for a single access nor for a call. A new
queue of this capacity comes, in every run and until it is given up, to the same outcomes with all
checks as without them. Threads that share it find every slot there that they are led to, as long as
no cursor has passed `2 ^ 61`. -/
structure Capacity.Usable (α : Type) (c : Capacity) : Prop where
  order_least : IsLeast {k | c.val ≤ 2 ^ k} c.order.exponent
  order_le : c.order.exponent ≤ 30
  orderFor : Checked.orderFor c.val = .ok c.order.exponent
  order : c.order.PassesChecks
  rings : ∀ r : Ring c.order, r.PassesChecks
  runs : ∀ requests : List (Queue.Request α), ∃ outcomes last,
    (Queue.cold c).serveAndRelease requests = .ok (outcomes, last) ∧
    (do
      let (_, q) ← BareQueue.vouched (BareQueue.tryNew c.val)
      q.serveAndRelease requests) = .ok (outcomes, last) ∧
    (do
      let (_, q) ← BareQueue.vouched (BareQueue.tryCold c.val)
      q.serveAndRelease requests) = .ok (outcomes, last)
  threads : ∀ (patience t : Nat) (actions : List (Action (Transfer α) t)),
    (World.start (Queue.cold c) () t).Throughout (queueMachine α patience) World.Early actions →
    ∃ w, (World.start (Queue.cold c) () t).run (queueMachine α patience) actions = .ok w

/-- A queue that keeps a list serves every request and can be given up at any time. -/
theorem Queue.Keeps.serveAndRelease {q : Queue α} {s : BoundedList α} (h : q.Keeps s)
    (requests : List (Queue.Request α)) :
    ∃ outcomes last, q.serveAndRelease requests = .ok (outcomes, last) := by
  obtain ⟨outcomes, q', hserve, -, h'⟩ := h.serveAll requests
  exact ⟨outcomes, _, Queue.serveAndRelease_of_serveAll hserve h'.release⟩

theorem Capacity.usable (c : Capacity) : c.Usable α where
  order_least := by
    constructor
    · have hle := c.val_le_capacity_order
      rw [Order.capacity, Nat.one_shiftLeft] at hle
      exact hle
    · intro k hk
      rw [Set.mem_ofPred_eq, ← Nat.one_shiftLeft] at hk
      exact exponentFor_le hk
  order_le := c.order.exponent_le
  orderFor := c.orderFor_val
  order := c.order.passesChecks
  rings := fun r => r.passesChecks
  runs := by
    intro requests
    obtain ⟨outcomes, last, hserve⟩ := (Queue.keeps_cold c).serveAndRelease requests
    have hchecked := (Queue.cold c).attains_serveAndRelease requests _ hserve
    refine ⟨outcomes, last, hserve, ?_, ?_⟩
    · rw [Queue.tryNew_bare, Queue.tryNew_val]
      exact hchecked
    · rw [Queue.tryCold_bare, Queue.tryCold_val]
      exact hchecked
  threads := by
    intro patience t actions hearly
    obtain ⟨hfree, hallocated⟩ := hearly.now
    have hmade : (Queue.cold c : Queue α).MadeFor c := Queue.madeFor_cold c
    obtain ⟨-, spare, howned⟩ := hmade.owned
    obtain ⟨w, hrun, -⟩ := (Interleaving.World.Custody.start howned hfree hallocated).run hearly
    exact ⟨w, hrun⟩

/-- For a number above the largest capacity there is no ring. -/
theorem withOrder_orderFor_ne_ok {n : Nat} (hlt : 2 ^ 30 < n) (r : BareRing) :
    (Checked.orderFor n).bind BareRing.withOrder ≠ .ok r := by
  cases horder : Checked.orderFor n with
  | error breach => rintro ⟨⟩
  | ok order =>
    have habove := Capacity.maxOrder_lt_of_orderFor hlt horder
    rw [Except.bind, BareRing.withOrder, Checked.ensure_of_not (Nat.not_le.2 habove)]
    rintro ⟨⟩

/-- A capacity is granted, wherever it is asked for, from one to `2 ^ 30` and no other. What is
granted can be used: nothing that is computed from it ever fails a check. Above the bound there
would not even be a ring. -/
theorem granted_capacities_usable (α : Type) :
    (∀ n, Judged α n) ∧ (∀ c : Capacity, c.Usable α) ∧
      ∀ n, 2 ^ 30 < n → ∀ r, (Checked.orderFor n).bind BareRing.withOrder ≠ .ok r :=
  ⟨judged, Capacity.usable, fun _ hlt r => withOrder_orderFor_ne_ok hlt r⟩

end CircularQueue
