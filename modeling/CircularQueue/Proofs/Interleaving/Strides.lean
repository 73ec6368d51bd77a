import CircularQueue.Proofs.Interleaving.Publishing
import CircularQueue.Proofs.Interleaving.Taking

/-!
# Accesses case by case

What one access of a producer or of a consumer does to the cursors and to the threshold of the ring,
and where the thread goes, each as one relation with a case for each kind of access. A consumer that
has reserved a cursor keeps it as its ticket until it has compared the tail with it, even when it is
done with the cell.
-/

namespace CircularQueue.Interleaving

variable {k : Order}

namespace Producer

/-- One access of a producer that publishes the index `index`. -/
inductive Stride (index : Nat) (nonempty : Bool) (r : Ring k) :
    Producer → Ring k → Next Producer Unit → Prop
  | reserve :
      Stride index nonempty r .reserve { r with tail := r.tail + 1 } (.goto (.readCell r.tail))
  | keep {location location' : Producer} {c : Cursor} (hcursor : location.cursor? = some c)
      (hcursor' : location'.cursor? = some c) : Stride index nonempty r location r (.goto location')
  | giveUp {location : Producer} {c : Cursor} (hcursor : location.cursor? = some c)
      (hlost : k.admission c (r.word c) = .refused ∨ 0 < gap r.head c) :
      Stride index nonempty r location r (.goto .reserve)
  | publish {c : Cursor} {seen : Word} (hseen : r.word c = seen) :
      Stride index nonempty r (.exchange c seen) (r.write c (k.published c index))
        (if nonempty then .answer () else .goto .readThreshold)
  | leaveFull (hfull : r.threshold = k.fullThreshold) :
      Stride index nonempty r .readThreshold r (.answer ())
  | findLow : Stride index nonempty r .readThreshold r (.goto .resetThreshold)
  | reset : Stride index nonempty r .resetThreshold { r with threshold := k.fullThreshold }
      (.answer ())

theorem stride_weigh {index : Nat} {nonempty : Bool} {r : Ring k} {location : Producer} {c : Cursor}
    (hcursor : location.cursor? = some c) :
    Stride index nonempty r location r (.goto (weigh k c (r.word c))) := by
  cases hadmission : k.admission c (r.word c) with
  | refused =>
    rw [weigh, hadmission]
    exact .giveUp hcursor (.inl hadmission)
  | free | guarded =>
    rw [weigh, hadmission]
    exact .keep hcursor rfl

theorem stride_of_step {index : Nat} {nonempty : Bool} {r s : Ring k} {location : Producer}
    {spurious : Bool} {next : Next Producer Unit}
    (hstep : location.step index nonempty r spurious = (s, next)) :
    Stride index nonempty r location s next := by
  cases location with
  | reserve =>
    cases hstep
    exact .reserve
  | readCell c =>
    cases hstep
    exact stride_weigh rfl
  | readHead c seen =>
    simp only [step] at hstep
    split at hstep
    · cases hstep
      exact .keep (c := c) rfl rfl
    · rename_i hgap
      cases hstep
      exact .giveUp (c := c) rfl (.inr (Int.not_le.1 hgap))
  | exchange c seen =>
    simp only [step] at hstep
    split at hstep
    · rename_i hseen
      cases hstep
      exact .publish hseen.1
    · cases hstep
      exact stride_weigh rfl
  | readThreshold =>
    simp only [step] at hstep
    split at hstep
    · rename_i hfull
      cases hstep
      exact .leaveFull hfull
    · cases hstep
      exact .findLow
  | resetThreshold =>
    cases hstep
    exact .reset

end Producer

namespace Consumer

/-- The cursor that the consumer has reserved and not yet compared with the tail. -/
def ticket? : Consumer → Option Cursor
  | .take c _ | .readTail c => some c
  | location => location.looking?

/-- One access of a consumer that may be told that the ring is empty. -/
inductive Stride (r : Ring k) : Consumer → Ring k → Next Consumer (Option Nat) → Prop
  | giveUp (hspent : r.threshold < 0) : Stride r .readThreshold r (.answer none)
  | setOut (hleft : 0 ≤ r.threshold) : Stride r .readThreshold r (.goto .reserve)
  | reserve (patience : Nat) :
      Stride r .reserve { r with head := r.head + 1 } (.goto (.readCell r.head patience))
  | keep {location location' : Consumer} {c : Cursor} (hticket : location.ticket? = some c)
      (hticket' : location'.ticket? = some c) {cells : Vector Word k.cellCount} :
      Stride r location { r with cells } (.goto location')
  | collect {c : Cursor} {index : Nat} {cells : Vector Word k.cellCount} :
      Stride r (.take c index) { r with cells } (.answer (some index))
  | fallBehind {c : Cursor} (hbehind : r.tail.toNat ≤ c.toNat + 1) :
      Stride r (.readTail c) r (.goto (.dragTail r.tail (c + 1)))
  | seeAhead {c : Cursor} (hahead : c.toNat + 1 < r.tail.toNat) :
      Stride r (.readTail c) r (.goto .spend)
  | drag {head : Cursor} :
      Stride r (.dragTail r.tail head) { r with tail := head } (.goto .spendLast)
  | missTail {tail head : Cursor} : Stride r (.dragTail tail head) r (.goto .rereadHead)
  | rereadHead : Stride r .rereadHead r (.goto (.rereadTail r.head))
  | seeReached {head : Cursor} (hreached : head.toNat ≤ r.tail.toNat) :
      Stride r (.rereadTail head) r (.goto .spendLast)
  | seeBehind {head : Cursor} (hbehind : r.tail.toNat < head.toNat) :
      Stride r (.rereadTail head) r (.goto (.dragTail r.tail head))
  | spendLast : Stride r .spendLast { r with threshold := r.threshold - 1 } (.answer none)
  | spend {next : Next Consumer (Option Nat)}
      (hnext : r.threshold ≤ 0 ∧ next = .answer none ∨ 0 < r.threshold ∧ next = .goto .reserve) :
      Stride r .spend { r with threshold := r.threshold - 1 } next

theorem ticket?_settle (c : Cursor) (patience : Nat) (seen : Word) (barred : Option Word) :
    (settle false c patience seen barred).ticket? = some c := by
  cases barred <;> rfl

theorem ticket?_weigh (k : Order) (c : Cursor) (patience : Nat) (seen : Word) :
    (weigh k false c patience seen).ticket? = some c := by
  unfold weigh
  cases k.sight c seen with
  | due => rfl
  | stale marked => exact ticket?_settle c patience seen marked
  | vacant closed =>
    cases patience with
    | zero => exact ticket?_settle c 0 seen closed
    | succ => rfl

theorem stride_of_step {patience : Nat} {r s : Ring k} {location : Consumer} {spurious : Bool}
    {next : Next Consumer (Option Nat)} (hr : r.Early) (hinformed : location.Informed r)
    (hstep : location.step patience false r spurious = (s, next)) : Stride r location s next := by
  obtain ⟨hhead, htail⟩ := hr
  cases location with
  | readThreshold =>
    simp only [step] at hstep
    split at hstep
    · rename_i hspent
      cases hstep
      exact .giveUp hspent
    · rename_i hleft
      cases hstep
      exact .setOut (Int.not_lt.1 hleft)
  | reserve =>
    cases hstep
    exact .reserve patience
  | readCell c left =>
    cases hstep
    exact .keep (c := c) rfl (ticket?_weigh ..)
  | take c index =>
    cases hstep
    exact .collect
  | awaitProducer c left seen closed =>
    simp only [step] at hstep
    cases hstep
    refine .keep (c := c) rfl ?_
    split
    · rfl
    · exact ticket?_settle ..
  | bar c left seen barred =>
    simp only [step] at hstep
    split at hstep
    · cases hstep
      exact .keep (c := c) rfl rfl
    · cases hstep
      exact .keep (c := c) rfl (ticket?_weigh ..)
  | readTail c =>
    have hlt : c.toNat < r.head.toNat := hinformed
    have hsucc := toNat_add_one (c := c) (by omega)
    simp only [step] at hstep
    split at hstep
    · rename_i hgap
      rw [gap_eq_toNat_sub (by omega) (by omega)] at hgap
      cases hstep
      exact .fallBehind (by omega)
    · rename_i hgap
      rw [gap_eq_toNat_sub (by omega) (by omega)] at hgap
      cases hstep
      exact .seeAhead (by omega)
  | dragTail tail head =>
    simp only [step] at hstep
    split at hstep
    · rename_i hseen
      obtain ⟨rfl, -⟩ := hseen
      cases hstep
      exact .drag
    · cases hstep
      exact .missTail
  | rereadHead =>
    cases hstep
    exact .rereadHead
  | rereadTail head =>
    have hle : head.toNat ≤ r.head.toNat := hinformed
    simp only [step] at hstep
    split at hstep
    · rename_i hgap
      rw [gap_eq_toNat_sub (by omega) (by omega)] at hgap
      cases hstep
      exact .seeReached (by omega)
    · rename_i hgap
      rw [gap_eq_toNat_sub (by omega) (by omega)] at hgap
      cases hstep
      exact .seeBehind (by omega)
  | spendLast =>
    cases hstep
    exact .spendLast
  | spend =>
    simp only [step] at hstep
    cases hstep
    refine .spend ?_
    split
    · exact .inl ⟨‹_›, rfl⟩
    · exact .inr ⟨Int.not_le.1 ‹_›, rfl⟩

end Consumer

end CircularQueue.Interleaving
