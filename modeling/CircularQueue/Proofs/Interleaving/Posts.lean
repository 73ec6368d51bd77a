import CircularQueue.Interleaving.RingThreads
import CircularQueue.Proofs.Ring.Steps
import CircularQueue.Proofs.Turns
import CircularQueue.Ring.Live

/-!
# Threads posted at a ring

A thread that works on a ring has a post there, the location of its call, and many threads may have
one. What a thread remembers at its post was read some steps ago, and others have moved since. It is
`Informed` if what it remembers still bounds the ring as it now is: cursors only grow, and the word
of a cell only changes to one of a greater turn, apart from an index that is taken or marked.

A consumer has a cursor from the step that reserves it to the step that is done with its cell. A
cursor is passed once the head has gone past it and no consumer has it any more. An index is
unclaimed if it is live at a cursor that a consumer may still come to: from the head on, or where a
consumer is looking.
-/

namespace CircularQueue

/-- Cursors that are early are ordered as numbers. -/
theorem gap_eq_toNat_sub {a b : Cursor} (ha : a.toNat ≤ 2 ^ 62) (hb : b.toNat ≤ 2 ^ 62) :
    gap a b = (a.toNat : Int) - b.toNat :=
  gap_eq_of_toNat (by omega) (by omega) (by omega)

theorem toNat_add_one {c : Cursor} (hc : c.toNat ≤ 2 ^ 62) : (c + 1).toNat = c.toNat + 1 := by
  have hsum : (c + 1).toNat = (c.toNat + 1) % 2 ^ 64 := toNat_add_toUInt64 c 1
  omega

namespace Interleaving

variable {k : Order} {t : Nat}

namespace Consumer

/-- The cursor in whose cell the consumer looks for an index. -/
def looking? : Consumer → Option Cursor
  | .readCell c _ | .awaitProducer c _ _ _ | .bar c _ _ _ => some c
  | _ => none

/-- The index that the consumer has seen in its cell and is about to take out. -/
def claimed? : Consumer → Option Nat
  | .take _ i => some i
  | _ => none

/-- The cursor whose cell the consumer is not done with. -/
def cursor? : Consumer → Option Cursor
  | .take c _ => some c
  | location => location.looking?

/-- What the consumer remembers holds of the ring. -/
def Informed (r : Ring k) : Consumer → Prop
  | .readCell c _ | .take c _ | .readTail c => c.toNat < r.head.toNat
  | .awaitProducer c _ seen closed =>
    c.toNat < r.head.toNat ∧ k.lapOf seen ≠ k.lap c ∧ closed.getD seen = k.visited c seen ∧
      (closed = none → k.turn (k.lap c) < k.turn (r.word c))
  | .bar c _ seen barred =>
    c.toNat < r.head.toNat ∧ k.lapOf seen ≠ k.lap c ∧ barred = k.visited c seen
  | .dragTail tail head => tail.toNat ≤ head.toNat ∧ head.toNat ≤ r.head.toNat
  | .rereadTail head => head.toNat ≤ r.head.toNat
  | _ => True

theorem cursor?_of_looking? {location : Consumer} {c : Cursor}
    (h : location.looking? = some c) : location.cursor? = some c := by
  cases location <;> first | exact h | cases h

theorem claimed?_of_looking? {location : Consumer} {c : Cursor}
    (h : location.looking? = some c) : location.claimed? = none := by
  cases location <;> first | rfl | cases h

theorem claimed?_of_cursor? {location : Consumer} (h : location.cursor? = none) :
    location.claimed? = none := by
  cases location <;> first | rfl | cases h

theorem looking?_of_cursor? {location : Consumer} (h : location.cursor? = none) :
    location.looking? = none := by
  cases location <;> first | rfl | cases h

@[simp] theorem cursor?_pass (nonempty : Bool) (c : Cursor) : (pass nonempty c).cursor? = none := by
  cases nonempty <;> rfl

theorem informed_pass {r : Ring k} {c : Cursor} (h : c.toNat < r.head.toNat) (nonempty : Bool) :
    (pass nonempty c).Informed r := by
  cases nonempty
  · exact h
  · trivial

/-- The post of a consumer after a step, unless it has left. -/
def post (nonempty : Bool) : Next Consumer (Option Nat) → Option RingLocation
  | .goto location => some (.taking nonempty location)
  | .answer _ => none

/-- The index that is the consumer's after a step. -/
def gained? : Next Consumer (Option Nat) → Option Nat
  | .goto location => location.claimed?
  | .answer index => index

end Consumer

namespace Producer

/-- The cursor that the producer has. -/
def cursor? : Producer → Option Cursor
  | .readCell c | .readHead c _ | .exchange c _ => some c
  | _ => none

/-- The index that the producer is to publish, until it has. -/
def held? (index : Nat) : Producer → Option Nat
  | .readThreshold | .resetThreshold => none
  | _ => some index

/-- What the producer remembers holds of the ring. -/
def Informed (r : Ring k) : Producer → Prop
  | .readCell c => c.toNat < r.tail.toNat
  | .readHead c seen | .exchange c seen =>
    c.toNat < r.tail.toNat ∧ k.Vacant seen ∧ k.turn seen < k.turn (k.lap c) ∧
      (r.word c = seen ∨ k.turn seen < k.turn (r.word c))
  | _ => True

/-- The post of a producer after a step, unless it has left. -/
def post (index : Nat) (nonempty : Bool) : Next Producer Unit → Option RingLocation
  | .goto location => some (.publishing index nonempty location)
  | .answer _ => none

/-- The index that is the producer's after a step. -/
def kept? (index : Nat) : Next Producer Unit → Option Nat
  | .goto location => location.held? index
  | .answer _ => none

end Producer

namespace RingLocation

def looking? : RingLocation → Option Cursor
  | .taking _ location => location.looking?
  | .publishing .. => none

def cursor? : RingLocation → Option Cursor
  | .taking _ location => location.cursor?
  | .publishing .. => none

theorem cursor?_of_bind_looking? {post : Option RingLocation} {c : Cursor}
    (h : post.bind looking? = some c) : post.bind cursor? = some c := by
  obtain ⟨location, rfl, hlocation⟩ := Option.bind_eq_some_iff.1 h
  cases location with
  | publishing => cases hlocation
  | taking nonempty location => exact Consumer.cursor?_of_looking? hlocation

/-- A thread that has a cursor and has not claimed an index there is looking. -/
theorem looking?_of_unclaimed {post : Option RingLocation} {c : Cursor}
    (h : post.bind cursor? = some c)
    (hclaimed : ∀ nonempty index, post ≠ some (.taking nonempty (.take c index))) :
    post.bind looking? = some c := by
  obtain ⟨location, rfl, hlocation⟩ := Option.bind_eq_some_iff.1 h
  cases location with
  | publishing => cases hlocation
  | taking nonempty location =>
    cases location <;> first | exact hlocation | cases hlocation
    exact absurd rfl (hclaimed nonempty _)

def Informed (r : Ring k) : RingLocation → Prop
  | .taking _ location => location.Informed r
  | .publishing index _ location => index < k.capacity ∧ location.Informed r

end RingLocation

end Interleaving

open Interleaving

namespace Ring

variable {k : Order} {t : Nat}

/-- No cursor of the ring has passed `2 ^ 61`. -/
def Early (r : Ring k) : Prop := r.head.toNat ≤ 2 ^ 61 ∧ r.tail.toNat ≤ 2 ^ 61

instance (r : Ring k) : Decidable r.Early := inferInstanceAs (Decidable (_ ∧ _))

/-- No consumer will come to the cursor `c` any more. -/
def Passed (r : Ring k) (posts : Fin t → Option RingLocation) (c : Cursor) : Prop :=
  c.toNat < r.head.toNat ∧ ∀ i, (posts i).bind RingLocation.cursor? ≠ some c

/-- The index live where the thread with this post is looking. -/
def watched (r : Ring k) (post : Option RingLocation) : Option Nat :=
  (post.bind RingLocation.looking?).bind r.liveAt

/-- The indices live where consumers are looking. -/
def awaited (r : Ring k) (posts : Fin t → Option RingLocation) : List Nat :=
  (List.finRange t).filterMap fun i => r.watched (posts i)

/-- The indices that are published and that no consumer has claimed. -/
def unclaimed (r : Ring k) (posts : Fin t → Option RingLocation) : List Nat :=
  r.awaited posts ++ r.live

/-- Nothing is live from the producer's cursor on. -/
def InFront (r : Ring k) (location : Producer) : Prop :=
  ∀ c, location.cursor? = some c → ∀ d : Cursor, c.toNat ≤ d.toNat → d.toNat ≤ 2 ^ 61 →
    r.liveAt d = none

/-- The ring `s` may come after `r` while others work on it: cursors grow, and a word stays, changes
to one of a greater turn, or held an index. -/
structure Evolves (r s : Ring k) : Prop where
  head_le : r.head.toNat ≤ s.head.toNat
  tail_le : r.tail.toNat ≤ s.tail.toNat
  word : ∀ c, s.word c = r.word c ∨ k.turn (r.word c) < k.turn (s.word c) ∨
    k.turn (s.word c) = k.turn (r.word c) ∧ ¬ k.Vacant (r.word c)

namespace Evolves

variable {r s : Ring k}

theorem turn_le (h : r.Evolves s) (c : Cursor) : k.turn (r.word c) ≤ k.turn (s.word c) := by
  rcases h.word c with hword | hlt | ⟨heq, -⟩
  · rw [hword]
  · exact hlt.le
  · exact heq.ge

/-- A vacant word that was seen is still there, or its turn is over. -/
theorem seen (h : r.Evolves s) {c : Cursor} {seen : Word} (hvacant : k.Vacant seen)
    (hseen : r.word c = seen ∨ k.turn seen < k.turn (r.word c)) :
    s.word c = seen ∨ k.turn seen < k.turn (s.word c) := by
  rcases hseen with hseen | hlt
  · subst hseen
    rcases h.word c with hword | hlt | ⟨-, hoccupied⟩
    · exact .inl hword
    · exact .inr hlt
    · exact absurd hvacant hoccupied
  · exact .inr (hlt.trans_le (h.turn_le c))

theorem informed (h : r.Evolves s) {location : RingLocation} (hlocation : location.Informed r) :
    location.Informed s := by
  have hhead := h.head_le
  have htail := h.tail_le
  cases location with
  | publishing index nonempty location =>
    obtain ⟨hindex, hlocation⟩ := hlocation
    refine ⟨hindex, ?_⟩
    cases location with
    | readCell c => exact hlocation.trans_le htail
    | readHead c seen | exchange c seen =>
      obtain ⟨hlt, hvacant, hbehind, hseen⟩ := hlocation
      exact ⟨hlt.trans_le htail, hvacant, hbehind, h.seen hvacant hseen⟩
    | reserve | readThreshold | resetThreshold => trivial
  | taking nonempty location =>
    cases location with
    | readCell c _ | take c _ | readTail c => exact hlocation.trans_le hhead
    | awaitProducer c _ seen closed =>
      obtain ⟨hlt, hlap, hclosed, hlater⟩ := hlocation
      exact ⟨hlt.trans_le hhead, hlap, hclosed, fun hnone => (hlater hnone).trans_le (h.turn_le c)⟩
    | bar c _ seen barred => exact ⟨hlocation.1.trans_le hhead, hlocation.2⟩
    | dragTail tail head => exact ⟨hlocation.1, hlocation.2.trans hhead⟩
    | rereadTail head => exact hlocation.trans hhead
    | readThreshold | reserve | rereadHead | spendLast | spend => trivial

end Evolves

end Ring

end CircularQueue
