import CircularQueue.Proofs.Interleaving.Strides

/-!
# Cursors are dealt once

The tail deals cursors to producers and the head deals them to consumers, each cursor to one thread:
whoever reserves gets the next one, and the count only grows. A thread that has given a cursor back
never gets it again, and no one else does.

Consumers may be dealt cursors that no producer has got yet. Such a consumer drags the tail along
before it leaves, or sees that the tail has come past its cursor meanwhile. So every cursor before
the head is before the tail, or a consumer is still to see to it. The tail is dragged to a head that
was read before, so it never passes the head in this way.
-/

namespace CircularQueue.Interleaving

variable {k : Order} {t : Nat}

namespace RingLocation

/-- The cursor that the tail has dealt to the thread. -/
def tailTicket? : RingLocation → Option Cursor
  | .publishing _ _ location => location.cursor?
  | .taking .. => none

/-- The cursor that the head has dealt to the thread. -/
def headTicket? : RingLocation → Option Cursor
  | .publishing .. => none
  | .taking _ location => location.ticket?

end RingLocation

/-- The threads have cursors from before `next`, and no two the same. -/
structure Dealt (ticket : RingLocation → Option Cursor) (next : Cursor)
    (posts : Fin t → Option RingLocation) : Prop where
  lt : ∀ i c, (posts i).bind ticket = some c → c.toNat < next.toNat
  apart : ∀ i j c, (posts i).bind ticket = some c → (posts j).bind ticket = some c → i = j

/-- The cursor `c` has been dealt, and no thread has it any more. -/
def GivenBack (ticket : RingLocation → Option Cursor) (next : Cursor)
    (posts : Fin t → Option RingLocation) (c : Cursor) : Prop :=
  c.toNat < next.toNat ∧ ∀ i, (posts i).bind ticket ≠ some c

/-- A thread keeps its cursor, gives it back, or is dealt the next one. -/
structure Draws (ticket : RingLocation → Option Cursor) (before after : Option RingLocation)
    (next next' : Cursor) : Prop where
  le : next.toNat ≤ next'.toNat
  eq_or_eq : ∀ c, after.bind ticket = some c →
    before.bind ticket = some c ∨ c = next ∧ next.toNat < next'.toNat

theorem Draws.of_none {ticket : RingLocation → Option Cursor} {before after : Option RingLocation}
    {next next' : Cursor} (hle : next.toNat ≤ next'.toNat) (hnone : after.bind ticket = none) :
    Draws ticket before after next next' :=
  ⟨hle, fun c hc => by rw [hnone] at hc; cases hc⟩

theorem Draws.of_eq {ticket : RingLocation → Option Cursor} {before after : Option RingLocation}
    {next next' : Cursor} (hle : next.toNat ≤ next'.toNat)
    (heq : after.bind ticket = before.bind ticket) : Draws ticket before after next next' :=
  ⟨hle, fun _ hc => .inl (heq ▸ hc)⟩

section

variable {ticket : RingLocation → Option Cursor} {next next' : Cursor}
  {posts : Fin t → Option RingLocation} {i j : Fin t} {post : Option RingLocation} {c : Cursor}

theorem Dealt.none (next : Cursor) : Dealt ticket next fun _ : Fin t => Option.none where
  lt := by rintro _ _ ⟨⟩
  apart := by rintro _ _ _ ⟨⟩

/-- A cursor of a thread after a move was its own before, or has just been dealt. -/
theorem Dealt.before (hdraws : Draws ticket (posts i) post next next')
    (hj : (Function.update posts i post j).bind ticket = some c) :
    (posts j).bind ticket = some c ∨ j = i ∧ c = next ∧ next.toNat < next'.toNat := by
  by_cases hji : j = i
  · subst hji
    rw [Function.update_self] at hj
    exact (hdraws.eq_or_eq c hj).imp_right fun h => ⟨rfl, h⟩
  · rw [Function.update_of_ne hji] at hj
    exact .inl hj

theorem Dealt.update (h : Dealt ticket next posts)
    (hdraws : Draws ticket (posts i) post next next') :
    Dealt ticket next' (Function.update posts i post) where
  lt := by
    intro j c hj
    rcases Dealt.before hdraws hj with hbefore | ⟨-, rfl, hlt⟩
    · exact (h.lt j c hbefore).trans_le hdraws.le
    · exact hlt
  apart := by
    intro j j' c hj hj'
    rcases Dealt.before hdraws hj with hbefore | ⟨rfl, rfl, -⟩ <;>
      rcases Dealt.before hdraws hj' with hbefore' | ⟨rfl, heq, -⟩
    · exact h.apart j j' c hbefore hbefore'
    · exact absurd (h.lt j c hbefore) (heq ▸ lt_irrefl _)
    · exact absurd (h.lt j' c hbefore') (lt_irrefl _)
    · rfl

/-- What has been given back is not dealt again. -/
theorem GivenBack.update (h : GivenBack ticket next posts c)
    (hdraws : Draws ticket (posts i) post next next') :
    GivenBack ticket next' (Function.update posts i post) c := by
  refine ⟨h.1.trans_le hdraws.le, fun j hj => ?_⟩
  rcases Dealt.before hdraws hj with hbefore | ⟨-, rfl, -⟩
  · exact h.2 j hbefore
  · exact lt_irrefl _ h.1

/-- A thread still has its cursor after a move, or it has given it back. -/
theorem Dealt.has_or_givenBack (h : Dealt ticket next posts)
    (hdraws : Draws ticket (posts i) post next next') (hj : (posts j).bind ticket = some c) :
    (Function.update posts i post j).bind ticket = some c ∨
      GivenBack ticket next' (Function.update posts i post) c := by
  rw [or_iff_not_imp_left]
  intro hgone
  have hlt := h.lt j c hj
  refine ⟨hlt.trans_le hdraws.le, fun j' hj' => ?_⟩
  rcases Dealt.before hdraws hj' with hbefore | ⟨-, rfl, -⟩
  · rw [h.apart j' j c hbefore hj] at hj'
    exact hgone hj'
  · exact lt_irrefl _ hlt

end

/-! ## Who is still to see to the tail -/

/-- The consumer does not leave before the tail has come past the cursor `d`. -/
def Consumer.SeesTo (d : Cursor) : Consumer → Prop
  | .readCell c _ | .take c _ | .awaitProducer c _ _ _ | .bar c _ _ _ | .readTail c => d = c
  | .dragTail _ head | .rereadTail head => d.toNat < head.toNat
  | .rereadHead => True
  | .readThreshold | .reserve | .spendLast | .spend => False

theorem Consumer.seesTo_of_ticket? {location : Consumer} {c : Cursor}
    (h : location.ticket? = some c) {d : Cursor} : location.SeesTo d ↔ d = c := by
  cases location <;> cases h <;> rfl

end CircularQueue.Interleaving

namespace CircularQueue.Ring

open Interleaving

variable {k : Order} {t : Nat} {r s : Ring k} {posts : Fin t → Option RingLocation} {i : Fin t}
  {post : Option RingLocation}

/-- Every cursor that the head has dealt has been passed by the tail, or a consumer sees to it. -/
def Covered (r : Ring k) (posts : Fin t → Option RingLocation) : Prop :=
  ∀ c : Cursor, c.toNat < r.head.toNat → c.toNat < r.tail.toNat ∨
    ∃ i location, posts i = some (.taking false location) ∧ location.SeesTo c

/-- While no consumer is at the ring the head has not passed the tail. -/
theorem Covered.head_le (h : r.Covered posts)
    (hnone : ∀ i location, posts i ≠ some (.taking false location)) :
    r.head.toNat ≤ r.tail.toNat := by
  by_contra hpast
  rcases h r.tail (by omega) with hlt | ⟨i, location, hpost, -⟩
  · exact lt_irrefl _ hlt
  · exact hnone i location hpost

theorem Holds.head_le {is : List Nat} (h : r.Holds is) (hr : r.Early) :
    r.head.toNat ≤ r.tail.toNat := by
  have hgap := gap_eq_toNat_sub (a := r.tail) (b := r.head) (by have := hr.2; omega)
    (by have := hr.1; omega)
  rw [h.gap_tail] at hgap
  omega

theorem Holds.covered {is : List Nat} (h : r.Holds is) (hr : r.Early) : r.Covered posts :=
  fun _ hlt => .inl (hlt.trans_le (h.head_le hr))

theorem Covered.update (h : r.Covered posts) (htail : r.tail.toNat ≤ s.tail.toNat)
    (hself : ∀ c : Cursor, c.toNat < s.head.toNat →
      c.toNat < r.head.toNat ∨ ∃ location, post = some (.taking false location) ∧ location.SeesTo c)
    (hkept : ∀ location c, posts i = some (.taking false location) → location.SeesTo c →
      c.toNat < r.head.toNat → c.toNat < s.tail.toNat ∨
        ∃ location', post = some (.taking false location') ∧ location'.SeesTo c) :
    s.Covered (Function.update posts i post) := by
  have hfound {c : Cursor}
      (hpost : ∃ location, post = some (.taking false location) ∧ location.SeesTo c) :
      ∃ j location, Function.update posts i post j = some (.taking false location) ∧
        location.SeesTo c := by
    obtain ⟨location, hpost, hsees⟩ := hpost
    exact ⟨i, location, by rw [Function.update_self, hpost], hsees⟩
  intro c hlt
  rcases hself c hlt with hbefore | hnew
  · rcases h c hbefore with hpassed | ⟨j, location, hj, hsees⟩
    · exact .inl (hpassed.trans_le htail)
    · by_cases hji : j = i
      · rw [hji] at hj
        exact (hkept location c hj hsees hbefore).imp_right hfound
      · exact .inr ⟨j, location, by rwa [Function.update_of_ne hji], hsees⟩
  · exact .inr (hfound hnew)

/-- A thread moves that does not see to any cursor. -/
theorem Covered.of_not_seesTo (h : r.Covered posts) (hhead : s.head = r.head)
    (htail : r.tail.toNat ≤ s.tail.toNat)
    (hnone : ∀ location c, posts i = some (.taking false location) → ¬ location.SeesTo c) :
    s.Covered (Function.update posts i post) :=
  h.update htail (fun _ hlt => .inl (hhead ▸ hlt))
    fun location c hpost hsees => absurd hsees (hnone location c hpost)

/-- A consumer moves that goes on seeing to its cursors, unless the tail has come past them. -/
theorem Covered.of_seesTo (h : r.Covered posts) {location : Consumer}
    (hpost : posts i = some (.taking false location)) (hhead : s.head = r.head)
    (htail : r.tail.toNat ≤ s.tail.toNat)
    (hkept : ∀ c, location.SeesTo c → c.toNat < r.head.toNat → c.toNat < s.tail.toNat ∨
      ∃ location', post = some (.taking false location') ∧ location'.SeesTo c) :
    s.Covered (Function.update posts i post) := by
  refine h.update htail (fun _ hlt => .inl (hhead ▸ hlt)) ?_
  rw [hpost]
  rintro _ c ⟨⟩ hsees hlt
  exact hkept c hsees hlt

section Consumer

open Interleaving.Consumer

variable {location : Consumer} {next : Next Consumer (Option Nat)}

/-- A consumer drags the tail forward, and no further than the head. -/
theorem Attended.tail_of_consumer_stride (h : r.Attended posts)
    (hpost : posts i = some (.taking false location)) (hstride : Stride r location s next) :
    r.tail.toNat ≤ s.tail.toNat ∧ (s.tail = r.tail ∨ s.tail.toNat ≤ s.head.toNat) := by
  have hinformed : location.Informed r := h.informed i _ hpost
  cases hstride with
  | drag => exact ⟨hinformed.1, .inr hinformed.2⟩
  | _ => exact ⟨le_rfl, .inl rfl⟩

theorem head_of_consumer_stride (hr : r.Early) (hpost : posts i = some (.taking false location))
    (hstride : Stride r location s next) :
    Draws RingLocation.headTicket? (posts i) (Consumer.post false next) r.head s.head := by
  rw [hpost]
  cases hstride with
  | reserve patience =>
    have hhead := toNat_add_one (c := r.head) (by have := hr.1; omega)
    refine ⟨by simp only; omega, ?_⟩
    rintro _ ⟨⟩
    exact .inr ⟨rfl, by simp only; omega⟩
  | keep hticket hticket' =>
    refine .of_eq le_rfl ?_
    exact hticket'.trans hticket.symm
  | spend hnext => rcases hnext with ⟨-, rfl⟩ | ⟨-, rfl⟩ <;> exact .of_none le_rfl rfl
  | _ => exact .of_none le_rfl rfl

theorem Attended.covered_of_consumer_stride (h : r.Attended posts) (hr : r.Early)
    (hpost : posts i = some (.taking false location)) (hstride : Stride r location s next)
    (hcovered : r.Covered posts) :
    s.Covered (Function.update posts i (Consumer.post false next)) := by
  have hinformed : location.Informed r := h.informed i _ hpost
  have htail := (h.tail_of_consumer_stride hpost hstride).1
  cases hstride with
  | giveUp | setOut | spendLast | spend =>
    refine hcovered.of_not_seesTo rfl htail ?_
    rw [hpost]
    rintro _ c ⟨⟩
    exact not_false
  | reserve patience =>
    have hhead := toNat_add_one (c := r.head) (by have := hr.1; omega)
    refine hcovered.update htail ?_ ?_
    · intro c hlt
      rcases Nat.lt_or_ge c.toNat r.head.toNat with hbefore | hlast
      · exact .inl hbefore
      · refine .inr ⟨_, rfl, UInt64.toNat_inj.1 ?_⟩
        simp only at hlt
        omega
    · rw [hpost]
      rintro _ c ⟨⟩ hsees
      exact hsees.elim
  | keep hticket hticket' =>
    refine hcovered.of_seesTo hpost rfl htail fun c hsees _ => ?_
    exact .inr ⟨_, rfl, (seesTo_of_ticket? hticket').2 ((seesTo_of_ticket? hticket).1 hsees)⟩
  | @collect c index =>
    refine hcovered.of_seesTo hpost rfl htail fun d hsees hlt => ?_
    cases (show d = c from hsees)
    -- An index that a consumer has claimed was published, so a producer has had the cursor.
    exact .inl (h.lt_tail_of_live (hlt.le.trans hr.1) (h.claimed i false c index hpost))
  | @fallBehind c hbehind =>
    refine hcovered.of_seesTo hpost rfl htail fun d hsees hlt => ?_
    cases (show d = c from hsees)
    have hsucc := toNat_add_one (c := c) (by have := hr.1; omega)
    exact .inr ⟨_, rfl, (Nat.lt_succ_self _).trans_eq hsucc.symm⟩
  | @seeAhead c hahead =>
    refine hcovered.of_seesTo hpost rfl htail fun d hsees _ => ?_
    cases (show d = c from hsees)
    exact .inl (Nat.lt_of_succ_lt hahead)
  | drag => exact hcovered.of_seesTo hpost rfl htail fun _ hsees _ => .inl hsees
  | seeReached hreached =>
    exact hcovered.of_seesTo hpost rfl htail fun _ hsees _ => .inl (hsees.trans_le hreached)
  | missTail => exact hcovered.of_seesTo hpost rfl htail fun _ _ _ => .inr ⟨_, rfl, trivial⟩
  | rereadHead => exact hcovered.of_seesTo hpost rfl htail fun _ _ hlt => .inr ⟨_, rfl, hlt⟩
  | seeBehind => exact hcovered.of_seesTo hpost rfl htail fun _ hsees _ => .inr ⟨_, rfl, hsees⟩

end Consumer

section Producer

open Interleaving.Producer

variable {index : Nat} {nonempty : Bool} {location : Producer} {next : Next Producer Unit}

theorem tail_of_producer_stride (hr : r.Early)
    (hpost : posts i = some (.publishing index nonempty location))
    (hstride : Stride index nonempty r location s next) :
    Draws RingLocation.tailTicket? (posts i) (Producer.post index nonempty next) r.tail s.tail := by
  rw [hpost]
  cases hstride with
  | reserve =>
    have htail := toNat_add_one (c := r.tail) (by have := hr.2; omega)
    refine ⟨by simp only; omega, ?_⟩
    rintro _ ⟨⟩
    exact .inr ⟨rfl, by simp only; omega⟩
  | keep hcursor hcursor' =>
    refine .of_eq le_rfl ?_
    exact hcursor'.trans hcursor.symm
  | publish => cases nonempty <;> exact .of_none le_rfl rfl
  | _ => exact .of_none le_rfl rfl

theorem covered_of_producer_stride (hr : r.Early)
    (hpost : posts i = some (.publishing index nonempty location))
    (hstride : Stride index nonempty r location s next) (hcovered : r.Covered posts) :
    s.Covered (Function.update posts i (Producer.post index nonempty next)) := by
  refine hcovered.of_not_seesTo ?_ (tail_of_producer_stride hr hpost hstride).le ?_
  · cases hstride <;> rfl
  · rw [hpost]
    rintro _ _ ⟨⟩

end Producer

/-! ## What others rely on -/

namespace Attended

variable {patience : Nat} {nonempty spurious : Bool}

theorem evolves_of_consumer_step (h : r.Attended posts) (hr : r.Early) {location : Consumer}
    {next : Next Consumer (Option Nat)} (hpost : posts i = some (.taking nonempty location))
    (hstep : location.step patience nonempty r spurious = (s, next)) : r.Evolves s := by
  have hleave {c : Cursor} (hcursor : location.cursor? = some c) : r.Evolves (r.leave c) :=
    h.evolves_leave ((h.cursor_lt (i := i) (by rw [hpost]; exact hcursor)).le.trans hr.1)
  cases (h.move_of_step hr hpost hstep).1 with
  | rest _ _ _ hcells hhead htail =>
    exact ⟨hhead ▸ le_rfl, htail, fun c => .inl (word_congr hcells c)⟩
  | reserve =>
    have hhead := toNat_add_one (c := r.head) (by have := hr.1; omega)
    exact ⟨by simp only; omega, le_rfl, fun _ => .inl rfl⟩
  | look | claim => exact ⟨le_rfl, le_rfl, fun _ => .inl rfl⟩
  | leave hcursor => exact hleave (Consumer.cursor?_of_looking? hcursor)
  | collect hlocation =>
    subst hlocation
    exact hleave rfl

theorem evolves_of_producer_step (h : r.Attended posts) (hr : r.Early) {location : Producer}
    {index : Nat} {next : Next Producer Unit}
    (hpost : posts i = some (.publishing index nonempty location))
    (hstep : location.step index nonempty r spurious = (s, next)) : r.Evolves s := by
  cases (h.producer_move_of_step hr hpost hstep).1 with
  | rest _ hcells hhead htail => exact ⟨hhead ▸ le_rfl, htail, fun c => .inl (word_congr hcells c)⟩
  | publish hlocation hseen =>
    subst hlocation
    exact h.evolves_publish hpost hseen

end Attended

end CircularQueue.Ring
