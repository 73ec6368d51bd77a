import CircularQueue.Proofs.Interleaving.Pace
import Mathlib.Algebra.BigOperators.Fin
import Mathlib.Algebra.Order.BigOperators.Group.Finset

/-!
# Looks that the threshold lasts for

Consumers lower the threshold once for each cursor that they pass in vain. A consumer that has a
cursor owes a unit of the threshold until it has paid it or has found an index. The threshold lasts
if it pays for what is owed and for one look at each cursor before the last live one. A consumer
keeps this: the head moves on by one when it gets a cursor, and what it pays it has owed.

A producer that publishes may break it, and mends it when it resets the threshold. In between
others may well find the threshold used up, but until the producer has left the ring is not at rest.
What the reset grants is enough, since the tail is less than a lap ahead of the head then, and each
other thread owes one unit at most.
-/

namespace CircularQueue

open Interleaving

variable {k : Order} {t : Nat}

namespace Interleaving

/-- The units of the threshold that the consumer is still to pay. -/
def Consumer.owes : Consumer → Nat
  | .readThreshold | .reserve => 0
  | _ => 1

theorem Consumer.owes_le_one (location : Consumer) : location.owes ≤ 1 := by
  unfold owes
  split <;> omega

theorem Consumer.owes_of_ticket? {location : Consumer} {c : Cursor}
    (h : location.ticket? = some c) : location.owes = 1 := by
  cases location <;> first | rfl | cases h

namespace RingLocation

def owes : RingLocation → Nat
  | .taking _ location => location.owes
  | .publishing .. => 0

/-- The producer has published its index and is about to reset the threshold, if it has to. -/
def Renews : RingLocation → Prop
  | .publishing _ _ .readThreshold | .publishing _ _ .resetThreshold => True
  | _ => False

end RingLocation

/-- What the thread at this post owes. -/
def owedBy (post : Option RingLocation) : Nat := post.elim 0 RingLocation.owes

/-- What all threads owe. -/
def owed (posts : Fin t → Option RingLocation) : Nat := ∑ i, owedBy (posts i)

theorem owedBy_le_one (post : Option RingLocation) : owedBy post ≤ 1 := by
  rcases post with _ | _ | ⟨nonempty, location⟩
  · exact Nat.zero_le 1
  · exact Nat.zero_le 1
  · exact location.owes_le_one

theorem owed_update (posts : Fin t → Option RingLocation) (i : Fin t)
    (post : Option RingLocation) :
    owed (Function.update posts i post) + owedBy (posts i) = owed posts + owedBy post := by
  have hbefore := Finset.add_sum_erase Finset.univ (fun j => owedBy (posts j)) (Finset.mem_univ i)
  have hafter := Finset.add_sum_erase Finset.univ
    (fun j => owedBy (Function.update posts i post j)) (Finset.mem_univ i)
  have hothers : ∑ j ∈ Finset.univ.erase i, owedBy (Function.update posts i post j) =
      ∑ j ∈ Finset.univ.erase i, owedBy (posts j) := by
    refine Finset.sum_congr rfl fun j hj => ?_
    rw [Function.update_of_ne (Finset.ne_of_mem_erase hj)]
  rw [hothers, Function.update_self] at hafter
  rw [owed, owed]
  omega

/-- If one thread owes nothing, the others owe a unit each at most. -/
theorem owed_lt {posts : Fin t → Option RingLocation} {i : Fin t} (h : owedBy (posts i) = 0) :
    owed posts < t := by
  have hlt : owed posts < ∑ _ : Fin t, 1 :=
    Finset.sum_lt_sum (fun j _ => owedBy_le_one (posts j))
      ⟨i, Finset.mem_univ i, h ▸ Nat.one_pos⟩
  simpa using hlt

end Interleaving

namespace Ring

variable {r s : Ring k} {posts : Fin t → Option RingLocation} {i : Fin t}
  {post : Option RingLocation} {limit : Nat} {c : Cursor}

/-- The threshold pays for all that is owed and for a look at each cursor from the head to before
the live cursor `c`. -/
def Affords (r : Ring k) (posts : Fin t → Option RingLocation) (c : Cursor) : Prop :=
  (c.toNat : Int) + owed posts ≤ r.threshold + r.head.toNat

/-- The threshold lasts until the head comes to the last live cursor, or a producer is about to
reset it. -/
def Lasts (r : Ring k) (posts : Fin t → Option RingLocation) : Prop :=
  (∃ i location, posts i = some location ∧ location.Renews) ∨
    ∀ c index, c.toNat ≤ 2 ^ 61 → r.head.toNat ≤ c.toNat → r.liveAt c = some index →
      r.Affords posts c

/-- While no thread is at the ring the threshold lasts. -/
theorem Lasts.le_threshold (h : r.Lasts fun _ : Fin t => none) {index : Nat}
    (hc : c.toNat ≤ 2 ^ 61) (hhead : r.head.toNat ≤ c.toNat) (hlive : r.liveAt c = some index) :
    (c.toNat : Int) ≤ r.threshold + r.head.toNat := by
  rcases h with ⟨_, _, ⟨⟩, _⟩ | h
  have hafford := h c index hc hhead hlive
  rw [Affords] at hafford
  omega

/-- The threshold goes on lasting if nothing becomes live, and the head and the threshold make up
for what is owed in addition. -/
theorem Lasts.update (h : r.Lasts posts)
    (hquiet : ∀ location, posts i = some location → ¬ location.Renews)
    (hhead : r.head.toNat ≤ s.head.toNat)
    (hlive : ∀ c index, c.toNat ≤ 2 ^ 61 → s.liveAt c = some index → r.liveAt c = some index)
    (hpaid : (owedBy post : Int) + r.threshold + r.head.toNat ≤
      owedBy (posts i) + s.threshold + s.head.toNat) :
    s.Lasts (Function.update posts i post) := by
  rcases h with ⟨j, location, hj, hrenews⟩ | h
  · have hji : j ≠ i := by
      rintro rfl
      exact hquiet location hj hrenews
    exact .inl ⟨j, location, by rwa [Function.update_of_ne hji], hrenews⟩
  · refine .inr fun c index hc hle hat => ?_
    have hafford := h c index hc (hhead.trans hle) (hlive c index hc hat)
    have howed := owed_update posts i post
    rw [Affords] at hafford ⊢
    omega

/-- A full threshold lasts. -/
theorem Paced.lasts_of_full (h : r.Paced limit posts) (hattended : r.Attended posts)
    (hr : r.Early) (hlimit : limit ≤ k.capacity) (ht : t ≤ limit)
    (hfull : s.threshold = k.fullThreshold) (hcells : s.cells = r.cells) (hhead : s.head = r.head)
    {posts' : Fin t → Option RingLocation} (hpost : owedBy (posts' i) = 0) : s.Lasts posts' := by
  refine .inr fun c index hc hle hlive => ?_
  have hlead := h.tail_le hr
  have howed := owed_lt hpost
  have hbefore := hattended.lt_tail_of_live hc (liveAt_congr hcells c ▸ hlive)
  rw [Affords, hfull, Order.fullThreshold, hhead]
  omega

section Consumer

open Interleaving.Consumer

variable {location : Consumer} {next : Next Consumer (Option Nat)} {patience : Nat}
  {spurious : Bool}

/-- A consumer owes no more than before, but for a cursor that it gets and units that it pays. -/
theorem owedBy_of_stride (hr : r.Early) (hstride : Stride r location s next) :
    (owedBy (Consumer.post false next) : Int) + r.threshold + r.head.toNat ≤
      location.owes + s.threshold + s.head.toNat := by
  cases hstride with
  | reserve patience =>
    have hsucc := toNat_add_one (c := r.head) (hr.1.trans (by omega))
    simp only [hsucc, owedBy, post, RingLocation.owes, owes, Option.elim_some]
    omega
  | keep hticket hticket' =>
    rw [owes_of_ticket? hticket]
    have hnext := owes_of_ticket? hticket'
    simp only [owedBy, post, RingLocation.owes, Option.elim_some, hnext]
    omega
  | spend hnext =>
    rcases hnext with ⟨-, rfl⟩ | ⟨-, rfl⟩ <;> simp [owedBy, post, RingLocation.owes, owes]
  | _ => simp [owedBy, post, RingLocation.owes, owes]

theorem Lasts.consumer_step (h : r.Lasts posts) (hattended : r.Attended posts) (hr : r.Early)
    (hpost : posts i = some (.taking false location))
    (hstep : location.step patience false r spurious = (s, next)) :
    s.Lasts (Function.update posts i (Consumer.post false next)) := by
  have hstride := stride_of_step hr (hattended.informed i _ hpost) hstep
  have hmove := (hattended.move_of_step hr hpost hstep).1
  refine h.update ?_ (hattended.evolves_of_consumer_step hr hpost hstep).head_le ?_ ?_
  · rw [hpost]
    rintro _ ⟨⟩
    exact not_false
  · exact fun c index hc hlive => hattended.liveAt_before_move hr hpost hmove hc hlive
  · rw [hpost]
    exact owedBy_of_stride hr hstride

end Consumer

section Producer

open Interleaving.Producer

variable {location : Producer} {next : Next Producer Unit} {index : Nat} {spurious : Bool}

theorem Lasts.producer_step (h : r.Lasts posts) (hpaced : r.Paced limit posts)
    (hattended : r.Attended posts) (hr : r.Early) (hlimit : limit ≤ k.capacity) (ht : t ≤ limit)
    (hpost : posts i = some (.publishing index false location))
    (hstep : location.step index false r spurious = (s, next)) :
    s.Lasts (Function.update posts i (Producer.post index false next)) := by
  have hkeep {c : Cursor} (hcursor : location.cursor? = some c) (location' : Producer) :
      r.Lasts (Function.update posts i (some (.publishing index false location'))) := by
    refine h.update ?_ le_rfl (fun _ _ _ hlive => hlive) (by rw [hpost]; exact le_rfl)
    rw [hpost]
    rintro _ ⟨⟩
    cases location <;> first | exact not_false | cases hcursor
  have hfull {q : Ring k} (hthreshold : q.threshold = k.fullThreshold) (hcells : q.cells = r.cells)
      (hhead : q.head = r.head) : q.Lasts (Function.update posts i none) :=
    hpaced.lasts_of_full (i := i) hattended hr hlimit ht hthreshold hcells hhead
      (by rw [Function.update_self]; rfl)
  cases stride_of_step hstep with
  | reserve =>
    refine h.update ?_ le_rfl (fun _ _ _ hlive => hlive) (by rw [hpost]; exact le_rfl)
    rw [hpost]
    rintro _ ⟨⟩
    exact not_false
  | keep hcursor | giveUp hcursor => exact hkeep hcursor _
  | publish | findLow => exact .inl ⟨i, _, Function.update_self .., trivial⟩
  | leaveFull hthreshold => exact hfull hthreshold rfl rfl
  | reset => exact hfull rfl rfl rfl

end Producer

/-- In a ring without gaps the threshold lasts. -/
theorem Holds.lasts {is : List Nat} (h : r.Holds is) (hr : r.Early) :
    r.Lasts fun _ : Fin t => none := by
  refine .inr fun c index hc hhead hlive => ?_
  have hattended : r.Attended fun _ : Fin t => none := h.attended hr
  have htail := hattended.lt_tail_of_live hc hlive
  obtain ⟨hj, -⟩ := h.liveAt_eq_getElem hr hhead htail
  have hthreshold := h.threshold_eq (List.ne_nil_of_length_pos (by omega))
  have hlength := h.length_le
  have hpos := k.capacity_pos
  have howed : owed (fun _ : Fin t => (none : Option RingLocation)) = 0 :=
    Finset.sum_eq_zero fun _ _ => rfl
  rw [k.cellCount_eq] at hlength
  rw [Affords, howed, hthreshold, Order.fullThreshold]
  omega

end Ring

end CircularQueue
