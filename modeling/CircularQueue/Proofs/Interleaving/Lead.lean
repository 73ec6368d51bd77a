import CircularQueue.Proofs.Interleaving.Tickets
import Mathlib.Data.Finset.Card
import Mathlib.Order.Interval.Finset.Nat

/-!
# How far the tail runs ahead

A producer that finds an index in its cell gives the cursor up, so the tail may run ahead of the
head over cursors at which nothing is ever published. It does not run far. Each cursor from the head
to the tail has an index to account for it: the one that is live there, the one that the producer
with that cursor is to publish, or, if the cursor has been skipped, the one that was in the way.

An index lies in one place at a time. When it was in the way it lay in the cell of the skipped
cursor, at a cursor before the head; and if it is published again, it comes to a later cursor. So it
is never in the way a second time before the head has gone past the skipped cursor, and each index
accounts for two cursors at most.
-/

namespace CircularQueue

open Interleaving

variable {k : Order} {t : Nat}

namespace Interleaving

theorem Producer.held?_of_cursor? {location : Producer} {c : Cursor}
    (h : location.cursor? = some c) (index : Nat) : location.held? index = some index := by
  cases location <;> first | rfl | cases h

/-- The index that the thread is to publish. -/
def RingLocation.held? : RingLocation → Option Nat
  | .publishing index _ location => location.held? index
  | .taking .. => none

/-- The cursor that belongs to a place where an index may lie: a cursor itself, or a thread. -/
def cursorAt? (posts : Fin t → Option RingLocation) : Cursor ⊕ Fin t → Option Cursor
  | .inl c => some c
  | .inr i => (posts i).bind RingLocation.tailTicket?

end Interleaving

namespace Order

theorem lapOf_unusedWord (k : Order) : k.lapOf unusedWord = unusedWord := by
  have hcount := k.cellCount_le
  have hpos := k.cellCount_pos
  have hback := gap_sub_self (c := 0) (j := k.cellCount) (by omega)
  have hlap := lap_eq_unusedWord (k := k) (c := 0 - k.cellCount.toUInt64) hback.ge (by omega)
  rw [← hlap, lapOf_lap]

theorem vacant_unusedWord (k : Order) : k.Vacant unusedWord :=
  vacant_iff_eq_lapOf.2 (.inl k.lapOf_unusedWord.symm)

theorem behind_unusedWord {c : Cursor} (hc : c.toNat ≤ 2 ^ 61) : k.Behind unusedWord c := by
  have hmod := Nat.mod_le c.toNat k.cellCount
  have hpos := k.cellCount_pos
  have hturn := k.turn_unusedWord
  rw [behind_iff_turn_lt ⟨hturn.ge, by omega⟩ hc, hturn, turn_lap hc]
  omega

theorem admission_ne_refused {c : Cursor} {w : Word} (hbehind : k.Behind w c)
    (hvacant : k.Vacant w) : k.admission c w ≠ .refused := by
  rw [admission, if_pos hbehind]
  rcases vacant_iff_eq_lapOf.1 hvacant with hfree | hguarded
  · rw [if_pos hfree]
    simp
  · rw [if_pos hguarded]
    split <;> simp

end Order

namespace Ring

variable {r s : Ring k} {posts posts' : Fin t → Option RingLocation} {c : Cursor}

/-- The word of a cell was never written, or it has the lap of an early cursor of its cell. -/
def Dated (r : Ring k) : Prop :=
  ∀ c, r.word c = unusedWord ∨
    ∃ d : Cursor, d.toNat ≤ 2 ^ 61 ∧ k.cell d = k.cell c ∧ k.lap d = k.lapOf (r.word c)

namespace Dated

theorem congr (h : r.Dated) (hcells : s.cells = r.cells) : s.Dated := by
  intro c
  rw [word_congr hcells]
  exact h c

theorem write (h : r.Dated) (hc : c.toNat ≤ 2 ^ 61) {w : Word} (hlap : k.lapOf w = k.lap c) :
    (r.write c w).Dated := by
  intro d
  by_cases hcell : k.cell c = k.cell d
  · rw [word_write_of_cell_eq hcell]
    exact .inr ⟨c, hc, hcell, hlap.symm⟩
  · rw [word_write_of_cell_ne hcell]
    exact h d

theorem leave (h : r.Dated) (hc : c.toNat ≤ 2 ^ 61) : (r.leave c).Dated := by
  intro d
  by_cases hcell : k.cell c = k.cell d
  · right
    rw [word_leave_of_cell_eq hcell, Order.lapOf_visited]
    split
    · exact ⟨c, hc, hcell, rfl⟩
    · rename_i hkept
      refine (h d).resolve_left fun hunused => hkept ?_
      rw [hunused]
      exact ⟨Order.behind_unusedWord hc, k.vacant_unusedWord⟩
  · rw [word_leave_of_cell_ne hcell]
    exact h d

/-- An index in a cell is live at some cursor of the cell. -/
theorem exists_liveAt (h : r.Dated) (hoccupied : ¬ k.Vacant (r.word c)) :
    ∃ d : Cursor, d.toNat ≤ 2 ^ 61 ∧ k.cell d = k.cell c ∧
      r.liveAt d = some (k.indexOf (r.word c)) := by
  rcases h c with hunused | ⟨d, hd, hcell, hlap⟩
  · rw [hunused] at hoccupied
    exact absurd k.vacant_unusedWord hoccupied
  · rw [← word_eq_of_cell_eq hcell] at hlap hoccupied ⊢
    exact ⟨d, hd, hcell, liveAt_eq_some hlap.symm hoccupied⟩

end Dated

/-- The index lies in the given place: live at a cursor, or with a producer that is to publish
it. -/
def Lies (r : Ring k) (posts : Fin t → Option RingLocation) (index : Nat) : Cursor ⊕ Fin t → Prop
  | .inl c => c.toNat ≤ 2 ^ 61 ∧ r.liveAt c = some index
  | .inr i => (posts i).bind RingLocation.held? = some index

/-- The tail has gone past the cursor `u` and the head has not, but no index will come there. -/
structure Skipped (r : Ring k) (posts : Fin t → Option RingLocation) (u : Cursor) : Prop where
  head_le : r.head.toNat ≤ u.toNat
  lt_tail : u.toNat < r.tail.toNat
  not_live : r.liveAt u = none
  no_ticket : ∀ i, (posts i).bind RingLocation.tailTicket? ≠ some u

/-- Each skipped cursor has an index of its own to blame, which was in its cell. Since then the
index has come to later cursors only. -/
structure Blames (r : Ring k) (limit : Nat) (posts : Fin t → Option RingLocation)
    (blame : Cursor → Nat) : Prop where
  lt : ∀ u, r.Skipped posts u → blame u < limit
  inj : ∀ u v, r.Skipped posts u → r.Skipped posts v → blame u = blame v → u = v
  later : ∀ u place c, r.Skipped posts u → r.Lies posts (blame u) place →
    cursorAt? posts place = some c → k.cell c = k.cell u ∨ u.toNat < c.toNat

/-- The indices below `limit`, each in one place at most, account for all cursors from the head to
the tail. -/
structure Paced (r : Ring k) (limit : Nat) (posts : Fin t → Option RingLocation) : Prop where
  index_lt : ∀ index place, r.Lies posts index place → index < limit
  once : ∀ index place place', r.Lies posts index place → r.Lies posts index place' →
    place = place'
  dated : r.Dated
  blamed : ∃ blame, r.Blames limit posts blame

/-! ## The lead of the tail -/

section Count

open Finset

variable {limit : Nat} {blame : Cursor → Nat}

open Classical in
theorem Blames.card_le (h : r.Blames limit posts blame) (hr : r.Early) :
    ((Ico r.head.toNat r.tail.toNat).filter fun n => r.Skipped posts n.toUInt64).card ≤ limit := by
  rw [← card_range limit]
  refine card_le_card_of_injOn (fun n => blame n.toUInt64) ?_ ?_
  · intro n hn
    rw [mem_coe, mem_filter] at hn
    exact mem_coe.2 (mem_range.2 (h.lt _ hn.2))
  · intro m hm n hn heq
    rw [mem_coe, mem_filter, mem_Ico] at hm hn
    have hcursor := congrArg UInt64.toNat (h.inj _ _ hm.2 hn.2 heq)
    obtain ⟨-, htail⟩ := hr
    rwa [toNat_toUInt64 (by omega), toNat_toUInt64 (by omega)] at hcursor

/-- A cursor between head and tail that was not skipped has an index. -/
theorem exists_lies_of_not_skipped (hr : r.Early) (htail : c.toNat < r.tail.toNat)
    (hhead : r.head.toNat ≤ c.toNat) (hkept : ¬ r.Skipped posts c) :
    ∃ index place, r.Lies posts index place ∧ cursorAt? posts place = some c := by
  have hc : c.toNat ≤ 2 ^ 61 := htail.le.trans hr.2
  cases hlive : r.liveAt c with
  | some index => exact ⟨index, .inl c, ⟨hc, hlive⟩, rfl⟩
  | none =>
    obtain ⟨i, hticket⟩ : ∃ i, (posts i).bind RingLocation.tailTicket? = some c := by
      by_contra hnone
      exact hkept ⟨hhead, htail, hlive, fun i hi => hnone ⟨i, hi⟩⟩
    obtain ⟨location, hpost, hlocation⟩ := Option.bind_eq_some_iff.1 hticket
    cases location with
    | taking => cases hlocation
    | publishing index nonempty location =>
      refine ⟨index, .inr i, ?_, hticket⟩
      rw [Lies, hpost]
      exact Producer.held?_of_cursor? hlocation index

namespace Paced

open Classical in
theorem card_le (h : r.Paced limit posts) (hr : r.Early) :
    ((Ico r.head.toNat r.tail.toNat).filter fun n => ¬ r.Skipped posts n.toUInt64).card ≤
      limit := by
  obtain ⟨hheadEarly, htailEarly⟩ := hr
  have hlies (n : Nat) (hn : n ∈ (Ico r.head.toNat r.tail.toNat).filter fun n =>
      ¬ r.Skipped posts n.toUInt64) :
      ∃ index place, r.Lies posts index place ∧ cursorAt? posts place = some n.toUInt64 := by
    rw [mem_filter, mem_Ico] at hn
    have htoNat := toNat_toUInt64 (j := n) (by omega)
    exact exists_lies_of_not_skipped ⟨hheadEarly, htailEarly⟩ (by omega) (by omega) hn.2
  choose! index place hplace hcursor using hlies
  rw [← card_range limit]
  refine card_le_card_of_injOn index ?_ ?_
  · intro n hn
    exact mem_coe.2 (mem_range.2 (h.index_lt _ _ (hplace n hn)))
  · intro m hm n hn heq
    have hsame := h.once _ _ _ (hplace m hm) (heq ▸ hplace n hn)
    have hcursors : m.toUInt64 = n.toUInt64 := by
      rw [← Option.some.injEq, ← hcursor m hm, ← hcursor n hn, hsame]
    have hnat := congrArg UInt64.toNat hcursors
    rw [mem_coe, mem_filter, mem_Ico] at hm hn
    rwa [toNat_toUInt64 (by omega), toNat_toUInt64 (by omega)] at hnat

/-- The tail is never further ahead of the head than twice the number of indices. -/
theorem tail_le (h : r.Paced limit posts) (hr : r.Early) :
    r.tail.toNat ≤ r.head.toNat + 2 * limit := by
  classical
  obtain ⟨blame, hblame⟩ := h.blamed
  have hskipped := hblame.card_le hr
  have hkept := h.card_le hr
  have hsum := card_filter_add_card_filter_not (s := Ico r.head.toNat r.tail.toNat)
    (p := fun n => r.Skipped posts n.toUInt64)
  rw [Nat.card_Ico] at hsum
  omega

/-- Some cell is vacant if there are more cells than indices. -/
theorem exists_vacant (h : r.Paced limit posts) (hlimit : limit < k.cellCount) :
    ∃ c, k.Vacant (r.word c) := by
  by_contra hnone
  have hlive (n : Nat) := h.dated.exists_liveAt (c := n.toUInt64) fun hv => hnone ⟨_, hv⟩
  choose d hd hcell hlive using hlive
  have hcard : (range k.cellCount).card ≤ (range limit).card := by
    refine card_le_card_of_injOn (fun n => k.indexOf (r.word n.toUInt64)) ?_ ?_
    · intro n _
      exact mem_coe.2 (mem_range.2 (h.index_lt _ (.inl (d n)) ⟨hd n, hlive n⟩))
    · intro m hm n hn heq
      have hcount := k.cellCount_le
      have hsame : (.inl (d m) : Cursor ⊕ Fin t) = .inl (d n) :=
        h.once _ _ _ ⟨hd m, hlive m⟩ ⟨hd n, (hlive n).trans (congrArg some heq.symm)⟩
      have hcells : k.cell m.toUInt64 = k.cell n.toUInt64 := by
        rw [← hcell m, ← hcell n, Sum.inl.inj hsame]
      rw [mem_coe, mem_range] at hm hn
      rw [Order.cell_eq_iff, toNat_toUInt64 (by omega), toNat_toUInt64 (by omega),
        Nat.mod_eq_of_lt hm, Nat.mod_eq_of_lt hn] at hcells
      exact hcells
  rw [card_range, card_range] at hcard
  omega

end Paced

end Count

end Ring

end CircularQueue
