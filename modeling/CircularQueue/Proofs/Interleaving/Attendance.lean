import CircularQueue.Proofs.Interleaving.Posts
import CircularQueue.Proofs.Ring.Traffic
import CircularQueue.Proofs.Ring.Layout
import Mathlib.Data.List.FinRange
import Mathlib.Data.Finset.Insert

/-!
# Rings that threads attend to

What keeps producers and consumers from each other's indices, while any number of them stand at a
ring. Consumers have different cursors, and nothing is live at a cursor that has been passed. A cell
whose cursor has been passed is barred to producers of that cursor and of earlier ones of the cell,
unless they have already decided to write it; and no producer that has decided to write a cell, and
still finds the word it saw there, can be late, since the consumer that passed would have changed
the word. So an index is never published where no consumer will come.

There are four ways in which a thread may change the ring or what others rely on: it moves on
without touching a word, it reserves the head, it leaves the cell of its cursor, or it publishes.
Each of them keeps the ring attended.
-/

namespace CircularQueue.Ring

open Interleaving

variable {k : Order} {t : Nat}

/-- What holds of a ring between any two steps of the threads that are posted there. -/
structure Attended (r : Ring k) (posts : Fin t → Option RingLocation) : Prop where
  timely : ∀ c, k.Timely (r.word c)
  not_live : ∀ c, r.tail.toNat ≤ c.toNat → c.toNat ≤ 2 ^ 61 → r.liveAt c = none
  spent : ∀ c, c.toNat ≤ 2 ^ 61 → k.Vacant (r.word c) → k.lapOf (r.word c) = k.lap c →
    r.Passed posts c
  informed : ∀ i location, posts i = some location → location.Informed r
  claimed : ∀ i nonempty c index, posts i = some (.taking nonempty (.take c index)) →
    r.liveAt c = some index
  apart : ∀ i j c, (posts i).bind RingLocation.cursor? = some c →
    (posts j).bind RingLocation.cursor? = some c → i = j
  taken : ∀ c, r.Passed posts c → r.liveAt c = none
  barred : ∀ c, r.Passed posts c → k.turn (k.lap c) ≤ k.turn (r.word c) ∨ k.Marked (r.word c)
  unpassed : ∀ i index nonempty c seen,
    posts i = some (.publishing index nonempty (.exchange c seen)) → r.word c = seen →
      ∀ d, k.cell d = k.cell c → c.toNat ≤ d.toNat → ¬ r.Passed posts d

/-- The ring after the consumer at the cursor `c` has done with its cell. -/
def leave (r : Ring k) (c : Cursor) : Ring k := r.write c (k.visited c (r.word c))

@[simp] theorem head_leave (r : Ring k) (c : Cursor) : (r.leave c).head = r.head := rfl

@[simp] theorem tail_leave (r : Ring k) (c : Cursor) : (r.leave c).tail = r.tail := rfl

theorem word_leave_of_cell_eq {r : Ring k} {c d : Cursor} (h : k.cell c = k.cell d) :
    (r.leave c).word d = k.visited c (r.word d) := by
  rw [leave, word_write_of_cell_eq h, word_eq_of_cell_eq h]

theorem word_leave_of_cell_ne {r : Ring k} {c d : Cursor} (h : k.cell c ≠ k.cell d) :
    (r.leave c).word d = r.word d :=
  word_write_of_cell_ne h

theorem word_congr {r s : Ring k} (h : s.cells = r.cells) (c : Cursor) : s.word c = r.word c := by
  rw [word, word, h]

theorem liveAt_congr {r s : Ring k} (h : s.cells = r.cells) (c : Cursor) :
    s.liveAt c = r.liveAt c := by
  rw [liveAt, liveAt, word_congr h]

theorem liveAt_leave {r : Ring k} {c d : Cursor} (hc : c.toNat ≤ 2 ^ 61) (hd : d.toNat ≤ 2 ^ 61)
    (hne : d ≠ c) : (r.leave c).liveAt d = r.liveAt d := by
  by_cases hcell : k.cell c = k.cell d
  · refine liveAt_eq_of_visited (word_leave_of_cell_eq hcell) fun hlap => hne ?_
    exact (Order.eq_of_lap_eq_of_le hcell hlap hc hd).symm
  · rw [liveAt, liveAt, word_leave_of_cell_ne hcell]

/-- Nothing is live any more where a consumer has been. -/
theorem liveAt_leave_self (r : Ring k) (c : Cursor) : (r.leave c).liveAt c = none := by
  have hword := word_leave_of_cell_eq (r := r) (c := c) rfl
  by_cases hvacant : k.Vacant (k.visited c (r.word c))
  · exact liveAt_eq_none_of_vacant (hword ▸ hvacant)
  · obtain ⟨hoccupied, hlap⟩ := not_or.1 (mt Order.vacant_visited_iff.2 hvacant)
    refine liveAt_eq_none_of_lap ?_
    rw [hword, Order.lapOf_visited, if_neg fun hand => hoccupied hand.2]
    exact hlap

theorem liveAt_write_published {r : Ring k} {c d : Cursor} {index : Nat}
    (hindex : index < k.capacity) (hvacant : k.Vacant (r.word c)) (hc : c.toNat ≤ 2 ^ 61)
    (hd : d.toNat ≤ 2 ^ 61) (hne : d ≠ c) :
    (r.write c (k.published c index)).liveAt d = r.liveAt d := by
  have hgap := gap_eq_toNat_sub (a := d) (b := c) (by omega) (by omega)
  have hlive : (r.publish c index true).liveAt d = r.liveAt d :=
    liveAt_publish hindex hvacant (mt gap_eq_zero_iff.1 hne) (by omega)
  exact hlive

theorem liveAt_write_published_self (r : Ring k) (c : Cursor) {index : Nat}
    (hindex : index < k.capacity) : (r.write c (k.published c index)).liveAt c = some index := by
  have hfield := Nat.lt_trans hindex k.capacity_lt_cellCount
  have hword := r.word_write_self c (k.published c index)
  rw [liveAt_eq_some (by rw [hword, k.lapOf_published c hfield])
    (by rw [hword]; exact k.not_vacant_published c hindex), hword, k.indexOf_published c hfield]

/-! Cursors that have been passed, when one thread moves. -/

variable {r s : Ring k} {posts : Fin t → Option RingLocation} {i : Fin t}
  {post : Option RingLocation} {c : Cursor}

theorem passed_update_iff : s.Passed (Function.update posts i post) c ↔
    c.toNat < s.head.toNat ∧ post.bind RingLocation.cursor? ≠ some c ∧
      ∀ j, j ≠ i → (posts j).bind RingLocation.cursor? ≠ some c :=
  and_congr_right fun _ => Function.forall_update_iff posts fun _ place =>
    place.bind RingLocation.cursor? ≠ some c

theorem passed_iff (i : Fin t) : r.Passed posts c ↔
    c.toNat < r.head.toNat ∧ (posts i).bind RingLocation.cursor? ≠ some c ∧
      ∀ j, j ≠ i → (posts j).bind RingLocation.cursor? ≠ some c := by
  rw [← passed_update_iff, Function.update_eq_self]

/-- A thread that keeps its cursor passes none. -/
theorem passed_update_of_cursor_eq (hhead : s.head = r.head)
    (hcursor : post.bind RingLocation.cursor? = (posts i).bind RingLocation.cursor?) :
    s.Passed (Function.update posts i post) c ↔ r.Passed posts c := by
  rw [passed_update_iff, passed_iff i, hhead, hcursor]

/-- A consumer that leaves passes the cursor it had. -/
theorem passed_update_of_leave (hhead : s.head = r.head)
    (hcursor : (posts i).bind RingLocation.cursor? = some c) {d : Cursor}
    (h : s.Passed (Function.update posts i post) d) : d = c ∨ r.Passed posts d := by
  rw [passed_update_iff, hhead] at h
  rw [passed_iff i, hcursor]
  by_cases hd : d = c
  · exact .inl hd
  · exact .inr ⟨h.1, fun heq => hd (Option.some.inj heq).symm, h.2.2⟩

namespace Attended

/-- An index is live at cursors before the tail only. -/
theorem lt_tail_of_live (h : r.Attended posts) (hc : c.toNat ≤ 2 ^ 61) {index : Nat}
    (hlive : r.liveAt c = some index) : c.toNat < r.tail.toNat := by
  by_contra hpast
  rw [h.not_live c (Nat.le_of_not_lt hpast) hc] at hlive
  cases hlive

theorem cursor_lt (h : r.Attended posts) (hcursor : (posts i).bind RingLocation.cursor? = some c) :
    c.toNat < r.head.toNat := by
  obtain ⟨location, hpost, hlocation⟩ := Option.bind_eq_some_iff.1 hcursor
  have hinformed := h.informed i location hpost
  cases location with
  | publishing => cases hlocation
  | taking nonempty location =>
    cases location <;> cases hlocation
    · exact hinformed
    · exact hinformed
    · exact hinformed.1
    · exact hinformed.1

/-- What is published at a cursor not passed is live there. -/
theorem liveAt_of_lap (h : r.Attended posts) (hc : c.toNat ≤ 2 ^ 61) (hpassed : ¬ r.Passed posts c)
    (hlap : k.lapOf (r.word c) = k.lap c) : r.liveAt c = some (k.indexOf (r.word c)) :=
  liveAt_eq_some hlap fun hvacant => hpassed (h.spent c hc hvacant hlap)

/-- What the other threads remember is still so, if the ring only evolves. -/
theorem informed_update (h : r.Attended posts) (hevolves : r.Evolves s)
    (hpost : ∀ location, post = some location → location.Informed s) (j : Fin t)
    (location : RingLocation) (hj : Function.update posts i post j = some location) :
    location.Informed s := by
  by_cases hji : j = i
  · rw [hji, Function.update_self] at hj
    exact hpost location hj
  · rw [Function.update_of_ne hji] at hj
    exact hevolves.informed (h.informed j location hj)

/-- Cursors stay apart when a thread moves that gets no new one. -/
theorem apart_update (h : r.Attended posts)
    (hkeeps : ∀ c, post.bind RingLocation.cursor? = some c →
      (posts i).bind RingLocation.cursor? = some c) (j j' : Fin t) (c : Cursor)
    (hj : (Function.update posts i post j).bind RingLocation.cursor? = some c)
    (hj' : (Function.update posts i post j').bind RingLocation.cursor? = some c) : j = j' := by
  have hbefore {l : Fin t}
      (hl : (Function.update posts i post l).bind RingLocation.cursor? = some c) :
      (posts l).bind RingLocation.cursor? = some c := by
    by_cases hli : l = i
    · rw [hli, Function.update_self] at hl
      exact hli ▸ hkeeps c hl
    · rwa [Function.update_of_ne hli] at hl
  exact h.apart j j' c (hbefore hj) (hbefore hj')

theorem timely_write (h : r.Attended posts) {w : Word} (hw : k.Timely w) (d : Cursor) :
    k.Timely ((r.write c w).word d) := by
  by_cases hcell : k.cell c = k.cell d
  · rwa [word_write_of_cell_eq hcell]
  · rw [word_write_of_cell_ne hcell]
    exact h.timely d

/-- A thread moves without touching a word. -/
theorem settle (h : r.Attended posts) (hcells : s.cells = r.cells) (hhead : s.head = r.head)
    (htail : r.tail.toNat ≤ s.tail.toNat)
    (hcursor : post.bind RingLocation.cursor? = (posts i).bind RingLocation.cursor?)
    (hinformed : ∀ location, post = some location → location.Informed s)
    (hclaimed : ∀ nonempty c index, post = some (.taking nonempty (.take c index)) →
      r.liveAt c = some index)
    (hunpassed : ∀ index nonempty c seen,
      post = some (.publishing index nonempty (.exchange c seen)) → r.word c = seen →
        ∀ d, k.cell d = k.cell c → c.toNat ≤ d.toNat → ¬ r.Passed posts d) :
    s.Attended (Function.update posts i post) where
  timely := fun c => word_congr hcells c ▸ h.timely c
  not_live := by
    intro c hle hlate
    rw [liveAt_congr hcells]
    exact h.not_live c (htail.trans hle) hlate
  spent := by
    intro c hc hvacant hlap
    rw [word_congr hcells] at hvacant hlap
    exact (passed_update_of_cursor_eq hhead hcursor).2 (h.spent c hc hvacant hlap)
  informed :=
    h.informed_update ⟨hhead ▸ le_rfl, htail, fun c => .inl (word_congr hcells c)⟩ hinformed
  claimed := by
    refine (Function.forall_update_iff posts fun _ place => ∀ nonempty c index,
      place = some (.taking nonempty (.take c index)) → s.liveAt c = some index).2 ⟨?_, ?_⟩
    · intro nonempty c index hpost
      rw [liveAt_congr hcells]
      exact hclaimed nonempty c index hpost
    · intro j _ nonempty c index hj
      rw [liveAt_congr hcells]
      exact h.claimed j nonempty c index hj
  apart := h.apart_update fun _ hc => hcursor ▸ hc
  taken := by
    intro c hpassed
    rw [liveAt_congr hcells]
    exact h.taken c ((passed_update_of_cursor_eq hhead hcursor).1 hpassed)
  barred := by
    intro c hpassed
    rw [word_congr hcells]
    exact h.barred c ((passed_update_of_cursor_eq hhead hcursor).1 hpassed)
  unpassed := by
    refine (Function.forall_update_iff posts fun _ place => ∀ index nonempty c seen,
      place = some (.publishing index nonempty (.exchange c seen)) → s.word c = seen →
        ∀ d, k.cell d = k.cell c → c.toNat ≤ d.toNat →
          ¬ s.Passed (Function.update posts i post) d).2 ⟨?_, ?_⟩
    · intro index nonempty c seen hpost hseen d hcell hle
      rw [passed_update_of_cursor_eq hhead hcursor]
      exact hunpassed index nonempty c seen hpost (word_congr hcells c ▸ hseen) d hcell hle
    · intro j _ index nonempty c seen hj hseen d hcell hle
      rw [passed_update_of_cursor_eq hhead hcursor]
      exact h.unpassed j index nonempty c seen hj (word_congr hcells c ▸ hseen) d hcell hle

/-- A thread comes to the ring and has no cursor there yet. -/
theorem enter (h : r.Attended posts) (hpost : posts i = none) {location : RingLocation}
    (hcursor : location.cursor? = none) (hinformed : location.Informed r)
    (hexchange : ∀ index nonempty c seen,
      location ≠ .publishing index nonempty (.exchange c seen)) :
    r.Attended (Function.update posts i (some location)) := by
  refine h.settle rfl rfl le_rfl (by rw [hpost]; exact hcursor) ?_ ?_ ?_
  · rintro _ ⟨⟩
    exact hinformed
  · rintro nonempty c index ⟨⟩
    cases hcursor
  · intro index nonempty c seen heq
    exact absurd (Option.some.inj heq) (hexchange index nonempty c seen)

/-- A consumer reserves the head. -/
theorem reserve (h : r.Attended posts) (hr : r.Early)
    (hcursor : (posts i).bind RingLocation.cursor? = none) (nonempty : Bool) (patience : Nat) :
    ({ r with head := r.head + 1 } : Ring k).Attended
      (Function.update posts i (some (.taking nonempty (.readCell r.head patience)))) := by
  have hhead := toNat_add_one (c := r.head) (by have := hr.1; omega)
  have hevolves : r.Evolves { r with head := r.head + 1 } :=
    ⟨by rw [hhead]; omega, le_rfl, fun _ => .inl rfl⟩
  -- The consumer has the only cursor that the head has newly gone past.
  have hpassed (d : Cursor) : ({ r with head := r.head + 1 } : Ring k).Passed
      (Function.update posts i (some (.taking nonempty (.readCell r.head patience)))) d ↔
        r.Passed posts d := by
    rw [passed_update_iff, passed_iff i, hcursor, hhead]
    constructor
    · rintro ⟨hlt, hself, hothers⟩
      have hne : d.toNat ≠ r.head.toNat := fun heq =>
        hself (congrArg some (UInt64.toNat_inj.1 heq).symm)
      exact ⟨by omega, by simp, hothers⟩
    · rintro ⟨hlt, -, hothers⟩
      refine ⟨by omega, fun heq => ?_, hothers⟩
      have heq : r.head = d := Option.some.inj heq
      rw [heq] at hlt
      exact lt_irrefl _ hlt
  exact {
    timely := h.timely
    not_live := h.not_live
    spent := fun d hd hvacant hlap => (hpassed d).2 (h.spent d hd hvacant hlap)
    informed := by
      refine h.informed_update hevolves ?_
      rintro location ⟨⟩
      exact (Nat.lt_succ_self _).trans_eq hhead.symm
    claimed := by
      refine (Function.forall_update_iff posts fun _ place => ∀ nonempty c index,
        place = some (.taking nonempty (.take c index)) → r.liveAt c = some index).2 ⟨?_, ?_⟩
      · rintro _ _ _ ⟨⟩
      · exact fun j _ => h.claimed j
    apart := by
      have hfresh (j : Fin t) : (posts j).bind RingLocation.cursor? ≠ some r.head := fun hj =>
        lt_irrefl _ (h.cursor_lt hj)
      intro j j' c hj hj'
      by_cases hji : j = i <;> by_cases hji' : j' = i
      · rw [hji, hji']
      · rw [hji, Function.update_self] at hj
        rw [Function.update_of_ne hji', ← hj] at hj'
        exact absurd hj' (hfresh j')
      · rw [hji', Function.update_self] at hj'
        rw [Function.update_of_ne hji, ← hj'] at hj
        exact absurd hj (hfresh j)
      · rw [Function.update_of_ne hji] at hj
        rw [Function.update_of_ne hji'] at hj'
        exact h.apart j j' c hj hj'
    taken := fun d hd => h.taken d ((hpassed d).1 hd)
    barred := fun d hd => h.barred d ((hpassed d).1 hd)
    unpassed := by
      refine (Function.forall_update_iff posts fun _ place => ∀ index nonempty c seen,
        place = some (.publishing index nonempty (.exchange c seen)) → r.word c = seen →
          ∀ d, k.cell d = k.cell c → c.toNat ≤ d.toNat → ¬ Ring.Passed _ _ d).2 ⟨?_, ?_⟩
      · rintro _ _ _ _ ⟨⟩
      · intro j _ index nonempty c seen hj hseen d hcell hle
        rw [hpassed]
        exact h.unpassed j index nonempty c seen hj hseen d hcell hle }

theorem evolves_leave (h : r.Attended posts) (hc : c.toNat ≤ 2 ^ 61) : r.Evolves (r.leave c) where
  head_le := le_rfl
  tail_le := le_rfl
  word := by
    intro d
    by_cases hcell : k.cell c = k.cell d
    · rw [word_leave_of_cell_eq hcell]
      by_cases hvacant : k.Vacant (r.word d)
      · by_cases hbehind : k.Behind (r.word d) c
        · right
          left
          rw [Order.turn_visited, if_pos ⟨hbehind, hvacant⟩]
          exact (Order.behind_iff_turn_lt (h.timely d) hc).1 hbehind
        · left
          rw [Order.visited, if_neg hbehind]
          split
          · exact hvacant
          · rfl
      · right
        right
        rw [Order.turn_visited, if_neg fun hand => hvacant hand.2]
        exact ⟨rfl, hvacant⟩
    · exact .inl (word_leave_of_cell_ne hcell)

/-- A consumer that closed the cell of a later cursor has changed the word that a producer saw
there. -/
theorem word_leave_ne_seen (h : r.Attended posts) {index : Nat} {nonempty : Bool} {d : Cursor}
    {seen : Word} (hpost : posts i = some (.publishing index nonempty (.exchange d seen)))
    (hc : c.toNat ≤ 2 ^ 61) (hd : d.toNat ≤ 2 ^ 61) (hcell : k.cell c = k.cell d)
    (hle : d.toNat ≤ c.toNat) : (r.leave c).word d ≠ seen := by
  obtain ⟨-, -, hvacant, hturn, hseen⟩ := h.informed i _ hpost
  have hcursors := (Order.turn_lap_le_iff hcell.symm hd hc).2 hle
  rw [word_leave_of_cell_eq hcell]
  rcases hseen with hseen | hlt
  · rw [← hseen] at hvacant hturn ⊢
    exact Order.visited_ne_of_behind
      ((Order.behind_iff_turn_lt (h.timely d) hc).2 (hturn.trans_le hcursors)) hvacant
  · intro heq
    have hgrows := Order.turn_le_turn_visited (h.timely d) hc
    rw [heq] at hgrows
    omega

/-- A consumer has done with the cell of its cursor. -/
theorem leave (h : r.Attended posts) (hr : r.Early)
    (hcursor : (posts i).bind RingLocation.cursor? = some c) {nonempty : Bool}
    {next : Next Consumer (Option Nat)}
    (hnext : (Consumer.post nonempty next).bind RingLocation.cursor? = none)
    (hinformed : ∀ location, Consumer.post nonempty next = some location →
      location.Informed (r.leave c)) :
    (r.leave c).Attended (Function.update posts i (Consumer.post nonempty next)) := by
  have hlt := h.cursor_lt hcursor
  have hc : c.toNat ≤ 2 ^ 61 := hlt.le.trans hr.1
  have hevolves := h.evolves_leave hc
  have hself : (r.leave c).Passed (Function.update posts i (Consumer.post nonempty next)) c := by
    rw [passed_update_iff, hnext]
    refine ⟨hlt, by simp, fun j hj hcursor' => hj (h.apart j i c hcursor' hcursor)⟩
  have hgrows {d : Cursor} (hd : r.Passed posts d) :
      (r.leave c).Passed (Function.update posts i (Consumer.post nonempty next)) d := by
    rw [passed_update_iff, hnext]
    exact ⟨hd.1, by simp, fun j _ => hd.2 j⟩
  exact {
    timely := h.timely_write (Order.timely_visited (h.timely c) hc)
    not_live := by
      intro d hle hd
      by_cases hdc : d = c
      · rw [hdc, liveAt_leave_self]
      · rw [liveAt_leave hc hd hdc]
        exact h.not_live d hle hd
    spent := by
      intro d hd hvacant hlap
      by_cases hcell : k.cell c = k.cell d
      · rw [word_leave_of_cell_eq hcell, Order.lapOf_visited] at hlap
        rw [word_leave_of_cell_eq hcell, Order.vacant_visited_iff] at hvacant
        by_cases hlapc : k.lap c = k.lap d
        · rw [← Order.eq_of_lap_eq_of_le hcell hlapc hc hd]
          exact hself
        · split at hlap
          · exact absurd hlap hlapc
          · rcases hvacant with hvacant | hdue
            · exact hgrows (h.spent d hd hvacant hlap)
            · exact absurd (hdue.symm.trans hlap) hlapc
      · rw [word_leave_of_cell_ne hcell] at hvacant hlap
        exact hgrows (h.spent d hd hvacant hlap)
    informed := h.informed_update hevolves hinformed
    claimed := by
      refine (Function.forall_update_iff posts fun _ place => ∀ nonempty d index,
        place = some (.taking nonempty (.take d index)) →
          (r.leave c).liveAt d = some index).2 ⟨?_, ?_⟩
      · intro _ d index hpost
        rw [hpost] at hnext
        cases hnext
      · intro j hj nonempty d index hpost
        have hcursor' : (posts j).bind RingLocation.cursor? = some d := by
          rw [hpost]
          rfl
        have hne : d ≠ c := fun heq => hj (h.apart j i c (heq ▸ hcursor') hcursor)
        rw [liveAt_leave hc ((h.cursor_lt hcursor').le.trans hr.1) hne]
        exact h.claimed j nonempty d index hpost
    apart := h.apart_update (by simp [hnext])
    taken := by
      intro d hd
      by_cases hdc : d = c
      · rw [hdc, liveAt_leave_self]
      · rw [liveAt_leave hc (hd.1.le.trans hr.1) hdc]
        exact h.taken d ((passed_update_of_leave (head_leave r c) hcursor hd).resolve_left hdc)
    barred := by
      intro d hd
      by_cases hcell : k.cell c = k.cell d
      · rw [word_leave_of_cell_eq hcell]
        rcases passed_update_of_leave (head_leave r c) hcursor hd with rfl | hd
        · exact (Order.barred_visited (h.timely d) hc).imp_right And.left
        · rcases h.barred d hd with hturn | hmarked
          · exact .inl (hturn.trans (Order.turn_le_turn_visited (h.timely d) hc))
          · exact .inr (hmarked.visited c)
      · have hne : d ≠ c := fun heq => hcell (heq ▸ rfl)
        rw [word_leave_of_cell_ne hcell]
        exact h.barred d ((passed_update_of_leave (head_leave r c) hcursor hd).resolve_left hne)
    unpassed := by
      refine (Function.forall_update_iff posts fun _ place => ∀ index nonempty d seen,
        place = some (.publishing index nonempty (.exchange d seen)) → (r.leave c).word d = seen →
          ∀ e, k.cell e = k.cell d → d.toNat ≤ e.toNat → ¬ Ring.Passed _ _ e).2 ⟨?_, ?_⟩
      · intro index nonempty' d seen hpost
        cases next <;> cases hpost
      · intro j _ index nonempty d seen hpost hseen e hcell hle he
        have hd : d.toNat ≤ 2 ^ 61 := (h.informed j _ hpost).2.1.le.trans hr.2
        have hnotseen : ¬ (k.cell c = k.cell d ∧ d.toNat ≤ c.toNat) := fun hand =>
          h.word_leave_ne_seen hpost hc hd hand.1 hand.2 hseen
        rcases passed_update_of_leave (head_leave r c) hcursor he with rfl | he
        · exact hnotseen ⟨hcell, hle⟩
        · refine h.unpassed j index nonempty d seen hpost ?_ e hcell hle he
          obtain ⟨-, -, hvacant, -, hremembers⟩ := h.informed j _ hpost
          refine hremembers.resolve_right fun hlt => ?_
          have hgrows := hevolves.turn_le d
          rw [hseen] at hgrows
          omega }

theorem evolves_publish (h : r.Attended posts) {index : Nat} {nonempty : Bool} {seen : Word}
    (hpost : posts i = some (.publishing index nonempty (.exchange c seen)))
    (hseen : r.word c = seen) : r.Evolves (r.write c (k.published c index)) where
  head_le := le_rfl
  tail_le := le_rfl
  word := by
    obtain ⟨hindex, -, -, hturn, -⟩ := h.informed i _ hpost
    have hfield := Nat.lt_trans hindex k.capacity_lt_cellCount
    intro d
    by_cases hcell : k.cell c = k.cell d
    · right
      left
      rw [word_write_of_cell_eq hcell, k.turn_published c hfield, ← word_eq_of_cell_eq hcell, hseen]
      exact hturn
    · exact .inl (word_write_of_cell_ne hcell)

/-- A producer publishes its index at a cursor that has not been passed. -/
theorem publish (h : r.Attended posts) (hr : r.Early) {index : Nat} {nonempty : Bool} {seen : Word}
    (hpost : posts i = some (.publishing index nonempty (.exchange c seen)))
    (hseen : r.word c = seen) {next : Next Producer Unit}
    (hnext : next = .answer () ∨ next = .goto .readThreshold) :
    (r.write c (k.published c index)).Attended
      (Function.update posts i (Producer.post index nonempty next)) := by
  obtain ⟨hindex, hlt, hvacant, hturn, -⟩ := h.informed i _ hpost
  have hfield := Nat.lt_trans hindex k.capacity_lt_cellCount
  have hc : c.toNat ≤ 2 ^ 61 := hlt.le.trans hr.2
  have hevolves := h.evolves_publish hpost hseen
  have hoccupied := k.not_vacant_published c hindex
  have hpassed (d : Cursor) : (r.write c (k.published c index)).Passed
      (Function.update posts i (Producer.post index nonempty next)) d ↔ r.Passed posts d := by
    refine passed_update_of_cursor_eq rfl ?_
    rw [hpost]
    rcases hnext with rfl | rfl <;> rfl
  rw [← hseen] at hvacant hturn
  exact {
    timely := h.timely_write
      (Order.timely_of_turn_eq (Order.timely_lap hc) (k.turn_published c hfield))
    not_live := by
      intro d hle hd
      have hne : d ≠ c := by
        rintro rfl
        exact absurd hle (Nat.not_le.2 hlt)
      rw [liveAt_write_published hindex hvacant hc hd hne]
      exact h.not_live d hle hd
    spent := by
      intro d hd hvacant' hlap
      by_cases hcell : k.cell c = k.cell d
      · rw [word_write_of_cell_eq hcell] at hvacant'
        exact absurd hvacant' hoccupied
      · rw [word_write_of_cell_ne hcell] at hvacant' hlap
        exact (hpassed d).2 (h.spent d hd hvacant' hlap)
    informed := by
      refine h.informed_update hevolves fun location hlocation => ?_
      rcases hnext with rfl | rfl <;> cases hlocation
      exact ⟨hindex, trivial⟩
    claimed := by
      refine (Function.forall_update_iff posts fun _ place => ∀ nonempty d index',
        place = some (.taking nonempty (.take d index')) →
          (r.write c (k.published c index)).liveAt d = some index').2 ⟨?_, ?_⟩
      · intro _ d index' hlocation
        rcases hnext with rfl | rfl <;> cases hlocation
      · intro j _ nonempty' d index' hj
        have hlive := h.claimed j nonempty' d index' hj
        have hcursor : (posts j).bind RingLocation.cursor? = some d := by
          rw [hj]
          rfl
        have hne : d ≠ c := by
          rintro rfl
          rw [liveAt_eq_none_of_vacant hvacant] at hlive
          cases hlive
        rw [liveAt_write_published hindex hvacant hc ((h.cursor_lt hcursor).le.trans hr.1) hne]
        exact hlive
    apart := h.apart_update (by rcases hnext with rfl | rfl <;> rintro _ ⟨⟩)
    taken := by
      intro d hd
      rw [hpassed] at hd
      have hne : d ≠ c := by
        rintro rfl
        exact h.unpassed i index nonempty d seen hpost hseen d rfl le_rfl hd
      rw [liveAt_write_published hindex hvacant hc (hd.1.le.trans hr.1) hne]
      exact h.taken d hd
    barred := by
      intro d hd
      rw [hpassed] at hd
      by_cases hcell : k.cell c = k.cell d
      -- A passed cursor of the cell comes before that of the producer, whose turn is now there.
      · have hbefore : d.toNat ≤ c.toNat := by
          by_contra hafter
          exact h.unpassed i index nonempty c seen hpost hseen d hcell.symm (by omega) hd
        left
        rw [word_write_of_cell_eq hcell, k.turn_published c hfield]
        exact (Order.turn_lap_le_iff hcell.symm (hd.1.le.trans hr.1) hc).2 hbefore
      · rw [word_write_of_cell_ne hcell]
        exact h.barred d hd
    unpassed := by
      refine (Function.forall_update_iff posts fun _ place => ∀ index' nonempty d seen',
        place = some (.publishing index' nonempty (.exchange d seen')) →
          (r.write c (k.published c index)).word d = seen' →
            ∀ e, k.cell e = k.cell d → d.toNat ≤ e.toNat → ¬ Ring.Passed _ _ e).2 ⟨?_, ?_⟩
      · intro _ _ d seen' hlocation
        rcases hnext with rfl | rfl <;> cases hlocation
      · intro j _ index' nonempty' d seen' hj hseen' e hcell hle
        rw [hpassed]
        refine h.unpassed j index' nonempty' d seen' hj ?_ e hcell hle
        by_cases hcd : k.cell c = k.cell d
        · rw [word_write_of_cell_eq hcd] at hseen'
          obtain ⟨-, -, hvacant', -⟩ := h.informed j _ hj
          exact absurd (hseen' ▸ hvacant') hoccupied
        · rwa [word_write_of_cell_ne hcd] at hseen' }

end Attended

/-! ## The beginning -/

theorem le_of_cell_eq {c d : Cursor} (hcell : k.cell c = k.cell d)
    (hlt : d.toNat < c.toNat + k.cellCount) : d.toNat ≤ c.toNat := by
  by_contra hafter
  have hdvd : k.cellCount ∣ d.toNat - c.toNat :=
    (Nat.modEq_iff_dvd' (by omega)).1 (Order.cell_eq_iff.1 hcell)
  have hle := Nat.le_of_dvd (by omega) hdvd
  omega

/-- In a ring without gaps a cell was never written, or was written last at a cursor of the last lap
before the tail. -/
theorem Holds.word_cases {is : List Nat} (h : r.Holds is) (hr : r.Early) (c : Cursor) :
    (r.word c = unusedWord ∧ ∀ d, k.cell d = k.cell c → r.tail.toNat ≤ d.toNat) ∨
    ∃ e, k.cell e = k.cell c ∧ e.toNat < r.tail.toNat ∧ r.tail.toNat ≤ e.toNat + k.cellCount ∧
      (e.toNat < r.head.toNat ∧ r.word c = k.lap e ∨
        r.head.toNat ≤ e.toNat ∧ ∃ i < k.capacity, r.word c = k.published e i) := by
  have hcount := k.cellCount_le
  obtain ⟨hhead, htail⟩ := hr
  obtain ⟨j, hj, hcell⟩ := r.exists_cell_recent_eq c
  have hrecent := r.gap_recent_tail hj
  have hzero : gap r.tail 0 = r.tail.toNat := by
    rw [gap_eq_toNat_sub (by omega) (by simp)]
    simp
  have hplace := gap_add_gap (a := r.recent j) (b := r.tail) (c := 0) (by omega) (by omega)
  rw [← word_eq_of_cell_eq hcell]
  rcases Int.lt_or_le (gap (r.recent j) 0) 0 with hneg | hpos
  · left
    have hbefore : gap (r.recent j) r.head < 0 := by
      have hhead0 : gap r.head 0 = r.head.toNat := by
        rw [gap_eq_toNat_sub (by omega) (by simp)]
        simp
      have hgap := gap_eq_sub (a := r.recent j) (b := r.head) 0 (by omega) (by omega)
      omega
    refine ⟨?_, ?_⟩
    · rw [h.word_recent_passed hj hbefore, Order.lap_eq_unusedWord (by omega) hneg]
    · intro d hd
      have hmod := Order.toNat_mod_of_gap_neg (k := k) (by omega) hneg
      rw [Order.cell_eq_iff.1 (hcell.trans hd.symm)] at hmod
      have hle := Nat.mod_le d.toNat k.cellCount
      omega
  · right
    have hnat : ((r.recent j).toNat : Int) = gap (r.recent j) 0 := by
      have heq := congrArg UInt64.toNat (eq_add_gap hpos)
      rw [toNat_add_toUInt64, UInt64.toNat_zero] at heq
      omega
    refine ⟨r.recent j, hcell, by omega, by omega, ?_⟩
    have hgap := gap_eq_toNat_sub (a := r.recent j) (b := r.head) (by omega) (by omega)
    rcases Int.lt_or_le (gap (r.recent j) r.head) 0 with hbefore | hafter
    · exact .inl ⟨by omega, h.word_recent_passed hj hbefore⟩
    · obtain ⟨i, hi, hword⟩ := h.word_recent_live hj hafter
      exact .inr ⟨by omega, i, h.index_lt i (List.mem_of_getElem? hi), hword⟩

theorem turn_unusedWord_lt (c : Cursor) (hc : c.toNat ≤ 2 ^ 61) :
    k.turn unusedWord < k.turn (k.lap c) := by
  have hpos := k.cellCount_pos
  have hmod := Nat.mod_le c.toNat k.cellCount
  rw [k.turn_unusedWord, Order.turn_lap hc]
  omega

/-- A word of a ring without gaps that has the lap of its cursor was written there. -/
theorem Holds.lt_tail_of_lap {is : List Nat} (h : r.Holds is) (hr : r.Early)
    (hc : c.toNat ≤ 2 ^ 61) (hlap : k.lapOf (r.word c) = k.lap c) :
    c.toNat < r.tail.toNat ∧ (k.Vacant (r.word c) → c.toNat < r.head.toNat) := by
  rcases h.word_cases hr c with ⟨hunused, -⟩ | ⟨e, hcell, hlt, -, hword⟩
  · have hturn := turn_unusedWord_lt (k := k) c hc
    rw [← hunused, Order.turn_eq_turn_lap_iff.2 hlap] at hturn
    exact absurd hturn (lt_irrefl _)
  · have he : e.toNat ≤ 2 ^ 61 := hlt.le.trans hr.2
    rcases hword with ⟨hbefore, hword⟩ | ⟨-, i, hi, hword⟩
    · rw [hword, k.lapOf_lap] at hlap
      rw [← Order.eq_of_lap_eq_of_le hcell hlap he hc]
      exact ⟨hlt, fun _ => hbefore⟩
    · rw [hword, k.lapOf_published e (Nat.lt_trans hi k.capacity_lt_cellCount)] at hlap
      rw [hword, ← Order.eq_of_lap_eq_of_le hcell hlap he hc]
      exact ⟨hlt, fun hvacant => absurd hvacant (k.not_vacant_published e hi)⟩

/-- A word before the head that has the lap of its cursor was emptied. -/
theorem Holds.vacant_of_lap {is : List Nat} (h : r.Holds is) (hr : r.Early)
    (hlt : c.toNat < r.head.toNat) (hlap : k.lapOf (r.word c) = k.lap c) : k.Vacant (r.word c) := by
  have hc : c.toNat ≤ 2 ^ 61 := hlt.le.trans hr.1
  rcases h.word_cases hr c with ⟨hunused, -⟩ | ⟨e, hcell, hlte, -, hword⟩
  · have hturn := turn_unusedWord_lt (k := k) c hc
    rw [← hunused, Order.turn_eq_turn_lap_iff.2 hlap] at hturn
    exact absurd hturn (lt_irrefl _)
  · rcases hword with ⟨-, hword⟩ | ⟨hafter, i, hi, hword⟩
    · rw [hword]
      exact k.vacant_lap e
    · rw [hword, k.lapOf_published e (Nat.lt_trans hi k.capacity_lt_cellCount)] at hlap
      rw [Order.eq_of_lap_eq_of_le hcell hlap (hlte.le.trans hr.2) hc] at hafter
      exact absurd hlt (Nat.not_lt.2 hafter)

/-- A ring without gaps is attended before any thread comes to it. -/
theorem Holds.attended {is : List Nat} (h : r.Holds is) (hr : r.Early) :
    r.Attended fun _ : Fin t => none where
  timely := by
    intro c
    rcases h.word_cases hr c with ⟨hunused, -⟩ | ⟨e, -, hlt, -, hword⟩
    · rw [hunused, Order.Timely, k.turn_unusedWord]
      omega
    · have he := Order.timely_lap (k := k) (hlt.le.trans hr.2)
      rcases hword with ⟨-, hword⟩ | ⟨-, i, hi, hword⟩
      · exact hword ▸ he
      · have hfield := Nat.lt_trans hi k.capacity_lt_cellCount
        exact Order.timely_of_turn_eq he (hword ▸ k.turn_published e hfield)
  not_live := by
    intro c hle hc
    refine liveAt_eq_none_of_lap fun hlap => ?_
    exact absurd (h.lt_tail_of_lap hr hc hlap).1 (Nat.not_lt.2 hle)
  spent := fun c hc hvacant hlap => ⟨(h.lt_tail_of_lap hr hc hlap).2 hvacant, by simp⟩
  informed := by
    rintro _ _ ⟨⟩
  claimed := by
    rintro _ _ _ _ ⟨⟩
  apart := by
    rintro _ _ _ ⟨⟩
  taken := by
    rintro c ⟨hlt, -⟩
    by_cases hlap : k.lapOf (r.word c) = k.lap c
    · exact liveAt_eq_none_of_vacant (h.vacant_of_lap hr hlt hlap)
    · exact liveAt_eq_none_of_lap hlap
  barred := by
    rintro c ⟨hlt, -⟩
    have hle : r.head.toNat ≤ r.tail.toNat := by
      have hgap := gap_eq_toNat_sub (a := r.tail) (b := r.head) (by have := hr.2; omega)
        (by have := hr.1; omega)
      rw [h.gap_tail] at hgap
      omega
    left
    rcases h.word_cases hr c with ⟨-, hlate⟩ | ⟨e, hcell, hlte, hnear, hword⟩
    · exact absurd (hlate c rfl) (by omega)
    · have hcursors := (Order.turn_lap_le_iff hcell.symm (hlt.le.trans hr.1) (hlte.le.trans hr.2)).2
        (le_of_cell_eq hcell (by omega))
      rcases hword with ⟨-, hword⟩ | ⟨-, i, hi, hword⟩
      · exact hword ▸ hcursors
      · rw [hword, k.turn_published e (Nat.lt_trans hi k.capacity_lt_cellCount)]
        exact hcursors
  unpassed := by
    rintro _ _ _ _ _ ⟨⟩

end CircularQueue.Ring
