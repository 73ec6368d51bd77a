import CircularQueue.Proofs.Interleaving.Attendance
import Mathlib.Data.List.Range

/-!
# The line of unclaimed indices

While cursors are early the content of a ring is a list over a range of numbers, from the head to
the tail. It can be cut at any cursor, and cursors at which nothing is live can be added to it or
left out. What all consumers await is a list over the threads, of which a step changes one entry.
-/

namespace CircularQueue

/-- Lists over all threads whose entries differ for one thread at most. -/
theorem perm_filterMap_finRange {t : Nat} {β : Type} {f g : Fin t → Option β} (i : Fin t)
    (h : ∀ j, j ≠ i → g j = f j) :
    ((f i).toList ++ (List.finRange t).filterMap g).Perm
      ((g i).toList ++ (List.finRange t).filterMap f) := by
  have hsplit (e : Fin t → Option β) : ((List.finRange t).filterMap e).Perm
      ((e i).toList ++ ((List.finRange t).erase i).filterMap e) := by
    have hperm := (List.perm_cons_erase (List.mem_finRange i)).filterMap e
    rw [List.filterMap_cons] at hperm
    cases hi : e i <;> simpa [hi] using hperm
  have hrest : ((List.finRange t).erase i).filterMap g =
      ((List.finRange t).erase i).filterMap f := by
    apply List.filterMap_congr
    intro j hj
    exact h j ((List.nodup_finRange t).mem_erase_iff.1 hj).1
  refine ((hsplit g).append_left _).trans ((List.perm_append_comm_assoc ..).trans ?_)
  rw [hrest]
  exact (hsplit f).symm.append_left _

/-- A list over all threads of which only one has an entry. -/
theorem filterMap_finRange_of_only {t : Nat} {β : Type} {f : Fin t → Option β} {i : Fin t}
    (h : ∀ j, j ≠ i → f j = none) : (List.finRange t).filterMap f = (f i).toList := by
  have hperm := perm_filterMap_finRange (f := fun _ => none) (g := f) i h
  have hnone : (List.finRange t).filterMap (fun _ => (none : Option β)) = [] :=
    List.filterMap_eq_nil_iff.2 fun _ _ => rfl
  rw [hnone, List.append_nil] at hperm
  cases hi : f i with
  | none =>
    rw [hi] at hperm
    exact hperm.eq_nil
  | some b =>
    rw [hi] at hperm
    exact List.perm_singleton.1 hperm

namespace Ring

open Interleaving

variable {k : Order} {t : Nat} {r s : Ring k} {lo mid hi : Nat}

/-- The indices live at the cursors from `lo` to before `hi`, in the order of the cursors. -/
def liveBetween (r : Ring k) (lo hi : Nat) : List Nat :=
  (List.range' lo (hi - lo)).filterMap fun n => r.liveAt n.toUInt64

theorem live_eq_liveBetween (hhead : r.head.toNat ≤ 2 ^ 62) (htail : r.tail.toNat ≤ 2 ^ 62) :
    r.live = r.liveBetween r.head.toNat r.tail.toNat := by
  have hdistance : r.distance = r.tail.toNat - r.head.toNat := by
    rw [distance, gap_eq_toNat_sub htail hhead]
    omega
  rw [live, liveBetween, hdistance, List.range'_eq_map_range, List.filterMap_map]
  apply List.filterMap_congr
  intro j _
  have hcursor : (r.head.toNat + j).toUInt64 = r.head + j.toUInt64 := by
    rw [← UInt64.toNat_inj, toNat_add_toUInt64, Nat.toUInt64, UInt64.toNat_ofNat']
  rw [Function.comp_apply, hcursor]

theorem liveBetween_congr (hhi : hi ≤ 2 ^ 62)
    (h : ∀ c : Cursor, lo ≤ c.toNat → c.toNat < hi → s.liveAt c = r.liveAt c) :
    s.liveBetween lo hi = r.liveBetween lo hi := by
  apply List.filterMap_congr
  intro n hn
  rw [List.mem_range'_1] at hn
  have htoNat : n.toUInt64.toNat = n := toNat_toUInt64 (by omega)
  exact h _ (by omega) (by omega)

theorem liveBetween_eq_nil (hhi : hi ≤ 2 ^ 62)
    (h : ∀ c : Cursor, lo ≤ c.toNat → c.toNat < hi → r.liveAt c = none) :
    r.liveBetween lo hi = [] := by
  rw [liveBetween, List.filterMap_eq_nil_iff]
  intro n hn
  rw [List.mem_range'_1] at hn
  have htoNat : n.toUInt64.toNat = n := toNat_toUInt64 (by omega)
  exact h _ (by omega) (by omega)

theorem mem_liveBetween_iff (hhi : hi ≤ 2 ^ 62) {index : Nat} : index ∈ r.liveBetween lo hi ↔
    ∃ c : Cursor, lo ≤ c.toNat ∧ c.toNat < hi ∧ r.liveAt c = some index := by
  rw [liveBetween, List.mem_filterMap]
  constructor
  · rintro ⟨n, hn, hlive⟩
    rw [List.mem_range'_1] at hn
    have htoNat : n.toUInt64.toNat = n := toNat_toUInt64 (by omega)
    exact ⟨n.toUInt64, by omega, by omega, hlive⟩
  · rintro ⟨c, hlo, hlt, hlive⟩
    have hcursor : c.toNat.toUInt64 = c := UInt64.ofNat_toNat
    exact ⟨c.toNat, List.mem_range'_1.2 ⟨hlo, by omega⟩, by rw [hcursor, hlive]⟩

theorem liveBetween_append (hlo : lo ≤ mid) (hhi : mid ≤ hi) :
    r.liveBetween lo hi = r.liveBetween lo mid ++ r.liveBetween mid hi := by
  rw [liveBetween, liveBetween, liveBetween, ← List.filterMap_append]
  congr 1
  rw [show hi - lo = (mid - lo) + (hi - mid) by omega, ← List.range'_append_1]
  congr 2
  omega

theorem liveBetween_succ (r : Ring k) (c : Cursor) :
    r.liveBetween c.toNat (c.toNat + 1) = (r.liveAt c).toList := by
  have hcursor : c.toNat.toUInt64 = c := UInt64.ofNat_toNat
  rw [liveBetween, Nat.add_sub_cancel_left, List.range'_one, List.filterMap_cons,
    List.filterMap_nil, hcursor]
  cases r.liveAt c <;> rfl

/-- The line cut at a cursor. -/
theorem liveBetween_split {c : Cursor} (hlo : lo ≤ c.toNat) (hhi : c.toNat < hi) :
    r.liveBetween lo hi =
      r.liveBetween lo c.toNat ++ ((r.liveAt c).toList ++ r.liveBetween (c.toNat + 1) hi) := by
  rw [liveBetween_append hlo hhi.le, liveBetween_append (Nat.le_succ _) hhi, liveBetween_succ]

/-- Cursors at which nothing is live may be added at the end. -/
theorem liveBetween_eq_of_le (hle : mid ≤ hi) (hhi : hi ≤ 2 ^ 62)
    (h : ∀ c : Cursor, mid ≤ c.toNat → c.toNat < hi → r.liveAt c = none) :
    r.liveBetween lo hi = r.liveBetween lo mid := by
  rcases Nat.le_total lo mid with hlo | hlo
  · rw [liveBetween_append hlo hle, liveBetween_eq_nil hhi h, List.append_nil]
  · have hnone : r.liveBetween lo hi = [] :=
      liveBetween_eq_nil hhi fun c hc => h c (hlo.trans hc)
    rw [hnone, liveBetween, Nat.sub_eq_zero_of_le hlo, List.range'_zero, List.filterMap_nil]

/-! ## The line of an attended ring -/

variable {posts : Fin t → Option RingLocation} {i : Fin t} {c : Cursor}

theorem watched_congr (h : s.cells = r.cells) (post : Option RingLocation) :
    s.watched post = r.watched post := by
  rw [watched, watched, funext fun c => liveAt_congr h c]

theorem watched_eq_none {post : Option RingLocation}
    (h : post.bind RingLocation.cursor? = none) : r.watched post = none := by
  cases post with
  | none => rfl
  | some location =>
    cases location with
    | publishing => rfl
    | taking nonempty location =>
      have hlooking : location.looking? = none := Consumer.looking?_of_cursor? h
      simp only [watched, Option.bind_some, RingLocation.looking?, hlooking, Option.bind_none]

/-- While no thread is at the ring its live indices are unclaimed. -/
theorem unclaimed_none (r : Ring k) : r.unclaimed (fun _ : Fin t => none) = r.live := by
  have hawaited : r.awaited (fun _ : Fin t => none) = [] :=
    List.filterMap_eq_nil_iff.2 fun _ _ => rfl
  rw [unclaimed, hawaited, List.nil_append]

/-- A thread that changes no entry of the line but its own. -/
theorem unclaimed_update_perm {post : Option RingLocation} {before after : Option Nat}
    (hothers : ∀ j, j ≠ i → s.watched (posts j) = r.watched (posts j))
    (hline : (after.toList ++ ((s.watched post).toList ++ s.live)).Perm
      (before.toList ++ ((r.watched (posts i)).toList ++ r.live))) :
    (after.toList ++ s.unclaimed (Function.update posts i post)).Perm
      (before.toList ++ r.unclaimed posts) := by
  have hawaited : ((r.watched (posts i)).toList ++ s.awaited (Function.update posts i post)).Perm
      ((s.watched post).toList ++ r.awaited posts) := by
    have hperm := perm_filterMap_finRange (f := fun j => r.watched (posts j))
      (g := fun j => s.watched (Function.update posts i post j)) i fun j hj => by
        simp only [Function.update_of_ne hj, hothers j hj]
    rwa [Function.update_self] at hperm
  rw [List.perm_iff_count] at hline hawaited ⊢
  intro index
  have hline := hline index
  have hawaited := hawaited index
  simp only [unclaimed, List.count_append] at hline hawaited ⊢
  omega

/-- The index is published at a cursor, and no consumer has claimed it there. -/
def Claimable (r : Ring k) (posts : Fin t → Option RingLocation) (index : Nat) : Prop :=
  ∃ c : Cursor, c.toNat ≤ 2 ^ 61 ∧ r.liveAt c = some index ∧
    ∀ i nonempty, posts i ≠ some (.taking nonempty (.take c index))

namespace Attended

theorem live_of_tail_le (h : r.Attended posts) (hr : r.Early) (hcells : s.cells = r.cells)
    (hhead : s.head = r.head) (htail : r.tail.toNat ≤ s.tail.toNat)
    (hlimit : s.tail.toNat ≤ 2 ^ 61 + 1) : s.live = r.live := by
  obtain ⟨hheadEarly, htailEarly⟩ := hr
  have hnone (d : Cursor) (hlo : r.tail.toNat ≤ d.toNat) (hhi : d.toNat < s.tail.toNat) :
      r.liveAt d = none := h.not_live d hlo (by omega)
  rw [live_eq_liveBetween (hhead ▸ by omega) (by omega), live_eq_liveBetween (by omega) (by omega),
    ← liveBetween_eq_of_le htail (by omega) hnone, hhead]
  exact liveBetween_congr (by omega) fun d _ _ => liveAt_congr hcells d

/-- Reserving the head takes its index out of the line. -/
theorem live_reserve (h : r.Attended posts) (hr : r.Early) :
    r.live = (r.liveAt r.head).toList ++ ({ r with head := r.head + 1 } : Ring k).live := by
  obtain ⟨hhead, htail⟩ := hr
  have hsucc := toNat_add_one (c := r.head) (by omega)
  rw [live_eq_liveBetween (by omega) (by omega),
    live_eq_liveBetween (r := { r with head := r.head + 1 }) (by simp only; omega)
      (by simp only; omega)]
  simp only [hsucc]
  rcases Nat.lt_or_ge r.head.toNat r.tail.toNat with hlt | hge
  · rw [liveBetween_append (Nat.le_succ _) hlt, liveBetween_succ]
    rfl
  · rw [h.not_live r.head hge hhead, liveBetween_eq_nil (by omega) fun c _ _ => by omega,
      liveBetween_eq_nil (by omega) fun c _ _ => by omega]
    rfl

/-- Leaving a cell that the head has gone past does not change the line. -/
theorem live_leave (hr : r.Early) (hlt : c.toNat < r.head.toNat) : (r.leave c).live = r.live := by
  obtain ⟨hhead, htail⟩ := hr
  rw [live_eq_liveBetween (by simp only [head_leave]; omega) (by simp only [tail_leave]; omega),
    live_eq_liveBetween (by omega) (by omega)]
  refine liveBetween_congr (by simp only [tail_leave]; omega) fun d hlo hhi => ?_
  simp only [head_leave, tail_leave] at hlo hhi
  exact liveAt_leave (by omega) (by omega) fun heq => by rw [heq] at hlo; omega

/-- The unclaimed indices are all that are published and that no consumer has claimed: none is where
no consumer will come. -/
theorem mem_unclaimed_iff (h : r.Attended posts) (hr : r.Early) {index : Nat} :
    index ∈ r.unclaimed posts ↔ r.Claimable posts index := by
  obtain ⟨hhead, htail⟩ := hr
  rw [unclaimed, List.mem_append, live_eq_liveBetween (by omega) (by omega),
    mem_liveBetween_iff (by omega)]
  constructor
  · rintro (hawaited | ⟨c, hlo, hlt, hlive⟩)
    · obtain ⟨i, -, hwatched⟩ := List.mem_filterMap.1 hawaited
      obtain ⟨c, hlooking, hlive⟩ := Option.bind_eq_some_iff.1 hwatched
      have hcursor := RingLocation.cursor?_of_bind_looking? hlooking
      refine ⟨c, (h.cursor_lt hcursor).le.trans hhead, hlive, fun j nonempty hclaimed => ?_⟩
      obtain rfl : j = i := h.apart j i c (by rw [hclaimed]; rfl) hcursor
      rw [hclaimed] at hlooking
      cases hlooking
    · refine ⟨c, by omega, hlive, fun j nonempty hclaimed => ?_⟩
      have hbefore : c.toNat < r.head.toNat := h.cursor_lt (i := j) (by rw [hclaimed]; rfl)
      omega
  · rintro ⟨c, hc, hlive, hunclaimed⟩
    rcases Nat.lt_or_ge c.toNat r.head.toNat with hbefore | hafter
    · left
      have hpassed : ¬ r.Passed posts c := fun hpassed => by
        rw [h.taken c hpassed] at hlive
        cases hlive
      obtain ⟨i, hcursor⟩ : ∃ i, (posts i).bind RingLocation.cursor? = some c := by
        by_contra hnone
        exact hpassed ⟨hbefore, fun i hi => hnone ⟨i, hi⟩⟩
      refine List.mem_filterMap.2 ⟨i, List.mem_finRange i, ?_⟩
      rw [watched, RingLocation.looking?_of_unclaimed hcursor fun nonempty index' hclaimed => ?_]
      · exact hlive
      · rw [h.claimed i nonempty c index' hclaimed] at hlive
        cases hlive
        exact hunclaimed i nonempty hclaimed
    · exact .inr ⟨c, hafter, h.lt_tail_of_live hc hlive, hlive⟩

end Attended

end Ring

end CircularQueue
