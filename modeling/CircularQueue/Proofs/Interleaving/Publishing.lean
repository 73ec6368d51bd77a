import CircularQueue.Proofs.Interleaving.Line

/-!
# Producers at an attended ring

A producer's access either leaves all words as they are, and the producer with the index it had, or
publishes the index in a cell that still has the word the producer saw. The second happens only
where a consumer will come: at a cursor from the head on, or at one where a consumer is looking. So
the index is unclaimed from then on, and no other index is moved. If nothing is live after the
cursor, it is the last in line.
-/

namespace CircularQueue

open Interleaving

namespace Interleaving.Producer

variable {k : Order}

/-- What one access of a producer does. -/
inductive Move (index : Nat) (r : Ring k) (location : Producer) : Ring k → Next Producer Unit → Prop
  | rest {s : Ring k} {next : Next Producer Unit} (hkept : kept? index next = location.held? index)
      (hcells : s.cells = r.cells) (hhead : s.head = r.head) (htail : r.tail.toNat ≤ s.tail.toNat)
      (hlimit : s.tail.toNat ≤ 2 ^ 61 + 1) : Move index r location s next
  | publish {c : Cursor} {seen : Word} {next : Next Producer Unit}
      (hlocation : location = .exchange c seen) (hseen : r.word c = seen)
      (hnext : next = .answer () ∨ next = .goto .readThreshold) :
      Move index r location (r.write c (k.published c index)) next

/-- A producer that has read its cell gives it up, or may write it, at once if it is not marked. -/
theorem weigh_cases (k : Order) (c : Cursor) (seen : Word) :
    weigh k c seen = .reserve ∨ k.Behind seen c ∧ k.Vacant seen ∧
      (weigh k c seen = .readHead c seen ∨
        weigh k c seen = .exchange c seen ∧ ¬ k.Marked seen) := by
  unfold weigh
  cases hadmission : k.admission c seen with
  | refused => exact .inl rfl
  | free =>
    obtain ⟨hbehind, hvacant⟩ := Order.behind_of_admission (by rw [hadmission]; simp)
    exact .inr ⟨hbehind, hvacant, .inr ⟨rfl, Order.not_marked_of_admission hadmission⟩⟩
  | guarded =>
    obtain ⟨hbehind, hvacant⟩ := Order.behind_of_admission (by rw [hadmission]; simp)
    exact .inr ⟨hbehind, hvacant, .inl rfl⟩

end Interleaving.Producer

namespace Ring.Attended

open Interleaving.Producer

variable {k : Order} {t : Nat} {r s : Ring k} {posts : Fin t → Option RingLocation} {i : Fin t}
  {index : Nat} {nonempty : Bool} {location : Producer} {c : Cursor} {spurious : Bool}
  {next : Next Producer Unit}

/-- No consumer has passed a cell that could be used and is not marked. -/
theorem not_passed_of_not_marked (h : r.Attended posts) (hr : r.Early) (hc : c.toNat ≤ 2 ^ 61)
    (hturn : k.turn (r.word c) < k.turn (k.lap c)) (hmarked : ¬ k.Marked (r.word c)) {d : Cursor}
    (hcell : k.cell d = k.cell c) (hle : c.toNat ≤ d.toNat) : ¬ r.Passed posts d := by
  intro hpassed
  have hcursors := (Order.turn_lap_le_iff hcell.symm hc (hpassed.1.le.trans hr.1)).2 hle
  have hbarred := h.barred d hpassed
  rw [word_eq_of_cell_eq hcell] at hbarred
  rcases hbarred with hlater | hmark
  · omega
  · exact hmarked hmark

/-- What a producer remembers that has read its cell, and that it may write the cell if it will. -/
theorem informed_weigh (h : r.Attended posts) (index : Nat) (hr : r.Early)
    (hlt : c.toNat < r.tail.toNat) :
    (weigh k c (r.word c)).Informed r ∧ (weigh k c (r.word c)).held? index = some index ∧
      ∀ c' seen, weigh k c (r.word c) = .exchange c' seen →
        ∀ d, k.cell d = k.cell c' → c'.toNat ≤ d.toNat → ¬ r.Passed posts d := by
  have hc : c.toNat ≤ 2 ^ 61 := hlt.le.trans hr.2
  rcases weigh_cases k c (r.word c) with heq | ⟨hbehind, hvacant, hweigh⟩
  · rw [heq]
    exact ⟨trivial, rfl, by rintro _ _ ⟨⟩⟩
  · have hturn := (Order.behind_iff_turn_lt (h.timely c) hc).1 hbehind
    rcases hweigh with heq | ⟨heq, hmarked⟩
    · rw [heq]
      exact ⟨⟨hlt, hvacant, hturn, .inl rfl⟩, rfl, by rintro _ _ ⟨⟩⟩
    · rw [heq]
      refine ⟨⟨hlt, hvacant, hturn, .inl rfl⟩, rfl, ?_⟩
      rintro _ _ ⟨⟩ d hcell hle
      exact h.not_passed_of_not_marked hr hc hturn hmarked hcell hle

theorem producer_move_of_step (h : r.Attended posts) (hr : r.Early)
    (hpost : posts i = some (.publishing index nonempty location))
    (hstep : location.step index nonempty r spurious = (s, next)) :
    Move index r location s next ∧
      (∀ place, post index nonempty next = some place → place.Informed s) ∧
      ∀ c seen, next = .goto (.exchange c seen) →
        ∀ d, k.cell d = k.cell c → c.toNat ≤ d.toNat → ¬ r.Passed posts d := by
  obtain ⟨hindex, hinformed⟩ : index < k.capacity ∧ location.Informed r := h.informed i _ hpost
  obtain ⟨hhead, htail⟩ := hr
  have hlimit : r.tail.toNat ≤ 2 ^ 61 + 1 := htail.trans (Nat.le_succ _)
  cases location with
  | reserve =>
    obtain ⟨rfl, rfl⟩ := Prod.mk.inj hstep
    have hsucc := toNat_add_one (c := r.tail) (by omega)
    refine ⟨.rest rfl rfl rfl (by simp only; omega) (by simp only; omega), ?_, by rintro _ _ ⟨⟩⟩
    rintro _ ⟨⟩
    exact ⟨hindex, (Nat.lt_succ_self _).trans_eq hsucc.symm⟩
  | readCell c =>
    obtain ⟨rfl, rfl⟩ := Prod.mk.inj hstep
    obtain ⟨hnext, hheld, hfree⟩ := h.informed_weigh index ⟨hhead, htail⟩ hinformed
    refine ⟨.rest hheld rfl rfl le_rfl hlimit, ?_, ?_⟩
    · rintro _ ⟨⟩
      exact ⟨hindex, hnext⟩
    · intro c' seen heq
      exact hfree c' seen (Next.goto.inj heq)
  | readHead c seen =>
    obtain ⟨rfl, rfl⟩ := Prod.mk.inj hstep
    split
    · rename_i hgap
      rw [gap_eq_toNat_sub (by omega) (hinformed.1.le.trans (by omega))] at hgap
      refine ⟨.rest rfl rfl rfl le_rfl hlimit, by rintro _ ⟨⟩; exact ⟨hindex, hinformed⟩, ?_⟩
      rintro _ _ ⟨⟩ d - hle ⟨hpassed, -⟩
      omega
    · exact ⟨.rest rfl rfl rfl le_rfl hlimit, by rintro _ ⟨⟩; exact ⟨hindex, trivial⟩,
        by rintro _ _ ⟨⟩⟩
  | exchange c seen =>
    rw [Producer.step] at hstep
    split at hstep
    · rename_i hseen
      obtain ⟨rfl, rfl⟩ := Prod.mk.inj hstep
      cases nonempty with
      | false =>
        exact ⟨.publish rfl hseen.1 (.inr rfl), by rintro _ ⟨⟩; exact ⟨hindex, trivial⟩,
          by rintro _ _ ⟨⟩⟩
      | true => exact ⟨.publish rfl hseen.1 (.inl rfl), by rintro _ ⟨⟩, by rintro _ _ ⟨⟩⟩
    · obtain ⟨rfl, rfl⟩ := Prod.mk.inj hstep
      obtain ⟨hnext, hheld, hfree⟩ := h.informed_weigh index ⟨hhead, htail⟩ hinformed.1
      refine ⟨.rest hheld rfl rfl le_rfl hlimit, ?_, ?_⟩
      · rintro _ ⟨⟩
        exact ⟨hindex, hnext⟩
      · intro c' seen heq
        exact hfree c' seen (Next.goto.inj heq)
  | readThreshold =>
    obtain ⟨rfl, rfl⟩ := Prod.mk.inj hstep
    split
    · exact ⟨.rest rfl rfl rfl le_rfl hlimit, by rintro _ ⟨⟩, by rintro _ _ ⟨⟩⟩
    · exact ⟨.rest rfl rfl rfl le_rfl hlimit, by rintro _ ⟨⟩; exact ⟨hindex, trivial⟩,
        by rintro _ _ ⟨⟩⟩
  | resetThreshold =>
    obtain ⟨rfl, rfl⟩ := Prod.mk.inj hstep
    exact ⟨.rest rfl rfl rfl le_rfl hlimit, by rintro _ ⟨⟩, by rintro _ _ ⟨⟩⟩

theorem producer_step (h : r.Attended posts) (hr : r.Early)
    (hpost : posts i = some (.publishing index nonempty location))
    (hstep : location.step index nonempty r spurious = (s, next)) :
    s.Attended (Function.update posts i (post index nonempty next)) := by
  obtain ⟨hmove, hinformed, hunpassed⟩ := h.producer_move_of_step hr hpost hstep
  cases hmove with
  | rest hkept hcells hhead htail hlimit =>
    refine h.settle hcells hhead htail ?_ hinformed ?_ ?_
    · rw [hpost]
      cases next <;> rfl
    · intro nonempty' d index' heq
      cases next <;> cases heq
    · intro index' nonempty' d seen heq _
      cases next with
      | goto location' =>
        cases heq
        exact hunpassed d seen rfl
      | answer => cases heq
  | publish hlocation hseen hnext =>
    subst hlocation
    exact h.publish hr hpost hseen hnext

/-! ## Where an index is published -/

variable {seen : Word}

/-- A producer publishes from the head on, or where a consumer is looking. -/
theorem place_of_publish (h : r.Attended posts)
    (hpost : posts i = some (.publishing index nonempty (.exchange c seen)))
    (hseen : r.word c = seen) :
    r.head.toNat ≤ c.toNat ∨ ∃ j, (posts j).bind RingLocation.looking? = some c := by
  have hpassed := h.unpassed i index nonempty c seen hpost hseen c rfl le_rfl
  obtain ⟨-, -, hvacant, -⟩ := h.informed i _ hpost
  rw [← hseen] at hvacant
  by_contra hplace
  obtain ⟨hbefore, hlooking⟩ := not_or.1 hplace
  refine hpassed ⟨Nat.lt_of_not_le hbefore, fun j hj => hlooking ⟨j, ?_⟩⟩
  refine RingLocation.looking?_of_unclaimed hj fun nonempty' index' hclaimed => ?_
  -- A consumer that has claimed an index at the cursor keeps its cell from being vacant.
  have hlive := h.claimed j nonempty' c index' hclaimed
  rw [liveAt_eq_none_of_vacant hvacant] at hlive
  cases hlive

section

variable (h : r.Attended posts) (hr : r.Early)
  (hpost : posts i = some (.publishing index nonempty (.exchange c seen))) (hseen : r.word c = seen)

include h hr hpost hseen

theorem liveAt_of_publish {d : Cursor} (hd : d.toNat ≤ 2 ^ 61) (hne : d ≠ c) :
    (r.write c (k.published c index)).liveAt d = r.liveAt d := by
  obtain ⟨hindex, hlt, hvacant, -⟩ := h.informed i _ hpost
  exact liveAt_write_published hindex (hseen ▸ hvacant) (hlt.le.trans hr.2) hd hne

theorem watched_of_publish {j : Fin t} (hne : (posts j).bind RingLocation.looking? ≠ some c) :
    (r.write c (k.published c index)).watched (posts j) = r.watched (posts j) := by
  rcases hlooking : (posts j).bind RingLocation.looking? with _ | d
  · rw [watched, watched, hlooking]
    rfl
  · rw [watched, watched, hlooking]
    have hlt := h.cursor_lt (RingLocation.cursor?_of_bind_looking? hlooking)
    refine h.liveAt_of_publish hr hpost hseen (hlt.le.trans hr.1) ?_
    rintro rfl
    exact hne hlooking

/-- Published behind the head, an index does not enter the content of the ring. -/
theorem live_of_publish_behind (hbefore : c.toNat < r.head.toNat) :
    (r.write c (k.published c index)).live = r.live := by
  obtain ⟨hhead, htail⟩ := hr
  rw [live_eq_liveBetween (by simp only [head_write]; omega) (by simp only [tail_write]; omega),
    live_eq_liveBetween (by omega) (by omega)]
  refine liveBetween_congr (by simp only [tail_write]; omega) fun d hlo hhi => ?_
  simp only [head_write, tail_write] at hlo hhi
  refine h.liveAt_of_publish ⟨hhead, htail⟩ hpost hseen (by omega) ?_
  rintro rfl
  omega

/-- Published from the head on, an index takes its place in the content of the ring. -/
theorem live_of_publish_ahead (hafter : r.head.toNat ≤ c.toNat) :
    r.live = r.liveBetween r.head.toNat c.toNat ++
        r.liveBetween (c.toNat + 1) r.tail.toNat ∧
      (r.write c (k.published c index)).live = r.liveBetween r.head.toNat c.toNat ++
        index :: r.liveBetween (c.toNat + 1) r.tail.toNat := by
  obtain ⟨hindex, hlt, hvacant, -⟩ := h.informed i _ hpost
  obtain ⟨hhead, htail⟩ := hr
  have hnone : r.liveAt c = none := liveAt_eq_none_of_vacant (hseen ▸ hvacant)
  have hsame (lo hi : Nat) (hhi : hi ≤ r.tail.toNat)
      (hoff : ∀ d : Cursor, lo ≤ d.toNat → d.toNat < hi → d ≠ c) :
      (r.write c (k.published c index)).liveBetween lo hi = r.liveBetween lo hi :=
    liveBetween_congr (by omega) fun d hlo hdhi =>
      h.liveAt_of_publish ⟨hhead, htail⟩ hpost hseen (by omega) (hoff d hlo hdhi)
  constructor
  · rw [live_eq_liveBetween (by omega) (by omega), liveBetween_split hafter hlt, hnone]
    rfl
  · rw [live_eq_liveBetween (by simp only [head_write]; omega) (by simp only [tail_write]; omega)]
    simp only [head_write, tail_write]
    rw [liveBetween_split hafter hlt, liveAt_write_published_self r c hindex,
      hsame _ _ hlt.le (by rintro d - hd rfl; omega),
      hsame _ _ le_rfl (by rintro d hd - rfl; omega)]
    rfl

theorem watched_update_of_publish {post : Option RingLocation}
    (hpost' : post.bind RingLocation.cursor? = none) {j : Fin t}
    (hne : (posts j).bind RingLocation.looking? ≠ some c) :
    (r.write c (k.published c index)).watched (Function.update posts i post j) =
      r.watched (posts j) := by
  by_cases hj : j = i
  · subst hj
    rw [Function.update_self, watched_eq_none hpost', hpost]
    rfl
  · rw [Function.update_of_ne hj, h.watched_of_publish hr hpost hseen hne]

/-- An index that is published is unclaimed from then on. -/
theorem unclaimed_of_publish {post : Option RingLocation}
    (hpost' : post.bind RingLocation.cursor? = none) :
    ((r.write c (k.published c index)).unclaimed (Function.update posts i post)).Perm
      (index :: r.unclaimed posts) := by
  obtain ⟨hindex, hlt, hvacant, -⟩ := h.informed i _ hpost
  have hnone : r.liveAt c = none := liveAt_eq_none_of_vacant (hseen ▸ hvacant)
  rcases Nat.lt_or_ge c.toNat r.head.toNat with hbefore | hafter
  · obtain ⟨j, hj⟩ := (h.place_of_publish hpost hseen).resolve_left (by omega)
    have hji : j ≠ i := by
      rintro rfl
      rw [hpost] at hj
      cases hj
    have hawaited := perm_filterMap_finRange (f := fun j => r.watched (posts j))
      (g := fun j => (r.write c (k.published c index)).watched (Function.update posts i post j)) j
      fun j' hj' => h.watched_update_of_publish hr hpost hseen hpost' fun hlooking =>
        hj' (h.apart j' j c (RingLocation.cursor?_of_bind_looking? hlooking)
          (RingLocation.cursor?_of_bind_looking? hj))
    simp only [Function.update_of_ne hji, watched, hj, Option.bind_some, hnone,
      liveAt_write_published_self r c hindex] at hawaited
    rw [unclaimed, h.live_of_publish_behind hr hpost hseen hbefore]
    exact hawaited.append_right r.live
  · obtain ⟨hlive, hlive'⟩ := h.live_of_publish_ahead hr hpost hseen hafter
    have hawaited : (r.write c (k.published c index)).awaited (Function.update posts i post) =
        r.awaited posts := by
      apply List.filterMap_congr
      intro j _
      refine h.watched_update_of_publish hr hpost hseen hpost' fun hlooking => ?_
      have hlt' := h.cursor_lt (RingLocation.cursor?_of_bind_looking? hlooking)
      omega
    rw [unclaimed, unclaimed, hawaited, hlive, hlive', ← List.append_assoc, ← List.append_assoc]
    exact List.perm_middle

/-- With one consumer at the ring, an index that is published after all others is last in line. -/
theorem line_of_publish {j : Fin t}
    (honly : ∀ j', j' ≠ j → (posts j').bind RingLocation.cursor? = none)
    (hlast : ∀ d : Cursor, c.toNat < d.toNat → d.toNat ≤ 2 ^ 61 → r.liveAt d = none) :
    ((r.write c (k.published c index)).watched (posts j)).toList ++
        (r.write c (k.published c index)).live =
      (r.watched (posts j)).toList ++ r.live ++ [index] := by
  obtain ⟨hindex, hlt, hvacant, -⟩ := h.informed i _ hpost
  have hnone : r.liveAt c = none := liveAt_eq_none_of_vacant (hseen ▸ hvacant)
  have hnil (lo : Nat) (hlo : c.toNat < lo) : r.liveBetween lo r.tail.toNat = [] :=
    liveBetween_eq_nil (hr.2.trans (by omega)) fun d hd hd' =>
      hlast d (by omega) (hd'.le.trans hr.2)
  rcases Nat.lt_or_ge c.toNat r.head.toNat with hbefore | hafter
  · obtain ⟨j', hj'⟩ := (h.place_of_publish hpost hseen).resolve_left (by omega)
    obtain rfl : j' = j := by
      by_contra hne
      have hcursor := RingLocation.cursor?_of_bind_looking? hj'
      rw [honly j' hne] at hcursor
      cases hcursor
    have hlive : r.live = [] := by
      rw [live_eq_liveBetween (hr.1.trans (by omega)) (hr.2.trans (by omega)), hnil _ hbefore]
    rw [h.live_of_publish_behind hr hpost hseen hbefore, hlive, watched, watched, hj',
      Option.bind_some, Option.bind_some, hnone, liveAt_write_published_self r c hindex]
    rfl
  · obtain ⟨hlive, hlive'⟩ := h.live_of_publish_ahead hr hpost hseen hafter
    have hwatched := h.watched_of_publish hr hpost hseen (j := j) fun hlooking => by
      have hlt' := h.cursor_lt (RingLocation.cursor?_of_bind_looking? hlooking)
      omega
    rw [hwatched, hlive, hlive', hnil _ (Nat.lt_succ_self _), List.append_nil, List.append_assoc]

end

/-- A producer keeps its index until the index is unclaimed. -/
theorem unclaimed_of_producer_step (h : r.Attended posts) (hr : r.Early)
    (hpost : posts i = some (.publishing index nonempty location))
    (hstep : location.step index nonempty r spurious = (s, next)) :
    ((kept? index next).toList ++
        s.unclaimed (Function.update posts i (post index nonempty next))).Perm
      ((location.held? index).toList ++ r.unclaimed posts) := by
  cases (h.producer_move_of_step hr hpost hstep).1 with
  | rest hkept hcells hhead htail hlimit =>
    have hcursor : (post index nonempty next).bind RingLocation.cursor? = none := by
      cases next <;> rfl
    refine unclaimed_update_perm (fun j _ => watched_congr hcells (posts j)) ?_
    rw [hkept, watched_eq_none hcursor, watched_eq_none (by rw [hpost]; rfl),
      h.live_of_tail_le hr hcells hhead htail hlimit]
  | publish hlocation hseen hnext =>
    subst hlocation
    have hcursor : (post index nonempty next).bind RingLocation.cursor? = none := by
      cases next <;> rfl
    have hkept : kept? index next = none := by
      rcases hnext with rfl | rfl <;> rfl
    rw [hkept]
    exact h.unclaimed_of_publish hr hpost hseen hcursor

/-! ## One producer and one consumer -/

/-- With one consumer at the ring, what it will come to, followed by the index of a producer that is
in front. -/
theorem line_of_producer_step (h : r.Attended posts) (hr : r.Early)
    (hpost : posts i = some (.publishing index nonempty location)) (hfront : r.InFront location)
    {j : Fin t} (honly : ∀ j', j' ≠ j → (posts j').bind RingLocation.cursor? = none)
    (hstep : location.step index nonempty r spurious = (s, next)) :
    (s.watched (posts j)).toList ++ s.live ++ (kept? index next).toList =
      (r.watched (posts j)).toList ++ r.live ++ (location.held? index).toList := by
  cases (h.producer_move_of_step hr hpost hstep).1 with
  | rest hkept hcells hhead htail hlimit =>
    rw [hkept, watched_congr hcells, h.live_of_tail_le hr hcells hhead htail hlimit]
  | @publish c seen _ hlocation hseen hnext =>
    subst hlocation
    have hkept : kept? index next = none := by
      rcases hnext with rfl | rfl <;> rfl
    rw [hkept, h.line_of_publish hr hpost hseen honly fun d hd => hfront c rfl d hd.le,
      Option.toList_none, List.append_nil]
    rfl

/-- A producer that has a cursor had it before the step, or has the tail. -/
theorem cursor_of_producer_step {location' : Producer}
    (hstep : location.step index nonempty r spurious = (s, .goto location'))
    (hcursor : location'.cursor? = some c) : location.cursor? = some c ∨ c = r.tail := by
  have hweigh {d : Cursor} {seen : Word} (hd : (weigh k d seen).cursor? = some c) : d = c := by
    rcases weigh_cases k d seen with heq | ⟨-, -, heq | ⟨heq, -⟩⟩ <;> rw [heq] at hd <;> cases hd
    · rfl
    · rfl
  cases location with
  | reserve =>
    cases hstep
    cases hcursor
    exact .inr rfl
  | readCell d =>
    cases hstep
    rw [← hweigh hcursor]
    exact .inl rfl
  | readHead d seen =>
    simp only [Producer.step] at hstep
    split at hstep <;> cases hstep <;> cases hcursor
    exact .inl rfl
  | exchange d seen =>
    simp only [Producer.step] at hstep
    split at hstep
    · split at hstep <;> cases hstep
      cases hcursor
    · cases hstep
      rw [← hweigh hcursor]
      exact .inl rfl
  | readThreshold =>
    simp only [Producer.step] at hstep
    split at hstep <;> cases hstep
    cases hcursor
  | resetThreshold => cases hstep

/-- A producer stays in front, if it is the only one. -/
theorem inFront_of_producer_step (h : r.Attended posts) (hr : r.Early)
    (hpost : posts i = some (.publishing index nonempty location)) (hfront : r.InFront location)
    {location' : Producer}
    (hstep : location.step index nonempty r spurious = (s, .goto location')) :
    s.InFront location' := by
  intro c hcursor d hle hd
  cases (h.producer_move_of_step hr hpost hstep).1 with
  | rest hkept hcells hhead htail hlimit =>
    rw [liveAt_congr hcells]
    rcases cursor_of_producer_step hstep hcursor with hsame | rfl
    · exact hfront c hsame d hle hd
    · exact h.not_live d hle hd
  | publish hlocation hseen hnext =>
    rcases hnext with heq | heq <;> cases heq
    cases hcursor

end Ring.Attended

end CircularQueue
