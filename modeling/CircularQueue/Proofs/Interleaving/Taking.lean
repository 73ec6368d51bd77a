import CircularQueue.Proofs.Interleaving.Line

/-!
# Consumers at an attended ring

A consumer's access is one of six moves. It rests, away from any cell; it reserves the head; it
looks on in its cell; it claims the index that is due there; it leaves a cell in which nothing is
due; or it collects the index it claimed. In each of them the ring stays attended, and the index
that is the consumer's, followed by the unclaimed indices in the order in which the consumer will
come to them, is the same list before and after. Nothing changes where other consumers are looking.
-/

namespace CircularQueue

open Interleaving

namespace Interleaving.Consumer

variable {k : Order}

/-- What one access of a consumer does. -/
inductive Move (nonempty : Bool) (r : Ring k) (location : Consumer) :
    Ring k → Next Consumer (Option Nat) → Prop
  | rest {s : Ring k} {next : Next Consumer (Option Nat)} (hcursor : location.cursor? = none)
      (hnext : (post nonempty next).bind RingLocation.cursor? = none)
      (hgained : gained? next = none) (hcells : s.cells = r.cells) (hhead : s.head = r.head)
      (htail : r.tail.toNat ≤ s.tail.toNat) (hlimit : s.tail.toNat ≤ 2 ^ 61) :
      Move nonempty r location s next
  | reserve (patience : Nat) (hcursor : location.cursor? = none) :
      Move nonempty r location { r with head := r.head + 1 } (.goto (.readCell r.head patience))
  | look {c : Cursor} {location' : Consumer} (hcursor : location.looking? = some c)
      (hcursor' : location'.looking? = some c) : Move nonempty r location r (.goto location')
  | claim {c : Cursor} (hcursor : location.looking? = some c)
      (hlap : k.lapOf (r.word c) = k.lap c) :
      Move nonempty r location r (.goto (.take c (k.indexOf (r.word c))))
  | leave {c : Cursor} (hcursor : location.looking? = some c)
      (hlap : k.lapOf (r.word c) ≠ k.lap c) :
      Move nonempty r location (r.leave c) (.goto (pass nonempty c))
  | collect {c : Cursor} {index : Nat} (hlocation : location = .take c index) :
      Move nonempty r location (r.leave c) (.answer (some index))

theorem settle_cases {nonempty : Bool} {c : Cursor} {patience : Nat} {seen : Word}
    {barred : Option Word} (h : barred.getD seen = k.visited c seen) :
    settle nonempty c patience seen barred = .bar c patience seen (k.visited c seen) ∨
      settle nonempty c patience seen barred = pass nonempty c ∧ k.visited c seen = seen := by
  cases barred with
  | none => exact .inr ⟨rfl, h.symm⟩
  | some barred => exact .inl (congrArg (Consumer.bar c patience seen) h)

/-- A consumer that has read its cell claims what is due, waits for a producer, sets out to bar the
cell or leaves it as it is. -/
theorem weigh_cases (k : Order) (nonempty : Bool) (c : Cursor) (patience : Nat) (seen : Word) :
    (weigh k nonempty c patience seen = .take c (k.indexOf seen) ∧ k.lapOf seen = k.lap c) ∨
    (k.lapOf seen ≠ k.lap c ∧
      ((∃ left closed, weigh k nonempty c patience seen = .awaitProducer c left seen closed ∧
          k.Vacant seen ∧ closed.getD seen = k.visited c seen) ∨
        (∃ left, weigh k nonempty c patience seen = .bar c left seen (k.visited c seen)) ∨
        (weigh k nonempty c patience seen = pass nonempty c ∧ k.visited c seen = seen))) := by
  unfold weigh
  rcases k.sight_cases c seen with
    ⟨hdue, hlap⟩ | ⟨hlap, barred, hbarred, hstale | ⟨hvacant, hempty⟩⟩
  · exact .inl ⟨by rw [hdue], hlap⟩
  · rw [hstale]
    refine .inr ⟨hlap, .inr ?_⟩
    exact (settle_cases hbarred).imp_left fun hsettle => ⟨patience, hsettle⟩
  · rw [hvacant]
    refine .inr ⟨hlap, ?_⟩
    cases patience with
    | zero => exact .inr ((settle_cases hbarred).imp_left fun hsettle => ⟨0, hsettle⟩)
    | succ patience => exact .inl ⟨patience, barred, rfl, hempty, hbarred⟩

variable {nonempty : Bool} {r : Ring k} {c : Cursor}

theorem leave_eq_self (h : k.visited c (r.word c) = r.word c) : r.leave c = r := by
  rw [Ring.leave, h, r.write_word_self]

theorem move_leave_self {location : Consumer} (hcursor : location.looking? = some c)
    (hlap : k.lapOf (r.word c) ≠ k.lap c) (hsame : k.visited c (r.word c) = r.word c) :
    Move nonempty r location r (.goto (pass nonempty c)) := by
  have hleave : Move nonempty r location (r.leave c) (.goto (pass nonempty c)) :=
    .leave hcursor hlap
  rwa [leave_eq_self hsame] at hleave

/-- A vacant word that a consumer leaves as it is belongs to a later lap. -/
theorem turn_lt_of_visited_eq (hc : c.toNat ≤ 2 ^ 61) {w : Word} (hw : k.Timely w)
    (hlap : k.lapOf w ≠ k.lap c) (hvacant : k.Vacant w) (hsame : k.visited c w = w) :
    k.turn (k.lap c) < k.turn w := by
  have hbehind : ¬ k.Behind w c := fun hbehind => Order.visited_ne_of_behind hbehind hvacant hsame
  have hne : k.turn w ≠ k.turn (k.lap c) := mt Order.turn_eq_turn_lap_iff.1 hlap
  rw [Order.behind_iff_turn_lt hw hc] at hbehind
  omega

theorem move_weigh (nonempty : Bool) (location : Consumer) (hr : r.Early)
    (hw : k.Timely (r.word c))
    (hcursor : location.looking? = some c) (hlt : c.toNat < r.head.toNat) (patience : Nat) :
    Move nonempty r location r (.goto (weigh k nonempty c patience (r.word c))) ∧
      (weigh k nonempty c patience (r.word c)).Informed r := by
  rcases weigh_cases k nonempty c patience (r.word c) with ⟨heq, hlap⟩ | ⟨hlap,
    ⟨left, closed, heq, hvacant, hclosed⟩ | ⟨left, heq⟩ | ⟨heq, hsame⟩⟩
  · rw [heq]
    exact ⟨.claim hcursor hlap, hlt⟩
  · rw [heq]
    refine ⟨.look hcursor rfl, hlt, hlap, hclosed, ?_⟩
    rintro rfl
    exact turn_lt_of_visited_eq (hlt.le.trans hr.1) hw hlap hvacant hclosed.symm
  · rw [heq]
    exact ⟨.look hcursor rfl, hlt, hlap, rfl⟩
  · rw [heq]
    exact ⟨move_leave_self hcursor hlap hsame, informed_pass hlt nonempty⟩

end Interleaving.Consumer

namespace Ring.Attended

open Interleaving.Consumer

variable {k : Order} {t : Nat} {r s : Ring k} {posts : Fin t → Option RingLocation} {i : Fin t}
  {nonempty : Bool} {location : Consumer} {patience : Nat} {spurious : Bool}
  {next : Next Consumer (Option Nat)}

/-- Every access of a consumer is one of the six moves, and leaves the consumer informed. -/
theorem move_of_step (h : r.Attended posts) (hr : r.Early)
    (hpost : posts i = some (.taking nonempty location))
    (hstep : location.step patience nonempty r spurious = (s, next)) :
    Move nonempty r location s next ∧
      ∀ place, post nonempty next = some place → place.Informed s := by
  have hinformed : location.Informed r := h.informed i _ hpost
  obtain ⟨hhead, htail⟩ := hr
  cases location with
  | readThreshold =>
    obtain ⟨rfl, rfl⟩ := Prod.mk.inj hstep
    split
    · exact ⟨.rest rfl rfl rfl rfl rfl le_rfl htail, by rintro _ ⟨⟩⟩
    · exact ⟨.rest rfl rfl rfl rfl rfl le_rfl htail, by rintro _ ⟨⟩; trivial⟩
  | reserve =>
    obtain ⟨rfl, rfl⟩ := Prod.mk.inj hstep
    refine ⟨.reserve patience rfl, ?_⟩
    rintro _ ⟨⟩
    exact (Nat.lt_succ_self _).trans_eq (toNat_add_one (by omega)).symm
  | readCell c left =>
    obtain ⟨rfl, rfl⟩ := Prod.mk.inj hstep
    obtain ⟨hmove, hnext⟩ := move_weigh nonempty (.readCell c left) ⟨hhead, htail⟩
      (h.timely c) rfl hinformed left
    exact ⟨hmove, by rintro _ ⟨⟩; exact hnext⟩
  | take c index =>
    obtain ⟨rfl, rfl⟩ := Prod.mk.inj hstep
    have hlap : k.lapOf (r.word c) = k.lap c := by
      by_contra hlap
      have hlive := h.claimed i nonempty c index hpost
      rw [liveAt_eq_none_of_lap hlap] at hlive
      cases hlive
    have hleave : r.write c (k.emptied (r.word c)) = r.leave c := by
      rw [Ring.leave, Order.visited, if_pos hlap]
    rw [hleave]
    exact ⟨.collect rfl, by rintro _ ⟨⟩⟩
  | awaitProducer c left seen closed =>
    obtain ⟨rfl, rfl⟩ := Prod.mk.inj hstep
    obtain ⟨hlt, hlap, hclosed, hlater⟩ := hinformed
    split
    · exact ⟨.look rfl rfl, by rintro _ ⟨⟩; exact hlt⟩
    · cases closed with
      | some barred => exact ⟨.look rfl rfl, by rintro _ ⟨⟩; exact ⟨hlt, hlap, hclosed⟩⟩
      -- The word has had a later turn since it was seen, so the consumer leaves it as it is.
      | none =>
        have hturn := hlater rfl
        have hsame := Order.visited_eq_of_turn_lt (h.timely c) (hlt.le.trans hhead) hturn
        have hlap' : k.lapOf (r.word c) ≠ k.lap c := fun heq =>
          hturn.ne (Order.turn_eq_turn_lap_iff.2 heq).symm
        exact ⟨move_leave_self (by rfl) hlap' hsame,
          by rintro _ ⟨⟩; exact informed_pass hlt nonempty⟩
  | bar c left seen barred =>
    obtain ⟨hlt, hlap, hbarred⟩ := hinformed
    rw [Consumer.step] at hstep
    split at hstep
    · rename_i hseen
      obtain ⟨rfl, rfl⟩ := Prod.mk.inj hstep
      obtain ⟨rfl, -⟩ := hseen
      rw [hbarred]
      exact ⟨.leave rfl hlap, by
        rintro _ ⟨⟩
        exact informed_pass (r := r.leave c) hlt nonempty⟩
    · obtain ⟨rfl, rfl⟩ := Prod.mk.inj hstep
      obtain ⟨hmove, hnext⟩ := move_weigh nonempty (.bar c left seen barred)
        ⟨hhead, htail⟩ (h.timely c) rfl hlt left
      exact ⟨hmove, by rintro _ ⟨⟩; exact hnext⟩
  | readTail c =>
    obtain ⟨rfl, rfl⟩ := Prod.mk.inj hstep
    have hlt : c.toNat < r.head.toNat := hinformed
    have hsucc := toNat_add_one (c := c) (by omega)
    split
    · rename_i hgap
      rw [gap_eq_toNat_sub (by omega) (by omega)] at hgap
      exact ⟨.rest rfl rfl rfl rfl rfl le_rfl htail, by rintro _ ⟨⟩; exact ⟨by omega, by omega⟩⟩
    · exact ⟨.rest rfl rfl rfl rfl rfl le_rfl htail, by rintro _ ⟨⟩; trivial⟩
  | dragTail tail head =>
    obtain ⟨hdrag, hle⟩ := hinformed
    rw [Consumer.step] at hstep
    split at hstep
    · rename_i hseen
      obtain ⟨rfl, rfl⟩ := Prod.mk.inj hstep
      exact ⟨.rest rfl rfl rfl rfl rfl (hseen.1 ▸ hdrag) (hle.trans hhead),
        by rintro _ ⟨⟩; trivial⟩
    · obtain ⟨rfl, rfl⟩ := Prod.mk.inj hstep
      exact ⟨.rest rfl rfl rfl rfl rfl le_rfl htail, by rintro _ ⟨⟩; trivial⟩
  | rereadHead =>
    obtain ⟨rfl, rfl⟩ := Prod.mk.inj hstep
    exact ⟨.rest rfl rfl rfl rfl rfl le_rfl htail, by rintro _ ⟨⟩; exact le_rfl⟩
  | rereadTail head =>
    obtain ⟨rfl, rfl⟩ := Prod.mk.inj hstep
    have hle : head.toNat ≤ r.head.toNat := hinformed
    split
    · exact ⟨.rest rfl rfl rfl rfl rfl le_rfl htail, by rintro _ ⟨⟩; trivial⟩
    · rename_i hgap
      rw [gap_eq_toNat_sub (by omega) (by omega)] at hgap
      exact ⟨.rest rfl rfl rfl rfl rfl le_rfl htail, by rintro _ ⟨⟩; exact ⟨by omega, hle⟩⟩
  | spendLast =>
    obtain ⟨rfl, rfl⟩ := Prod.mk.inj hstep
    exact ⟨.rest rfl rfl rfl rfl rfl le_rfl htail, by rintro _ ⟨⟩⟩
  | spend =>
    obtain ⟨rfl, rfl⟩ := Prod.mk.inj hstep
    split
    · exact ⟨.rest rfl rfl rfl rfl rfl le_rfl htail, by rintro _ ⟨⟩⟩
    · exact ⟨.rest rfl rfl rfl rfl rfl le_rfl htail, by rintro _ ⟨⟩; trivial⟩

theorem consumer_step (h : r.Attended posts) (hr : r.Early)
    (hpost : posts i = some (.taking nonempty location))
    (hstep : location.step patience nonempty r spurious = (s, next)) :
    s.Attended (Function.update posts i (post nonempty next)) := by
  obtain ⟨hmove, hinformed⟩ := h.move_of_step hr hpost hstep
  have hcursorAt : (posts i).bind RingLocation.cursor? = location.cursor? := by
    rw [hpost]
    rfl
  cases hmove with
  | rest hcursor hnext hgained hcells hhead htail hlimit =>
    refine h.settle hcells hhead htail ?_ hinformed ?_ ?_
    · rw [hnext, hcursorAt, hcursor]
    · intro nonempty' c index heq
      rw [heq] at hnext
      cases hnext
    · intro index nonempty' c seen heq
      cases next <;> cases heq
  | reserve patience hcursor => exact h.reserve hr (hcursorAt.trans hcursor) nonempty patience
  | @look c location' hcursor hcursor' =>
    refine h.settle rfl rfl le_rfl ?_ hinformed ?_ ?_
    · rw [hcursorAt, cursor?_of_looking? hcursor]
      exact cursor?_of_looking? hcursor'
    · rintro nonempty' d index ⟨⟩
      cases hcursor'
    · rintro index nonempty' d seen ⟨⟩
  | @claim c hcursor hlap =>
    have hcursor' := hcursorAt.trans (cursor?_of_looking? hcursor)
    refine h.settle rfl rfl le_rfl hcursor'.symm hinformed ?_ ?_
    · rintro nonempty' d index ⟨⟩
      have hpassed : ¬ r.Passed posts c := fun hpassed => hpassed.2 i hcursor'
      exact h.liveAt_of_lap ((h.cursor_lt hcursor').le.trans hr.1) hpassed hlap
    · rintro index nonempty' d seen ⟨⟩
  | leave hcursor hlap =>
    exact h.leave hr (hcursorAt.trans (cursor?_of_looking? hcursor)) (cursor?_pass ..) hinformed
  | collect hlocation =>
    subst hlocation
    exact h.leave hr hcursorAt rfl hinformed

/-- Nothing becomes live when a consumer moves, and nothing is taken but at its own cursor. -/
theorem liveAt_of_move (h : r.Attended posts) (hr : r.Early)
    (hpost : posts i = some (.taking nonempty location)) (hmove : Move nonempty r location s next)
    {d : Cursor} (hd : d.toNat ≤ 2 ^ 61) :
    s.liveAt d = r.liveAt d ∨ location.cursor? = some d ∧ s.liveAt d = none := by
  have hleave {c : Cursor} (hcursor : location.cursor? = some c) :
      (r.leave c).liveAt d = r.liveAt d ∨
        location.cursor? = some d ∧ (r.leave c).liveAt d = none := by
    have hc : c.toNat < r.head.toNat := h.cursor_lt (by rw [hpost]; exact hcursor)
    by_cases hdc : d = c
    · rw [hdc]
      exact .inr ⟨hcursor, liveAt_leave_self r c⟩
    · exact .inl (liveAt_leave (hc.le.trans hr.1) hd hdc)
  cases hmove with
  | rest _ _ _ hcells => exact .inl (liveAt_congr hcells d)
  | reserve | look | claim => exact .inl rfl
  | leave hcursor => exact hleave (cursor?_of_looking? hcursor)
  | collect hlocation =>
    subst hlocation
    exact hleave rfl

/-- What is live after a consumer's access was live before. -/
theorem liveAt_before_move (h : r.Attended posts) (hr : r.Early)
    (hpost : posts i = some (.taking nonempty location)) (hmove : Move nonempty r location s next)
    {d : Cursor} (hd : d.toNat ≤ 2 ^ 61) {index : Nat} (hlive : s.liveAt d = some index) :
    r.liveAt d = some index := by
  rcases h.liveAt_of_move hr hpost hmove hd with hsame | ⟨-, hnone⟩
  · rw [← hsame, hlive]
  · rw [hnone] at hlive
    cases hlive

/-- A producer that is in front stays there when a consumer moves. -/
theorem inFront_of_consumer_step (h : r.Attended posts) (hr : r.Early)
    (hpost : posts i = some (.taking nonempty location))
    (hstep : location.step patience nonempty r spurious = (s, next)) {producer : Producer}
    (hfront : r.InFront producer) : s.InFront producer := by
  have hmove := (h.move_of_step hr hpost hstep).1
  intro c hcursor d hle hd
  rcases h.liveAt_of_move hr hpost hmove hd with hsame | ⟨-, hnone⟩
  · rw [hsame]
    exact hfront c hcursor d hle hd
  · exact hnone

/-- Nothing changes where other consumers are looking. -/
theorem watched_of_move (h : r.Attended posts) (hr : r.Early)
    (hpost : posts i = some (.taking nonempty location)) (hmove : Move nonempty r location s next)
    {j : Fin t} (hj : j ≠ i) : s.watched (posts j) = r.watched (posts j) := by
  rcases hlooking : (posts j).bind RingLocation.looking? with _ | d
  · rw [watched, watched, hlooking]
    rfl
  · have hcursor := RingLocation.cursor?_of_bind_looking? hlooking
    rw [watched, watched, hlooking]
    refine (h.liveAt_of_move hr hpost hmove ((h.cursor_lt hcursor).le.trans hr.1)).resolve_right ?_
    rintro ⟨hself, -⟩
    exact hj (h.apart j i d hcursor (by rw [hpost]; exact hself))

/-- The index that is the consumer's, followed by those it will come to. -/
theorem line_of_move (h : r.Attended posts) (hr : r.Early)
    (hpost : posts i = some (.taking nonempty location)) (hmove : Move nonempty r location s next) :
    (gained? next).toList ++ ((s.watched (post nonempty next)).toList ++ s.live) =
      location.claimed?.toList ++ ((r.watched (posts i)).toList ++ r.live) := by
  have hcursorAt : (posts i).bind RingLocation.cursor? = location.cursor? := by
    rw [hpost]
    rfl
  have hwatched : r.watched (posts i) = location.looking?.bind r.liveAt := by
    rw [hpost]
    rfl
  rw [hwatched]
  cases hmove with
  | rest hcursor hnext hgained hcells hhead htail hlimit =>
    have hlive := h.live_of_tail_le hr hcells hhead htail (hlimit.trans (Nat.le_succ _))
    rw [watched_eq_none hnext, hgained, claimed?_of_cursor? hcursor,
      looking?_of_cursor? hcursor, hlive]
    rfl
  | reserve patience hcursor =>
    rw [claimed?_of_cursor? hcursor, looking?_of_cursor? hcursor, h.live_reserve hr]
    rfl
  | look hcursor hcursor' =>
    rw [claimed?_of_looking? hcursor, hcursor, ← hcursor', gained?, claimed?_of_looking? hcursor']
    rfl
  | @claim c hcursor hlap =>
    have hcursor' := hcursorAt.trans (cursor?_of_looking? hcursor)
    have hpassed : ¬ r.Passed posts c := fun hpassed => hpassed.2 i hcursor'
    have hlive := h.liveAt_of_lap ((h.cursor_lt hcursor').le.trans hr.1) hpassed hlap
    rw [claimed?_of_looking? hcursor, hcursor, Option.bind_some, hlive]
    rfl
  | @leave c hcursor hlap =>
    have hlt := h.cursor_lt (hcursorAt.trans (cursor?_of_looking? hcursor))
    rw [claimed?_of_looking? hcursor, hcursor, Option.bind_some, liveAt_eq_none_of_lap hlap,
      live_leave hr hlt]
    cases nonempty <;> rfl
  | collect hlocation =>
    subst hlocation
    rw [live_leave hr (h.cursor_lt hcursorAt)]
    rfl

/-- A consumer's gain is what no longer is unclaimed. -/
theorem unclaimed_of_consumer_step (h : r.Attended posts) (hr : r.Early)
    (hpost : posts i = some (.taking nonempty location))
    (hstep : location.step patience nonempty r spurious = (s, next)) :
    ((gained? next).toList ++ s.unclaimed (Function.update posts i (post nonempty next))).Perm
      (location.claimed?.toList ++ r.unclaimed posts) := by
  have hmove := (h.move_of_step hr hpost hstep).1
  refine unclaimed_update_perm (fun j hj => h.watched_of_move hr hpost hmove hj) ?_
  rw [h.line_of_move hr hpost hmove]

end Ring.Attended

end CircularQueue
