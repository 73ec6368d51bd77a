import CircularQueue.Proofs.Interleaving.Lead
import Mathlib.Logic.Equiv.Basic

/-!
# Keeping pace

Every access keeps the indices in one place each and finds one to blame for a cursor that is given
up. Most accesses carry each index from where it was to where it is, with the cursor that it had or
with one that the tail has just dealt, so the blame of earlier cursors stays. A producer that gives
up a cursor that the head has not passed has found an index of an earlier lap in its cell. It lies
at a cursor before the head, since the tail is no more than a lap ahead; so it is not to blame for
another cursor yet.
-/

namespace CircularQueue.Ring

open Interleaving

variable {k : Order} {t : Nat} {r s : Ring k} {posts posts' : Fin t → Option RingLocation}
  {i : Fin t} {post : Option RingLocation} {origin : Cursor ⊕ Fin t → Cursor ⊕ Fin t}
  {limit : Nat} {blame : Cursor → Nat} {c d u : Cursor} {index : Nat} {seen : Word}

/-- What lies in a place lay in its origin before, where it had the same cursor, unless it has got
one from the tail on. -/
structure Carries (r s : Ring k) (posts posts' : Fin t → Option RingLocation)
    (origin : Cursor ⊕ Fin t → Cursor ⊕ Fin t) : Prop where
  injective : Function.Injective origin
  lies : ∀ index place, s.Lies posts' index place → r.Lies posts index (origin place)
  cursor : ∀ place c, cursorAt? posts' place = some c →
    cursorAt? posts (origin place) = some c ∨ r.tail.toNat ≤ c.toNat

section Update

variable {place : Cursor ⊕ Fin t}

theorem lies_update_self : r.Lies (Function.update posts i post) index (.inr i) ↔
    post.bind RingLocation.held? = some index := by
  rw [Lies, Function.update_self]

theorem lies_update_of_ne (hplace : place ≠ .inr i) :
    r.Lies (Function.update posts i post) index place ↔ r.Lies posts index place := by
  rcases place with c | j
  · exact Iff.rfl
  · rw [Lies, Lies, Function.update_of_ne fun hj => hplace (congrArg _ hj)]

theorem cursorAt?_update_self : cursorAt? (Function.update posts i post) (.inr i) =
    post.bind RingLocation.tailTicket? := by
  rw [cursorAt?, Function.update_self]

theorem cursorAt?_update_of_ne (hplace : place ≠ .inr i) :
    cursorAt? (Function.update posts i post) place = cursorAt? posts place := by
  rcases place with c | j
  · rfl
  · rw [cursorAt?, cursorAt?, Function.update_of_ne fun hj => hplace (congrArg _ hj)]

end Update

/-- Nothing moves, but a thread may get a cursor or give one up. -/
theorem carries_id (hlive : ∀ c index, c.toNat ≤ 2 ^ 61 → s.liveAt c = some index →
      r.liveAt c = some index)
    (hheld : ∀ index, post.bind RingLocation.held? = some index →
      (posts i).bind RingLocation.held? = some index)
    (hticket : ∀ c, post.bind RingLocation.tailTicket? = some c →
      (posts i).bind RingLocation.tailTicket? = some c ∨ r.tail.toNat ≤ c.toNat) :
    Carries r s posts (Function.update posts i post) id where
  injective := Function.injective_id
  lies := by
    intro index place hlies
    by_cases hself : place = .inr i
    · rw [hself, lies_update_self] at hlies
      rw [hself]
      exact hheld index hlies
    · rw [lies_update_of_ne hself] at hlies
      cases place with
      | inl c => exact ⟨hlies.1, hlive c index hlies.1 hlies.2⟩
      | inr j => exact hlies
  cursor := by
    intro place c hcursor
    by_cases hself : place = .inr i
    · rw [hself, cursorAt?_update_self] at hcursor
      rw [hself]
      exact hticket c hcursor
    · rw [cursorAt?_update_of_ne hself] at hcursor
      exact .inl hcursor

/-- A thread publishes its index at its cursor. -/
theorem carries_publish (hlive : ∀ d index', d ≠ c → d.toNat ≤ 2 ^ 61 →
      s.liveAt d = some index' → r.liveAt d = some index')
    (hnew : s.liveAt c = some index) (hheld : (posts i).bind RingLocation.held? = some index)
    (hticket : (posts i).bind RingLocation.tailTicket? = some c)
    (hheld' : post.bind RingLocation.held? = none)
    (hticket' : post.bind RingLocation.tailTicket? = none) :
    Carries r s posts (Function.update posts i post) (Equiv.swap (.inl c) (.inr i)) where
  injective := (Equiv.swap _ _).injective
  lies := by
    intro index' place hlies
    by_cases hself : place = .inr i
    · rw [hself, lies_update_self, hheld'] at hlies
      cases hlies
    rw [lies_update_of_ne hself] at hlies
    by_cases hplace : place = .inl c
    · rw [hplace, Lies, hnew] at hlies
      obtain rfl := Option.some.inj hlies.2
      rw [hplace, Equiv.swap_apply_left]
      exact hheld
    · rw [Equiv.swap_apply_of_ne_of_ne hplace hself]
      cases place with
      | inl d => exact ⟨hlies.1, hlive d index' (fun hd => hplace (congrArg _ hd)) hlies.1 hlies.2⟩
      | inr j => exact hlies
  cursor := by
    intro place d hcursor
    by_cases hself : place = .inr i
    · rw [hself, cursorAt?_update_self, hticket'] at hcursor
      cases hcursor
    rw [cursorAt?_update_of_ne hself] at hcursor
    by_cases hplace : place = .inl c
    · rw [hplace] at hcursor
      rw [hplace, Equiv.swap_apply_left]
      exact .inl (hticket.trans hcursor)
    · rw [Equiv.swap_apply_of_ne_of_ne hplace hself]
      exact .inl hcursor

/-- A cursor that is skipped after a thread has moved was skipped before, unless the tail has come
past it or the thread has given it up. -/
theorem Skipped.before (h : s.Skipped (Function.update posts i post) u)
    (hhead : r.head.toNat ≤ s.head.toNat) (htail : u.toNat < r.tail.toNat)
    (hlive : s.liveAt u = none → r.liveAt u = none)
    (hticket : (posts i).bind RingLocation.tailTicket? = some u →
      post.bind RingLocation.tailTicket? = some u) : r.Skipped posts u where
  head_le := hhead.trans h.head_le
  lt_tail := htail
  not_live := hlive h.not_live
  no_ticket := by
    intro j hj
    refine h.no_ticket j ?_
    by_cases hji : j = i
    · rw [hji, Function.update_self]
      exact hticket (hji ▸ hj)
    · rwa [Function.update_of_ne hji]

namespace Carries

theorem index_lt (hcarries : Carries r s posts posts' origin) (h : r.Paced limit posts)
    (index : Nat) (place : Cursor ⊕ Fin t) (hlies : s.Lies posts' index place) : index < limit :=
  h.index_lt index _ (hcarries.lies index place hlies)

theorem once (hcarries : Carries r s posts posts' origin) (h : r.Paced limit posts) (index : Nat)
    (place place' : Cursor ⊕ Fin t) (hlies : s.Lies posts' index place)
    (hlies' : s.Lies posts' index place') : place = place' :=
  hcarries.injective
    (h.once index _ _ (hcarries.lies _ _ hlies) (hcarries.lies _ _ hlies'))

/-- Where an index lies it lay before, or it comes after the cursors that have been skipped. -/
theorem later (hcarries : Carries r s posts posts' origin) (h : r.Blames limit posts blame)
    (hskipped : r.Skipped posts u) (place : Cursor ⊕ Fin t) (c : Cursor)
    (hlies : s.Lies posts' (blame u) place) (hcursor : cursorAt? posts' place = some c) :
    k.cell c = k.cell u ∨ u.toNat < c.toNat := by
  rcases hcarries.cursor place c hcursor with hsame | hlast
  · exact h.later u _ c hskipped (hcarries.lies _ _ hlies) hsame
  · exact .inr (hskipped.lt_tail.trans_le hlast)

end Carries

/-- No cursor is skipped anew. -/
theorem Paced.carry (h : r.Paced limit posts) (hcarries : Carries r s posts posts' origin)
    (hdated : s.Dated) (hskipped : ∀ u, s.Skipped posts' u → r.Skipped posts u) :
    s.Paced limit posts' where
  index_lt := hcarries.index_lt h
  once := hcarries.once h
  dated := hdated
  blamed := by
    obtain ⟨blame, hblame⟩ := h.blamed
    exact ⟨blame, fun u hu => hblame.lt u (hskipped u hu),
      fun u v hu hv => hblame.inj u v (hskipped u hu) (hskipped v hv),
      fun u place c hu => hcarries.later hblame (hskipped u hu) place c⟩

/-- A cursor is skipped, and an index in its cell gets the blame that had none before. -/
theorem Blames.insert (h : r.Blames limit posts blame) (hpaced : r.Paced limit posts)
    (hcarries : Carries r s posts posts' origin)
    (hskipped : ∀ u, s.Skipped posts' u → u = c ∨ r.Skipped posts u)
    (hlies : s.Lies posts' index (.inl d)) (hcell : k.cell d = k.cell c)
    (hnew : ∀ u, r.Skipped posts u → blame u ≠ index) :
    s.Blames limit posts' (Function.update blame c index) := by
  have hold {u : Cursor} (hu : s.Skipped posts' u) (hne : u ≠ c) : r.Skipped posts u :=
    (hskipped u hu).resolve_left hne
  refine ⟨?_, ?_, ?_⟩
  · intro u hu
    by_cases huc : u = c
    · rw [huc, Function.update_self]
      exact hcarries.index_lt hpaced index _ hlies
    · rw [Function.update_of_ne huc]
      exact h.lt u (hold hu huc)
  · intro u v hu hv heq
    by_cases huc : u = c <;> by_cases hvc : v = c
    · rw [huc, hvc]
    · rw [huc, Function.update_self, Function.update_of_ne hvc] at heq
      exact absurd heq.symm (hnew v (hold hv hvc))
    · rw [hvc, Function.update_self, Function.update_of_ne huc] at heq
      exact absurd heq (hnew u (hold hu huc))
    · rw [Function.update_of_ne huc, Function.update_of_ne hvc] at heq
      exact h.inj u v (hold hu huc) (hold hv hvc) heq
  · intro u place e hu hplace hcursor
    by_cases huc : u = c
    · rw [huc, Function.update_self] at hplace
      obtain rfl := hcarries.once hpaced index _ _ hplace hlies
      cases hcursor
      exact .inl (huc ▸ hcell)
    · rw [Function.update_of_ne huc] at hplace
      exact hcarries.later h (hold hu huc) place e hplace hcursor

/-- A cursor before another one of its cell is a whole lap before it. -/
theorem add_cellCount_le (hcell : k.cell d = k.cell c) (hlt : d.toNat < c.toNat) :
    d.toNat + k.cellCount ≤ c.toNat := by
  by_contra hnear
  have hle := le_of_cell_eq hcell (by omega)
  omega

/-- A producer gives a cursor up that the head has not passed because of an index of an earlier
lap. -/
theorem Attended.exists_in_the_way (h : r.Attended posts) (hr : r.Early) (hdated : r.Dated)
    (hlead : r.tail.toNat ≤ r.head.toNat + k.cellCount) (hhead : r.head.toNat ≤ c.toNat)
    (htail : c.toNat < r.tail.toNat) (hnone : r.liveAt c = none)
    (hrefused : k.admission c (r.word c) = .refused) :
    ∃ d index, r.Lies posts index (.inl d) ∧ k.cell d = k.cell c ∧
      d.toNat + k.cellCount ≤ c.toNat := by
  have hc : c.toNat ≤ 2 ^ 61 := htail.le.trans hr.2
  have hoccupied : ¬ k.Vacant (r.word c) := by
    intro hvacant
    refine Order.admission_ne_refused ?_ hvacant hrefused
    rcases hdated c with hunused | ⟨d, hd, hcell, hlap⟩
    · rw [hunused]
      exact Order.behind_unusedWord hc
    · have hbefore : d.toNat < r.head.toNat :=
        (h.spent d hd (by rwa [word_eq_of_cell_eq hcell])
          (by rw [word_eq_of_cell_eq hcell, hlap])).1
      rw [Order.behind_iff_turn_lt (h.timely c) hc, Order.turn_eq_turn_lap_iff.2 hlap.symm,
        ← not_le, Order.turn_lap_le_iff hcell.symm hc hd]
      omega
  obtain ⟨d, hd, hcell, hlive⟩ := hdated.exists_liveAt hoccupied
  have hne : d.toNat ≠ c.toNat := fun heq => by
    rw [UInt64.toNat_inj.1 heq, hnone] at hlive
    cases hlive
  have hlate := h.lt_tail_of_live hd hlive
  refine ⟨d, _, ⟨hd, hlive⟩, hcell, add_cellCount_le hcell ?_⟩
  have hle := le_of_cell_eq hcell.symm (show d.toNat < c.toNat + k.cellCount by omega)
  omega

namespace Paced

theorem lead_le (h : r.Paced limit posts) (hr : r.Early) (hlimit : limit ≤ k.capacity) :
    r.tail.toNat ≤ r.head.toNat + k.cellCount := by
  have htail := h.tail_le hr
  rw [k.cellCount_eq]
  omega

/-- A producer gives its cursor up. -/
theorem giveUp (h : r.Paced limit posts) (hattended : r.Attended posts) (hr : r.Early)
    (hlimit : limit ≤ k.capacity)
    (hticket : (posts i).bind RingLocation.tailTicket? = some c)
    (hlost : k.admission c (r.word c) = .refused ∨ 0 < gap r.head c)
    (hheld : post.bind RingLocation.held? = (posts i).bind RingLocation.held?)
    (hticket' : post.bind RingLocation.tailTicket? = none) :
    r.Paced limit (Function.update posts i post) := by
  have hcarries : Carries r r posts (Function.update posts i post) id :=
    carries_id (fun _ _ _ hlive => hlive) (fun _ heq => hheld ▸ heq)
      (by rw [hticket']; rintro _ ⟨⟩)
  have hskipped (u : Cursor) (hu : r.Skipped (Function.update posts i post) u) :
      u = c ∨ r.Skipped posts u := by
    rw [or_iff_not_imp_left]
    intro hne
    refine hu.before le_rfl hu.lt_tail id fun heq => ?_
    rw [hticket] at heq
    exact absurd (Option.some.inj heq).symm hne
  by_cases hnew : r.Skipped (Function.update posts i post) c
  · have hlead := h.lead_le hr hlimit
    obtain ⟨hhead, htail, hnone, -⟩ := hnew
    have hrefused : k.admission c (r.word c) = .refused := by
      refine hlost.resolve_right fun hpassed => ?_
      rw [gap_eq_toNat_sub (hr.1.trans (by omega)) (htail.le.trans (hr.2.trans (by omega)))]
        at hpassed
      omega
    obtain ⟨d, index, hlies, hcell, hfar⟩ :=
      hattended.exists_in_the_way hr h.dated hlead hhead htail hnone hrefused
    obtain ⟨blame, hblame⟩ := h.blamed
    refine ⟨hcarries.index_lt h, hcarries.once h, h.dated, Function.update blame c index,
      hblame.insert h hcarries hskipped hlies hcell ?_⟩
    -- The index lies a lap before `c`, so before the head, and cannot be in the way of two cursors.
    rintro u hu rfl
    rcases hblame.later u (.inl d) d hu hlies rfl with hcellu | hlate
    · have huc := hcellu.symm.trans hcell
      have htailu := hu.lt_tail
      have hheadu := hu.head_le
      have hle := le_of_cell_eq huc (show c.toNat < u.toNat + k.cellCount by omega)
      have hge := le_of_cell_eq huc.symm (show u.toNat < c.toNat + k.cellCount by omega)
      exact hu.no_ticket i (by rw [hticket, UInt64.toNat_inj.1 (le_antisymm hle hge)])
    · have hheadu := hu.head_le
      omega
  · exact h.carry hcarries h.dated fun u hu =>
      (hskipped u hu).resolve_left fun heq => hnew (heq ▸ hu)

/-- A thread moves that has no index to publish, and the words stay. -/
theorem settle (h : r.Paced limit posts) (hcells : s.cells = r.cells) (hhead : s.head = r.head)
    (htail : s.tail = r.tail)
    (hheld : post.bind RingLocation.held? = (posts i).bind RingLocation.held?)
    (hticket : post.bind RingLocation.tailTicket? = (posts i).bind RingLocation.tailTicket?) :
    s.Paced limit (Function.update posts i post) := by
  have hlive (c : Cursor) : s.liveAt c = r.liveAt c := liveAt_congr hcells c
  refine h.carry (carries_id (fun c _ _ heq => hlive c ▸ heq) (fun _ heq => hheld ▸ heq)
    fun c heq => .inl (hticket ▸ heq)) (h.dated.congr hcells) fun u hu => ?_
  exact hu.before (hhead ▸ le_rfl) (htail ▸ hu.lt_tail) (hlive u ▸ id) fun heq => hticket ▸ heq

/-! ## Threads at the ring -/

/-- A thread comes to the ring to publish an index that is nowhere in it. -/
theorem enter (h : r.Paced limit posts) (hpost : posts i = none) (hindex : index < limit)
    (hfresh : ∀ place, ¬ r.Lies posts index place) (nonempty : Bool) :
    r.Paced limit
      (Function.update posts i (some (.publishing index nonempty .reserve))) := by
  have hbefore {index' : Nat} {place : Cursor ⊕ Fin t} (hlies : r.Lies
      (Function.update posts i (some (.publishing index nonempty .reserve))) index' place) :
      place = .inr i ∧ index' = index ∨ r.Lies posts index' place := by
    by_cases hself : place = .inr i
    · rw [hself, lies_update_self] at hlies
      exact .inl ⟨hself, (Option.some.inj hlies).symm⟩
    · exact .inr ((lies_update_of_ne hself).1 hlies)
  have hcursor {place : Cursor ⊕ Fin t} {c : Cursor} (hat : cursorAt?
      (Function.update posts i (some (.publishing index nonempty .reserve))) place = some c) :
      place ≠ .inr i ∧ cursorAt? posts place = some c := by
    have hother : place ≠ .inr i := by
      rintro rfl
      rw [cursorAt?_update_self] at hat
      cases hat
    exact ⟨hother, cursorAt?_update_of_ne hother ▸ hat⟩
  have hskipped (u : Cursor) (hu : r.Skipped
      (Function.update posts i (some (.publishing index nonempty .reserve))) u) :
      r.Skipped posts u :=
    hu.before le_rfl hu.lt_tail id fun heq => by rw [hpost] at heq; cases heq
  obtain ⟨blame, hblame⟩ := h.blamed
  refine ⟨?_, ?_, h.dated, blame, fun u hu => hblame.lt u (hskipped u hu),
    fun u v hu hv => hblame.inj u v (hskipped u hu) (hskipped v hv), ?_⟩
  · intro index' place hlies
    rcases hbefore hlies with ⟨-, rfl⟩ | hold
    · exact hindex
    · exact h.index_lt index' place hold
  · intro index' place place' hlies hlies'
    rcases hbefore hlies with ⟨rfl, rfl⟩ | hold <;>
      rcases hbefore hlies' with ⟨rfl, heq⟩ | hold'
    · rfl
    · exact absurd hold' (hfresh place')
    · exact absurd (heq ▸ hold) (hfresh place)
    · exact h.once index' place place' hold hold'
  · intro u place c hu hlies hat
    obtain ⟨hne, hat⟩ := hcursor hat
    exact hblame.later u place c (hskipped u hu)
      ((hbefore hlies).resolve_left fun hand => hne hand.1) hat

section Consumer

open Interleaving.Consumer

variable {location : Consumer} {next : Next Consumer (Option Nat)} {patience : Nat}
  {spurious : Bool}

theorem dated_of_move (h : r.Dated) (hattended : r.Attended posts) (hr : r.Early)
    {nonempty : Bool} (hpost : posts i = some (.taking nonempty location))
    (hmove : Move nonempty r location s next) : s.Dated := by
  have hleave {c : Cursor} (hcursor : location.cursor? = some c) : (r.leave c).Dated :=
    h.leave ((hattended.cursor_lt (i := i) (by rw [hpost]; exact hcursor)).le.trans hr.1)
  cases hmove with
  | rest _ _ _ hcells => exact h.congr hcells
  | reserve | look | claim => exact h
  | leave hcursor => exact hleave (cursor?_of_looking? hcursor)
  | collect hlocation =>
    subst hlocation
    exact hleave rfl

theorem consumer_step (h : r.Paced limit posts) (hattended : r.Attended posts) (hr : r.Early)
    (hpost : posts i = some (.taking false location))
    (hstep : location.step patience false r spurious = (s, next)) :
    s.Paced limit (Function.update posts i (Consumer.post false next)) := by
  have hstride := stride_of_step hr (hattended.informed i _ hpost) hstep
  have hmove := (hattended.move_of_step hr hpost hstep).1
  have hhead := (hattended.evolves_of_consumer_step hr hpost hstep).head_le
  have hheld : (Consumer.post false next).bind RingLocation.held? = none := by cases next <;> rfl
  have hticket : (Consumer.post false next).bind RingLocation.tailTicket? = none := by
    cases next <;> rfl
  have hlive (c : Cursor) (index : Nat) (hc : c.toNat ≤ 2 ^ 61) (heq : s.liveAt c = some index) :
      r.liveAt c = some index := hattended.liveAt_before_move hr hpost hmove hc heq
  refine h.carry (carries_id hlive (by rw [hheld]; rintro _ ⟨⟩) (by rw [hticket]; rintro _ ⟨⟩))
    (dated_of_move h.dated hattended hr hpost hmove) fun u hu => ?_
  have htail : u.toNat < r.tail.toNat := by
    rcases (hattended.tail_of_consumer_stride hpost hstride).2 with hsame | hdragged
    · exact hsame ▸ hu.lt_tail
    · exact absurd hu.lt_tail (Nat.not_lt.2 (hdragged.trans hu.head_le))
  refine hu.before hhead htail (fun hnone => ?_) (by rw [hpost]; rintro ⟨⟩)
  rcases hattended.liveAt_of_move hr hpost hmove (htail.le.trans hr.2) with hsame | ⟨hcursor, -⟩
  · rw [← hsame, hnone]
  · have hlt := hattended.cursor_lt (i := i) (c := u) (by rw [hpost]; exact hcursor)
    exact absurd hlt (Nat.not_lt.2 (hhead.trans hu.head_le))

end Consumer

section Producer

open Interleaving.Producer

variable {location : Producer} {next : Next Producer Unit} {nonempty spurious : Bool}

theorem publish (h : r.Paced limit posts) (hattended : r.Attended posts) (hr : r.Early)
    (hpost : posts i = some (.publishing index nonempty (.exchange c seen)))
    (hseen : r.word c = seen) (hheld : post.bind RingLocation.held? = none)
    (hticket : post.bind RingLocation.tailTicket? = none) :
    (r.write c (k.published c index)).Paced limit (Function.update posts i post) := by
  obtain ⟨hindex, hlt, -⟩ := hattended.informed i _ hpost
  have hc : c.toNat ≤ 2 ^ 61 := hlt.le.trans hr.2
  have hself := liveAt_write_published_self r c hindex
  refine h.carry (carries_publish ?_ hself (by rw [hpost]; rfl) (by rw [hpost]; rfl) hheld hticket)
    (h.dated.write hc (k.lapOf_published c (hindex.trans k.capacity_lt_cellCount))) fun u hu => ?_
  · intro d index' hne hd hlive
    rwa [hattended.liveAt_of_publish hr hpost hseen hd hne] at hlive
  · have hne : u ≠ c := by
      rintro rfl
      have hnone := hu.not_live
      rw [hself] at hnone
      cases hnone
    refine hu.before le_rfl hu.lt_tail (fun hnone => ?_) fun heq => ?_
    · rwa [hattended.liveAt_of_publish hr hpost hseen (hu.lt_tail.le.trans hr.2) hne] at hnone
    · rw [hpost] at heq
      exact absurd (Option.some.inj heq).symm hne

theorem producer_step (h : r.Paced limit posts) (hattended : r.Attended posts) (hr : r.Early)
    (hlimit : limit ≤ k.capacity) (hpost : posts i = some (.publishing index nonempty location))
    (hstep : location.step index nonempty r spurious = (s, next)) :
    s.Paced limit (Function.update posts i (Producer.post index nonempty next)) := by
  cases stride_of_step hstep with
  | reserve =>
    have hsucc := toNat_add_one (c := r.tail) (hr.2.trans (by omega))
    refine h.carry (carries_id (fun _ _ _ heq => heq) (by rw [hpost]; exact fun _ heq => heq)
      (by rintro _ ⟨⟩; exact .inr le_rfl)) h.dated fun u hu => ?_
    have hlast := hu.lt_tail
    have hne : u ≠ r.tail := fun heq =>
      hu.no_ticket i (by rw [Function.update_self, heq]; rfl)
    simp only [hsucc] at hlast
    have hnat : u.toNat ≠ r.tail.toNat := fun heq => hne (UInt64.toNat_inj.1 heq)
    exact hu.before le_rfl (by omega) id (by rw [hpost]; rintro ⟨⟩)
  | keep hcursor hcursor' =>
    refine h.settle rfl rfl rfl ?_ ?_
    · rw [hpost]
      exact (held?_of_cursor? hcursor' index).trans (held?_of_cursor? hcursor index).symm
    · rw [hpost]
      exact hcursor'.trans hcursor.symm
  | giveUp hcursor hlost =>
    refine h.giveUp hattended hr hlimit (by rw [hpost]; exact hcursor) hlost ?_ rfl
    rw [hpost]
    exact (held?_of_cursor? hcursor index).symm
  | publish hseen =>
    exact h.publish hattended hr hpost hseen (by cases nonempty <;> rfl)
      (by cases nonempty <;> rfl)
  | leaveFull | findLow | reset =>
    exact h.settle rfl rfl rfl (by rw [hpost]; rfl) (by rw [hpost]; rfl)

end Producer

end Paced

/-! ## The beginning -/

/-- In a ring without gaps an index is live at each cursor from the head to the tail. -/
theorem Holds.liveAt_eq_getElem {is : List Nat} (h : r.Holds is) (hr : r.Early)
    (hhead : r.head.toNat ≤ c.toNat) (htail : c.toNat < r.tail.toNat) :
    ∃ hj : c.toNat - r.head.toNat < is.length,
      r.liveAt c = some is[c.toNat - r.head.toNat] := by
  obtain ⟨hheadEarly, htailEarly⟩ := hr
  have hlength := h.gap_tail
  rw [gap_eq_toNat_sub (by omega) (by omega)] at hlength
  have hj : c.toNat - r.head.toNat < is.length := by omega
  have hcursor : r.head + (c.toNat - r.head.toNat).toUInt64 = c := by
    rw [← UInt64.toNat_inj, toNat_add_toUInt64]
    omega
  exact ⟨hj, by rw [← h.liveAt_eq hj, hcursor]⟩

theorem Holds.dated {is : List Nat} (h : r.Holds is) (hr : r.Early) : r.Dated := by
  intro c
  rcases h.word_cases hr c with ⟨hunused, -⟩ | ⟨d, hcell, hlt, -, hword⟩
  · exact .inl hunused
  · refine .inr ⟨d, hlt.le.trans hr.2, hcell, ?_⟩
    rcases hword with ⟨-, hword⟩ | ⟨-, i, hi, hword⟩
    · rw [hword, k.lapOf_lap]
    · rw [hword, k.lapOf_published d (hi.trans k.capacity_lt_cellCount)]

/-- In a ring without gaps no cursor has been skipped, and no index is there twice. -/
theorem Holds.paced {is : List Nat} (h : r.Holds is) (hr : r.Early) (hnodup : is.Nodup)
    (hlimit : ∀ index ∈ is, index < limit) : r.Paced limit fun _ : Fin t => none := by
  have hattended : r.Attended fun _ : Fin t => none := h.attended hr
  have hlies {index : Nat} {place : Cursor ⊕ Fin t}
      (hplace : r.Lies (fun _ => none) index place) :
      ∃ (c : Cursor) (hj : c.toNat - r.head.toNat < is.length), place = .inl c ∧
        r.head.toNat ≤ c.toNat ∧ is[c.toNat - r.head.toNat] = index := by
    rcases place with c | i
    · obtain ⟨hc, hlive⟩ := hplace
      have hhead : r.head.toNat ≤ c.toNat := by
        by_contra hbefore
        rw [hattended.taken c ⟨Nat.lt_of_not_le hbefore, by rintro _ ⟨⟩⟩] at hlive
        cases hlive
      have htail := hattended.lt_tail_of_live hc hlive
      obtain ⟨hj, hlive'⟩ := h.liveAt_eq_getElem hr hhead htail
      exact ⟨c, hj, rfl, hhead, Option.some.inj (hlive'.symm.trans hlive)⟩
    · cases hplace
  have hnone (u : Cursor) : ¬ r.Skipped (fun _ : Fin t => none) u := by
    rintro ⟨hhead, htail, hnone, -⟩
    obtain ⟨_, hlive⟩ := h.liveAt_eq_getElem hr hhead htail
    rw [hnone] at hlive
    cases hlive
  refine ⟨?_, ?_, h.dated hr, fun _ => 0, fun u hu => absurd hu (hnone u),
    fun u _ hu => absurd hu (hnone u), fun u _ _ hu => absurd hu (hnone u)⟩
  · intro index place hplace
    obtain ⟨c, hj, -, -, rfl⟩ := hlies hplace
    exact hlimit _ (List.getElem_mem hj)
  · intro index place place' hplace hplace'
    obtain ⟨c, hj, rfl, hhead, hindex⟩ := hlies hplace
    obtain ⟨c', hj', rfl, hhead', hindex'⟩ := hlies hplace'
    have hsame := (hnodup.getElem_inj_iff).1 (hindex.trans hindex'.symm)
    have hcursor : c = c' := UInt64.toNat_inj.1 (by omega)
    rw [hcursor]

end CircularQueue.Ring
