/-
What a tick needs to be completed.

A turn that fails spoils nothing but itself, whatever has failed in it.  Adding up is
another matter: an amount that a ticker's totals have no room for ends its pass, and one
that the totals of the tick have no room for ends the tick.  By then every fill has been
committed, and it is the report alone that there is no room for.  When the tick ends like
this, tickers whose passes had not begun are passed over.

`Isolates` says that this is all that can go wrong when no call fails.  In a pass that
was kept, everyone who was waiting when the tick began and could still be matched when
their side was listed has had a turn.  There is room for all sums if there is room for
what is still wanted on one side, for no tick fills more than that; and then it does not
matter in which order the passes are added up.
-/
import Bourse.Proofs.Account
import Mathlib.Data.List.Flatten

namespace Bourse

open Decimal

variable {scale : Nat} {f g : Floor}

/-! ### Those that are handed over -/

/--
In a tick from `f` to `g` a pass over the ticker has listed the side, and all who were waiting
there have had their turns, in order.
-/
structure SidePass.Heard (scale : Nat) (fan : Fan) (ticker : String) (f g : Floor) (s : SidePass) :
    Prop where
  /-- The pass has asked for the list. -/
  asked : ⟨.index (.list s.side ticker), s.listing⟩ ∈ callsOf fan.trace ticker
  /-- Wherever that was the answer, these were those who were waiting. -/
  turns : ∀ before later,
    f.since g = before ++ ⟨.index (.list s.side ticker), s.listing⟩ :: later →
      ∃ w, f.Trail scale before w ∧ s.listing = .ok (w.index.waiting s.side ticker) ∧
        s.turns.map (·.order) = w.index.waiting s.side ticker ∧
          -- Who had been waiting all along is among them, if a match was possible still.
          ∀ id ∈ f.index.waiting s.side ticker, ∀ o, w.store.find? id = some o →
            o.matchable = true → id ∈ s.turns.map (·.order)

/-- Who was waiting is listed as long as nothing but trades happens and a match is possible. -/
theorem Floor.Trading.waiting {w : Floor} (hfw : f.Trading scale w) (hsound : f.Sound) {side : Side}
    {ticker : String} {id : OrderId} (hid : id ∈ f.index.waiting side ticker) {o : Order}
    (hfind : w.store.find? id = some o) (hmatch : o.matchable = true) :
    id ∈ w.index.waiting side ticker := by
  obtain ⟨p, hp, rfl, rfl⟩ := hsound.mem_waiting hid
  obtain ⟨q, hq, hlisted⟩ := hfw.covers hsound id ⟨p, hp, fun _ => hid⟩
  obtain ⟨r, hr, hbecomes⟩ := hfw.orders id p hp
  rw [hfind, Option.some.injEq] at hq hr
  subst hq hr
  rw [← hbecomes.terms.side, ← hbecomes.terms.ticker]
  exact hlisted hmatch

/-- A side whose listing was granted was heard, if all that were listed have had their turns. -/
theorem SidePass.heard {fan : Fan} {ticker : String} (hsound : f.Sound)
    (htrail : f.Trail scale (f.since g) g) (hgranted : ∀ x ∈ f.since g, x.granted = true)
    {s : SidePass} (hwhole : s.Whole)
    (hlisted : ⟨.index (.list s.side ticker), s.listing⟩ ∈ callsOf fan.trace ticker) :
    s.Heard scale fan ticker f g := by
  refine ⟨hlisted, fun before later hsince => ?_⟩
  have hgiven := hgranted _ (hsince ▸ List.mem_append_right _ List.mem_cons_self)
  rw [hsince] at htrail
  obtain ⟨w, hbefore, hmay⟩ := htrail.split
  have hlisting : s.listing = .ok (w.index.waiting s.side ticker) := by
    dsimp only at hmay
    cases hids : s.listing with
    | error e =>
        rw [hids] at hgiven
        cases hgiven
    | ok ids =>
        rw [hids] at hmay
        exact congrArg Except.ok hmay
  have hturns := hwhole _ hlisting
  refine ⟨w, hbefore, hlisting, hturns, fun id hid o hfind hmatch => ?_⟩
  rw [hturns]
  exact hbefore.trading.waiting hsound hid hfind hmatch

/-- In a pass that was not given up, both sides were heard. -/
theorem Visit.heard {fan : Fan} {v : Visit} (hvisited : fan.Visited scale v) (hsound : f.Sound)
    (htrail : f.Trail scale (f.since g) g) (hgranted : ∀ x ∈ f.since g, x.granted = true)
    (hkept : v.kept = true) (side : Side) :
    ∃ s ∈ v.pass.sides, s.side = side ∧ s.Heard scale fan v.pass.ticker f g := by
  obtain ⟨r, hr⟩ := v.exists_of_kept hkept
  have htells := (noteTicker_returns scale v.pass.ticker).of_comesTo hvisited.noted r hr
  have hside : side ∈ v.pass.sides.map (·.side) := by
    rw [htells.sides]
    cases side <;> simp
  obtain ⟨s, hs, rfl⟩ := List.mem_map.mp hside
  exact ⟨s, hs, rfl, SidePass.heard hsound htrail hgranted (htells.whole s hs)
    (hvisited.listed s hs)⟩

/-! ### Room for what is wanted -/

theorem volume_le {k : Nat} {part fills : List FillCommit} (hpart : part.Sublist fills)
    (hwhole : ∀ fill ∈ fills, Whole k fill.amount.units) : volume part ≤ volume fills :=
  (hpart.map _).sum_le_sum (List.forall_mem_map.mpr fun fill hfill => (hwhole fill hfill).nonneg)

/-- What the turns of a pass report is part of what they have filled. -/
theorem Visit.rounds_sublist (v : Visit) :
    (v.rounds.flatMap (·.reported)).Sublist v.fills := by
  apply List.Sublist.flatMap_right
  intro r _
  unfold Round.reported
  split <;> simp

theorem Visit.reported_sublist (v : Visit) : v.reported.Sublist v.fills := by
  unfold reported
  by_cases hkept : v.kept = true
  · simpa [hkept] using v.rounds_sublist
  · simp [hkept]

/-- **There is room for all sums of a tick** if there is room for all that it fills. -/
theorem Visit.roomy {k : Nat} (hk : k ≤ 28) {visits : List Visit}
    (hwhole : ∀ fill ∈ visits.flatMap (·.fills), Whole k fill.amount.units)
    (hroom : OnGrid k (volume (visits.flatMap (·.fills)))) :
    (total visits).isSome = true ∧ ∀ v ∈ visits, v.kept = true := by
  have hpart {part : List FillCommit} (hpart : part.Sublist (visits.flatMap (·.fills))) :
      OnGrid k (volume part) := by
    have hparts : Whole k (volume part) :=
      whole_volume fun fill hfill => hwhole fill (hpart.subset hfill)
    exact hparts.onGrid (volume_le hpart hwhole) hroom
  constructor
  · have hall := hpart (.flatMap_right _ fun v _ => v.reported_sublist)
    obtain ⟨c, hc, -⟩ := total_exact hk hwhole hall
    simp [isSome_total, hc]
  · intro v hv
    have hfills : v.fills.Sublist (visits.flatMap (·.fills)) := by
      simpa using (List.singleton_sublist.mpr hv).flatMap (·.fills)
    have hown : ∀ fill ∈ v.fills, Whole k fill.amount.units :=
      fun fill hfill => hwhole fill (hfills.subset hfill)
    obtain ⟨c, hc, -⟩ := amount?_exact hk hown (hpart (v.rounds_sublist.trans hfills))
    simp [kept_eq, hc]

/-! ### The tick as a whole -/

/--
How a tick from `f` to `g` in which no call fails, and which has gone by these visits, depends on
whether there is room for what it adds up.
-/
structure Floor.Isolates (scale : Nat) (f : Floor) (fan : Fan) (visits : List Visit)
    (outcome : Except Failure TickOutcome) (g : Floor) : Prop where
  /-- Each visit is to a ticker that was active, and none is visited twice. -/
  begun : fan.joined.Nodup ∧ fan.joined ⊆ f.index.tickers
  /-- If the tick is completed, every ticker that was active is visited. -/
  all : (∃ report, outcome = .ok (.completed report)) → fan.joined.Perm f.index.tickers
  /-- A pass is given up if and only if there is no room for what it adds up. -/
  kept : ∀ v ∈ visits, v.kept = v.amount?.isSome
  /-- The tick is completed or has overflowed, and nothing else. -/
  ended : outcome = totalled ((Visit.total visits).map .completed)
  /-- It is completed if and only if there is room for what the kept passes add up, in turn. -/
  completed : (∃ report, outcome = .ok (.completed report)) ↔
    (sumOf Visit.amount? (visits.filter (·.kept))).isSome = true
  /-- Who was waiting when it began is handed over in a visit that is kept. -/
  handed : ∀ v ∈ visits, v.kept = true → ∀ side, ∃ s ∈ v.pass.sides, s.side = side ∧
    s.Heard scale fan v.pass.ticker f g
  /-- On a grid there is room for everything if there is for what one side still wants. -/
  room : ∀ k ≤ 28, (∀ o ∈ f.store.orders, OnGrid k o.amount.units) →
    ∀ side, OnGrid k (f.store.demand side) →
      (∃ report, outcome = .ok (.completed report)) ∧ ∀ v ∈ visits, v.kept = true

/--
**A tick in which no call fails is completed unless there is no room for its total**, and
hands over everyone it should unless there is no room for a ticker's total, in whatever way
its passes take turns and in whatever order they are added up.
-/
theorem Floor.Served.tick_isolates {servings : List Serving} {fan : Fan}
    {outcome : Except Failure TickOutcome} (h : f.Served scale servings)
    (hticks : f.Ticks scale fan outcome g) (hgranted : ∀ x ∈ f.since g, x.granted = true) :
    ∃ visits : List Visit, fan.Visits scale visits ∧ f.Isolates scale fan visits outcome g := by
  obtain ⟨visits, htallied⟩ := hticks.tallied
  have htrail := (hticks.trail h.orderly h.sound).1
  have hended := htallied.granted hgranted
  have hcompleted : (∃ report, outcome = .ok (.completed report)) ↔
      (Visit.total visits).isSome = true := by
    rw [hended]
    cases Visit.total visits <;> simp [totalled]
  refine ⟨visits, htallied.toVisits, htallied.active, htallied.all, fun v _ => v.kept_eq, hended,
    ?_, fun v hv hkept side => ?_, ?_⟩
  · rw [hcompleted, Visit.isSome_total]
  · exact Visit.heard (htallied.visited v hv) h.sound htrail hgranted hkept side
  · intro k hk hgrid side hroom
    have hspends := htrail.spends h.orderly hk hgrid
    have hdemand := hspends.demand side
    have hleft := g.store.demand_nonneg side
    have hwhole : ∀ fill ∈ visits.flatMap (·.fills), Whole k fill.amount.units :=
      fun fill hfill => hspends.fills fill (htallied.fills.mem_iff.mp hfill)
    rw [← volume_perm htallied.fills] at hdemand
    rw [hcompleted]
    exact Visit.roomy hk hwhole ((whole_volume hwhole).onGrid (by omega) hroom)

/-- On each of two tickers there are orders to buy and to sell as much as there can be. -/
def Floor.doubled : Floor :=
  session 2 .epoch (["X", "Y"].flatMap fun ticker =>
    [.submit [] ⟨ticker, .buy, .ofDigits 1 0, .greatest⟩,
      .submit [] ⟨ticker, .sell, .ofDigits 1 0, .greatest⟩])

/-- Of the two passes each is kept, and there is no room for both. -/
theorem Floor.tick_isolates_doubled : (∃ servings, doubled.Served 2 servings) ∧
    ∃ fan outcome g, doubled.Ticks 2 fan outcome g ∧
      (∀ x ∈ doubled.since g, x.granted = true) ∧
        ∃ visits : List Visit, fan.Visits 2 visits ∧ doubled.Isolates 2 fan visits outcome g ∧
          sumOf Visit.amount? (visits.filter (·.kept)) = none := by
  have hreached : doubled.Reached 2 := reached_session _ _ _
  obtain ⟨servings, hserved, -⟩ := hreached.served
  have hlead := doubled.leads_perform .epoch (tick 2)
  have hgranted : ∀ x ∈ doubled.since (doubled.perform .epoch (tick 2)).2, x.granted = true := by
    decide +kernel
  have houtcome : (doubled.perform .epoch (tick 2)).1 = .error (.overflow .addition) := by
    decide +kernel
  obtain ⟨fan, -, hticks⟩ := hlead.ticks
  refine ⟨⟨servings, hserved⟩, fan, _, _, hticks, hgranted, ?_⟩
  obtain ⟨visits, hvisits, hisolates⟩ := Floor.Served.tick_isolates hserved hticks hgranted
  refine ⟨visits, hvisits, hisolates, ?_⟩
  rw [← Option.not_isSome_iff_eq_none, ← hisolates.completed]
  rintro ⟨report, hreport⟩
  cases houtcome.symm.trans hreport

/-- On one ticker two pairs of the greatest orders stand before a pair of small ones. -/
def Floor.trebled : Floor :=
  session 2 .epoch ([.greatest, .greatest, .ofDigits 1 0].flatMap fun amount =>
    [.order .buy (.ofDigits 1 0) amount, .order .sell (.ofDigits 1 0) amount])

/--
**A tick can fail as a whole, or pass over someone on either side**, though no call has failed
and every order was accepted.
-/
theorem Floor.not_isolated :
    (doubled.Reached 2 ∧ (∀ x ∈ doubled.log, x.granted = true) ∧
      ∃ g, doubled.Leads (tick 2) (.fail (.overflow .addition)) g ∧
        ∀ x ∈ doubled.since g, x.granted = true) ∧
    (trebled.Reached 2 ∧ (∀ x ∈ trebled.log, x.granted = true) ∧
      ∃ passes report g,
        trebled.Leads (noteTick 2) (.done (passes, .ok (.completed report))) g ∧
          (∀ x ∈ trebled.since g, x.granted = true) ∧
            ∀ side, ∃ id ∈ trebled.index.waiting side "X",
              (∃ o, g.store.find? id = some o ∧ o.matchable = true) ∧
                ∀ p ∈ passes, ∀ t ∈ p.turns, t.order ≠ id) := by
  refine ⟨⟨reached_session _ _ _, by decide +kernel, ?_⟩,
    reached_session _ _ _, by decide +kernel, ?_⟩
  · have hlead := doubled.leads_perform .epoch (tick 2)
    have houtcome : (doubled.perform .epoch (tick 2)).1 = .error (.overflow .addition) := by
      decide +kernel
    rw [houtcome] at hlead
    exact ⟨_, hlead, by decide +kernel⟩
  · have hlead := trebled.leads_perform .epoch (noteTick 2)
    have hturns : ((trebled.perform .epoch (noteTick 2)).1.map fun n =>
        (n.1.flatMap fun p => p.turns.map (·.order), n.2)) =
          .ok ([1, 3], .ok (.completed ⟨1, 1, 0, 0, 0, .zero⟩)) := by decide +kernel
    have hleft : ∀ side, ∃ id ∈ trebled.index.waiting side "X", id ∉ [1, 3] ∧
        ∃ o ∈ (trebled.perform .epoch (noteTick 2)).2.store.orders,
          o.id = id ∧ o.matchable = true := by
      intro side
      cases side <;> decide +kernel
    cases hrun : (trebled.perform .epoch (noteTick 2)).1 with
    | error e =>
        rw [hrun] at hturns
        cases hturns
    | ok notes =>
        obtain ⟨passes, outcome⟩ := notes
        rw [hrun] at hturns hlead
        obtain ⟨hturns, rfl⟩ := Prod.mk.inj (Except.ok.inj hturns)
        refine ⟨passes, _, _, hlead, by decide +kernel, fun side => ?_⟩
        obtain ⟨id, hid, hother, o, ho, rfl, hmatch⟩ := hleft side
        refine ⟨o.id, hid, ⟨o, Store.mem_orders_iff.mp ho, hmatch⟩, fun p hp t ht hsame => ?_⟩
        refine hother (hturns ▸ List.mem_flatMap.mpr ⟨p, hp, ?_⟩)
        exact hsame ▸ List.mem_map_of_mem ht

end Bourse
