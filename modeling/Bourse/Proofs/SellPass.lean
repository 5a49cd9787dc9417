/-
What is left for the sell orders.

A ticker is gone through twice, buy orders first.  Where the first half goes well, the
second half finds nothing to do: a turn that ends well leaves its buy order uncrossed, the
turns after it cannot undo that, and so no sell order has anybody left to meet.  What the
second half is good for shows only where a buy order was not listed or its turn has failed.

So in a pass that goes well every fill belongs to the turn of a buy order, and the price is
the limit of the sell order that it has met.  `Split` lays a pass out as its two halves, each
with the fills of its turns.
-/
import Bourse.Proofs.Price

namespace Bourse

open Bourse.Action Decimal

variable {scale k : Nat} {f g m : Floor} {ticker : String} {p : TickerPass}

/-! ### The two halves of a pass -/

namespace TickerPass

/-- The turns that a pass has given to the orders of one side. -/
def turnsOn (p : TickerPass) (side : Side) : List OrderTurn :=
  (p.sides.filter (·.side = side)).flatMap (·.turns)

/-- The buy orders were listed, and every turn of theirs has ended well. -/
def Bought (p : TickerPass) : Prop := ∀ s ∈ p.sides, s.side = .buy → s.Clean

/-- The turns of a pass, each with the fills that it has committed on the way from `f` to `g`. -/
structure Split (p : TickerPass) (f g : Floor) (buys sells : List Round) : Prop where
  bought : p.turnsOn .buy = buys.map (·.turn)
  sold : p.turnsOn .sell = sells.map (·.turn)
  fills : f.fillsSince g = buys.flatMap (·.fills) ++ sells.flatMap (·.fills)

/-- Where the buy orders went well, none of them was skipped. -/
theorem Bought.not_skips (h : p.Bought) (id : OrderId) : ¬ p.Skips id := by
  rintro ⟨s, hs, hside, hcause⟩
  have hclean := h s hs hside
  rcases hcause with ⟨e, he⟩ | ⟨t, ht, -, e, he⟩
  · obtain ⟨ids, hids⟩ := hclean.listed
    rw [hids] at he
    cases he
  · obtain ⟨report, hreport⟩ := hclean.fine t ht
    rw [hreport] at he
    cases he

end TickerPass

namespace Floor

/-- Every pass over a ticker that has ended can be told with the notes of its turns. -/
theorem Leads.noted_ticker {r : Except Failure TickReport}
    (hlead : f.Leads (drainTicker scale ticker) (.ended r) g) :
    ∃ p, f.Leads (noteTicker scale ticker) (.done p) g ∧ p.outcome = r := by
  have hattempt := hlead.attempt
  rw [drainTicker_attempt] at hattempt
  obtain ⟨p, m, hnoted, hend⟩ := hattempt.of_bind_done
  have hend : m.Leads (.done p.outcome) (.done r) g := hend
  cases hend
  exact ⟨p, hnoted, rfl⟩

/-- The turns on one side of a ticker, with their fills. -/
theorem Leads.rounds {side : Side} {r : TickReport} {n : SidePass × Except Failure TickReport}
    (hlead : f.Leads (noteSide scale ticker side r) (.done n) g) :
    ∃ rounds : List Round, n.1.turns = rounds.map (·.turn) ∧
      f.fillsSince g = rounds.flatMap (·.fills) := by
  obtain ⟨_, hn, s, rounds, rfl, hturns, hposts, -⟩ :=
    (noteSide_makes scale ticker side r).of_ended (r := .ok n) hlead
  cases hn
  exact ⟨rounds, hturns, hposts.committed⟩

/-! ### Nobody is left to meet -/

/-- On the way from `f` to `g` every fill was that of a buy order, at the limit of the other. -/
def Buys (f g : Floor) : Prop :=
  ∀ fill ∈ f.fillsSince g, ∃ bid ∈ f.store.orders, ∃ ask ∈ f.store.orders,
    bid.side = .buy ∧ ask.side = .sell ∧ fill.Joins bid ask

/-- The fills of the buy orders' turns are those of buy orders. -/
theorem Complete.buys (hf : f.Complete scale k) {r : TickReport}
    {n : SidePass × Except Failure TickReport}
    (hlead : f.Leads (noteSide scale ticker .buy r) (.done n) g) : f.Buys g := by
  obtain ⟨-, -, hcommits, -⟩ := hf.side hlead
  intro fill hfill
  obtain ⟨⟨bid, hbid, ask, hask, hjoins⟩, hlisted⟩ := hcommits.fills fill hfill
  obtain ⟨hside, -⟩ := hf.listed_joins hbid hjoins hlisted
  obtain ⟨-, hopposite, -, -⟩ := Order.mayMeet_iff.mp hjoins.mayMeet
  rw [hside] at hopposite
  exact ⟨bid, hbid, ask, hask, hside, hopposite, hjoins⟩

/--
**Once the buy orders are through, nothing is filled.**  A sell order would meet a buy order
in its turn, and that one would have been skipped.
-/
theorem Complete.nothing_sold (hf : f.Complete scale k) (hk : k ≤ 28) (hbought : p.Bought)
    (hpass : f.Leads (noteTicker scale ticker) (.done p) g) (hm : m.Complete scale k)
    (hlog : f.log <+: m.log) {r : TickReport} {n : SidePass × Except Failure TickReport}
    (hsells : m.Leads (noteSide scale ticker .sell r) (.done n) g) : m.fillsSince g = [] := by
  refine List.eq_nil_iff_forall_not_mem.mpr ?_
  intro fill hfill
  obtain ⟨-, -, hcommits, -⟩ := hm.side hsells
  obtain ⟨⟨ask, hask, bid, -, hjoins⟩, hlisted⟩ := hcommits.fills fill hfill
  obtain ⟨hside, -⟩ := hm.listed_joins hask hjoins hlisted
  obtain ⟨-, hopposite, -, -⟩ := Order.mayMeet_iff.mp hjoins.mayMeet
  have hmem : fill ∈ f.fillsSince g := by
    rw [fillsSince_trans hlog hsells.log]
    exact List.mem_append_right _ hfill
  rcases (hf.pass_asked hk hpass).fills fill hmem with hsell | ⟨p', hp', -, hskips⟩
  · rw [hjoins.counter.side, hopposite, hside] at hsell
    cases hsell
  · obtain rfl := List.mem_singleton.mp hp'
    exact hbought.not_skips _ hskips

/-- A pass in two halves, of which the second is idle if the first one has gone well. -/
theorem Complete.split (hf : f.Complete scale k) (hk : k ≤ 28)
    (hpass : f.Leads (noteTicker scale ticker) (.done p) g) :
    ∃ buys sells, p.Split f g buys sells ∧
      (p.Bought → (∀ x ∈ sells, x.fills = []) ∧ f.Buys g) := by
  have hlead := hpass
  unfold noteTicker at hlead
  obtain ⟨⟨first, outcome⟩, m, hfirst, hlead⟩ := hlead.of_bind_done
  obtain ⟨buys, hbuys, hfills⟩ := hfirst.rounds
  obtain ⟨hbuy, hmade, -, -⟩ := hf.side hfirst
  dsimp only at hbuy hbuys
  cases outcome with
  | error e =>
      -- The pass was given up before any sell order was listed.
      cases hlead
      refine ⟨buys, [], ⟨?_, ?_, ?_⟩, fun _ => ⟨List.forall_mem_nil _, hf.buys hfirst⟩⟩
      · simpa [TickerPass.turnsOn, hbuy] using hbuys
      · simp [TickerPass.turnsOn, hbuy]
      · simpa using hfills
  | ok r =>
      obtain ⟨⟨second, outcome⟩, w, hsecond, hlead⟩ := Leads.of_bind_done hlead
      cases hlead
      have hm := hf.trading hmade.trading
      obtain ⟨sells, hsells, hfills'⟩ := hsecond.rounds
      obtain ⟨hsell, -, -, -⟩ := hm.side hsecond
      dsimp only at hsell hsells
      have hall : f.fillsSince g = f.fillsSince m ++ m.fillsSince g :=
        fillsSince_trans hfirst.log hsecond.log
      refine ⟨buys, sells, ⟨?_, ?_, ?_⟩, fun hbought => ?_⟩
      · simpa [TickerPass.turnsOn, hbuy, hsell] using hbuys
      · simpa [TickerPass.turnsOn, hbuy, hsell] using hsells
      · rw [hall, hfills, hfills']
      · have hnone := hf.nothing_sold hk hbought hpass hm hfirst.log hsecond
        refine ⟨?_, ?_⟩
        · rw [hfills'] at hnone
          exact List.flatMap_eq_nil_iff.mp hnone
        · have hbids := hf.buys hfirst
          unfold Buys at hbids ⊢
          rw [hall, hnone, List.append_nil]
          exact hbids

/--
**Where no buy order fails, the sell orders' turns come to nothing.**  A pass over a ticker
begins on a floor on which whatever can be matched is listed, with amounts on a grid, and
any calls may fail during it.  If the buy orders were listed and each of their turns has
ended well, no turn of a sell order commits a fill.  So every fill is that of a buy order
with a sell order that it has met, at the limit of the sell order.
-/
theorem Seen.sells_idle {r : Except Failure TickReport} (h : f.Seen scale) (hk : k ≤ 28)
    (hgrid : ∀ o ∈ f.store.orders, OnGrid k o.amount.units)
    (hlisted : ∀ o ∈ f.store.orders, o.matchable = true →
      o.id ∈ f.index.waiting o.side o.ticker)
    (hlead : f.Leads (drainTicker scale ticker) (.ended r) g) :
    ∃ p, f.Leads (noteTicker scale ticker) (.done p) g ∧ p.outcome = r ∧
      ∃ buys sells, p.Split f g buys sells ∧
        (p.Bought → (∀ x ∈ sells, x.fills = []) ∧
          ∀ fill ∈ f.fillsSince g, ∃ bid ∈ f.store.orders, ∃ ask ∈ f.store.orders,
            bid.side = .buy ∧ ask.side = .sell ∧ fill.Joins bid ask) := by
  have hcomplete : f.Complete scale k := ⟨h.orderly, h.sound, hlisted, hgrid⟩
  obtain ⟨p, hpass, houtcome⟩ := hlead.noted_ticker
  exact ⟨p, hpass, houtcome, hcomplete.split hk hpass⟩

/-- A bid that comes first and takes one ask whole, another in part and a third not at all. -/
def threeAsks : Floor :=
  session 2 .epoch [.order .buy (.ofDigits 2 0) (.ofDigits 35 1),
    .order .sell (.ofDigits 1 0) (.ofDigits 1 0), .order .sell (.ofDigits 2 0) (.ofDigits 5 0),
    .order .sell (.ofDigits 3 0) (.ofDigits 1 0)]

theorem sells_idle_threeAsks :
    threeAsks.Seen 2 ∧ (∀ o ∈ threeAsks.store.orders, OnGrid 1 o.amount.units) ∧
      (∀ o ∈ threeAsks.store.orders, o.matchable = true →
        o.id ∈ threeAsks.index.waiting o.side o.ticker) ∧
      ∃ report g, threeAsks.Leads (drainTicker 2 "X") (.done report) g ∧
        report.ordersProcessed = 3 ∧ (threeAsks.fillsSince g).length = 2 ∧
          ∃ (p : TickerPass) (buys sells : List Round), p.Split threeAsks g buys sells ∧
            p.Bought ∧ (∀ x ∈ sells, x.fills = []) ∧ threeAsks.Buys g := by
  have hseen : threeAsks.Seen 2 := (reached_session _ _ _).seen
  have hgrid : ∀ o ∈ threeAsks.store.orders, OnGrid 1 o.amount.units :=
    Store.onGrid_of_places (by decide) (by decide +kernel)
  have hlisted : ∀ o ∈ threeAsks.store.orders, o.matchable = true →
      o.id ∈ threeAsks.index.waiting o.side o.ticker := by decide +kernel
  have hlead := threeAsks.leads_perform .epoch (drainTicker 2 "X")
  obtain ⟨report, houtcome, horders, htickers, hprocessed⟩ : ∃ report,
      (threeAsks.perform .epoch (drainTicker 2 "X")).1 = .ok report ∧
        report.ordersFailed = 0 ∧ report.tickersFailed = 0 ∧ report.ordersProcessed = 3 :=
    ⟨⟨1, 0, 3, 0, 2, .ofDigits 35 1⟩, by decide +kernel⟩
  have hfills : (threeAsks.fillsSince
      (threeAsks.perform .epoch (drainTicker 2 "X")).2).length = 2 := by decide +kernel
  rw [houtcome] at hlead
  obtain ⟨p, hpass, hp, buys, sells, hsplit, hidle⟩ :=
    Floor.Seen.sells_idle hseen (by decide) hgrid hlisted hlead
  -- No turn has failed, so none of a buy order has.
  have hbought : p.Bought := fun s hs _ =>
    ((noteTicker_returns 2 "X").of_leads hpass report hp).clean horders htickers s hs
  obtain ⟨hnone, hbuys⟩ := hidle hbought
  exact ⟨hseen, hgrid, hlisted, report, _, hlead, hprocessed, hfills, p, buys, sells, hsplit,
    hbought, hnone, hbuys⟩

end Floor

end Bourse
