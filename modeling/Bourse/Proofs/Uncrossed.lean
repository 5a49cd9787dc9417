/-
After a tick, orders cross only if both of them have missed it.

A turn that ends well leaves its order uncrossed: either nothing remains of the order, or
every order it might have met got all it asked for.  That cannot come undone, for no order
is placed during a tick and one that cannot be matched never can again.  So if two orders
still cross when the tick is over, neither of them has had a turn that ended well.

Why they had none can be told from the notes.  Whatever can still be matched at the end
could be matched all along and was listed all along.  So its ticker had a pass, and unless
that was given up its side was gone through, and unless the listing failed its turn came.
-/
import Bourse.Proofs.Course

namespace Bourse

open Decimal

variable {scale k : Nat} {f g : Floor} {id : OrderId}

/-! ### An order that is uncrossed -/

theorem Order.Becomes.mayMeet {o p c d : Order} (ho : o.Becomes p) (hc : c.Becomes d)
    (h : p.mayMeet d = true) : o.mayMeet c = true := by
  rw [Order.mayMeet_congr ho.terms] at h
  obtain ⟨hmatch, hside, hticker, haccepts⟩ := Order.mayMeet_iff.mp h
  refine Order.mayMeet_iff.mpr ⟨hc.matchable hmatch, ?_, ?_, ?_⟩
  · rw [← hside, hc.terms.side]
  · rw [← hticker, hc.terms.ticker]
  · rw [← haccepts, hc.terms.price]

/-- Even if the order can still be matched, there is nothing on record that it may meet. -/
def Floor.Uncrossed (f : Floor) (id : OrderId) : Prop :=
  ∀ o ∈ f.store.orders, o.id = id → o.matchable = true → ∀ c ∈ f.store.orders,
    o.mayMeet c = false

/-- **An order that is uncrossed stays so**, as long as no order is placed. -/
theorem Floor.Withdraws.uncrossed (hfg : f.Withdraws g) (h : f.Uncrossed id) :
    g.Uncrossed id := by
  intro p hp hid hmatch d hd
  obtain ⟨o, ho, hop⟩ := hfg.earlier hp
  obtain ⟨c, hc, hcd⟩ := hfg.earlier hd
  cases hmay : p.mayMeet d with
  | false => rfl
  | true =>
      have hfalse := h o ho (hop.terms.id ▸ hid) (hop.matchable hmatch) c hc
      rw [hop.mayMeet hcd hmay] at hfalse
      cases hfalse

/-- **A turn that ends well leaves its order uncrossed.** -/
theorem Floor.Turned.uncrossed (hf : f.Complete scale k) (hk : k ≤ 28) (hfg : f.Trading scale g)
    (h : f.Turned scale id g) : g.Uncrossed id := by
  intro p hp hid hmatch d hd
  cases hmay : p.mayMeet d with
  | false => rfl
  | true =>
      exfalso
      obtain ⟨o, ho, hop⟩ := hfg.earlier hp
      obtain ⟨c, hc, hcd⟩ := hfg.earlier hd
      have hfind := Store.mem_orders_iff.mp ho
      have hid : o.id = id := hop.terms.id ▸ hid
      cases h with
      | idle hstore hidle =>
          have hfalse := hidle o (hid ▸ hfind)
          rw [hop.matchable hmatch] at hfalse
          cases hfalse
      | @met o' last fills hfind' hmatch' hmeets =>
          rw [← hid, hfind, Option.some.injEq] at hfind'
          subst hfind'
          have hallotted := hf.allotted hk hfind hmatch' hmeets
          -- Something remains, so everybody in the queue got all they asked for.
          have hleft : ((shares o.remainingAmount.units (f.queue o)).map (·.2)).sum <
              o.remainingAmount.units := by
            have hfound := hallotted.found
            rw [← hop.terms.id, Store.mem_orders_iff.mp hp, Option.some.injEq] at hfound
            have hpos := (Order.matchable_iff.mp hmatch).2
            have := hallotted.left
            rw [← hfound] at this
            omega
          have hqueue : c ∈ f.queue o := hf.mem_queue.mpr ⟨hc, hop.mayMeet hcd hmay⟩
          obtain ⟨n, hn⟩ := exists_share o.remainingAmount.units hqueue
          obtain ⟨c', hfound, hrest, -⟩ := hallotted.counters _ hn
          have hshare := share_eq_of_left (hf.orderly.ready_queue hfind).nonneg hleft _ hn
          rw [← hcd.terms.id, Store.mem_orders_iff.mp hd, Option.some.injEq] at hfound
          have hpos := (Order.matchable_iff.mp (Order.mayMeet_iff.mp hmay).1).2
          rw [hfound] at hpos
          dsimp only at hrest hshare
          omega

/-! ### The turns of a tick -/

theorem TickerPass.Made.taken {p : TickerPass} (h : p.Made scale f g) {t : OrderTurn}
    (ht : t ∈ p.turns) : ∃ f' g', f.Trading scale f' ∧ t.Taken scale f' g' ∧
      g'.Trading scale g := by
  obtain ⟨s, hs, ht⟩ := List.mem_flatMap.mp ht
  obtain ⟨f₁, g₁, hf₁, hmade, hg₁⟩ := Floor.Series.split h (·.trading) hs
  obtain ⟨f₂, g₂, hf₂, htaken, hg₂⟩ := hmade.turns.split (·.toTrading) ht
  exact ⟨f₂, g₂, hf₁.trans hf₂, htaken, hg₂.trans hg₁⟩

/-- Every order whose turn has ended well is uncrossed when its side is through. -/
theorem SidePass.Made.uncrossed_of_fine {s : SidePass} {ticker : String}
    (h : s.Made scale ticker f g) (hf : f.Complete scale k) (hk : k ≤ 28) {t : OrderTurn}
    (ht : t ∈ s.turns) (hfine : t.Fine) : g.Uncrossed t.order := by
  obtain ⟨f', g', hf', htaken, hg'⟩ := h.turns.split (·.toTrading) ht
  exact hg'.uncrossed ((htaken.turned hfine).uncrossed (hf.trading hf') hk htaken.toTrading)

/-- Every order whose turn has ended well is uncrossed when the tick is over. -/
theorem Floor.Ticked.uncrossed {passes : List TickerPass} (h : f.Ticked scale passes g)
    (hf : f.Complete scale k) (hk : k ≤ 28) {p : TickerPass} (hp : p ∈ passes) {t : OrderTurn}
    (ht : t ∈ p.turns) (hfine : t.Fine) : g.Uncrossed t.order := by
  obtain ⟨f₁, g₁, hf₁, hmade, hg₁⟩ := h.passes.split (·.trading) hp
  obtain ⟨f₂, g₂, hf₂, htaken, hg₂⟩ := hmade.taken ht
  have huncrossed := (htaken.turned hfine).uncrossed (hf.trading (hf₁.trans hf₂)) hk
    htaken.toTrading
  exact (hg₂.trans hg₁).uncrossed huncrossed

/-- What can still be matched was listed whenever it was looked for. -/
theorem Floor.Complete.waiting (hf : f.Complete scale k) (hfg : f.Trading scale g) {o : Order}
    (ho : o ∈ g.store.orders) (hmatch : o.matchable = true) :
    o.id ∈ f.index.waiting o.side o.ticker := by
  obtain ⟨p, hp, hpo⟩ := hfg.earlier ho
  rw [hpo.terms.id, hpo.terms.side, hpo.terms.ticker]
  exact hf.listed p hp (hpo.matchable hmatch)

/-- What can still be matched afterwards has had its turn, if its side was listed. -/
theorem SidePass.Made.turn_of_matchable {s : SidePass} {ticker : String} {ids : List OrderId}
    {h : Floor} (hmade : s.Made scale ticker f g) (hf : f.Complete scale k) (hwhole : s.Whole)
    (hlisting : s.listing = .ok ids) (hgh : g.Trading scale h) {o : Order}
    (ho : o ∈ h.store.orders) (hside : o.side = s.side) (hticker : o.ticker = ticker)
    (hmatch : o.matchable = true) : ∃ t ∈ s.turns, t.order = o.id := by
  have hwaiting := hf.waiting (hmade.trading.trans hgh) ho hmatch
  rw [hside, hticker, ← hmade.listing ids hlisting, ← hwhole ids hlisting] at hwaiting
  exact List.mem_map.mp hwaiting

/-- An order that has met nobody in a tick, and how that has come about. -/
structure Order.Missed (o : Order) (passes : List TickerPass) : Prop where
  /-- Whenever it had a turn, the turn has failed. -/
  failed : ∀ p ∈ passes, ∀ t ∈ p.turns, t.order = o.id → ∃ e, t.outcome = .error e
  /-- It had a turn, or its ticker was given up, or its side could not be listed. -/
  cause : ∃ p ∈ passes, p.ticker = o.ticker ∧ ((∃ e, p.outcome = .error e) ∨
    ∃ s ∈ p.sides, s.side = o.side ∧ ((∃ e, s.listing = .error e) ∨
      ∃ t ∈ s.turns, t.order = o.id))

theorem Floor.Ticked.missed {passes : List TickerPass} (h : f.Ticked scale passes g)
    (hf : f.Complete scale k) (hk : k ≤ 28)
    (htells : ∀ p ∈ passes, ∀ r, p.outcome = .ok r → p.Tells r) {o c : Order}
    (ho : o ∈ g.store.orders) (hmatch : o.matchable = true) (hc : c ∈ g.store.orders)
    (hmay : o.mayMeet c = true) : o.Missed passes := by
  refine ⟨fun p hp t ht hid => ?_, ?_⟩
  · cases houtcome : t.outcome with
    | error e => exact ⟨e, rfl⟩
    | ok report =>
        have hfalse := h.uncrossed hf hk hp ht ⟨report, houtcome⟩ o ho hid.symm hmatch c hc
        rw [hmay] at hfalse
        cases hfalse
  · have hticker : o.ticker ∈ passes.map (·.ticker) := by
      rw [h.tickers]
      exact WaitingIndex.mem_tickers_of_waiting
        (hf.waiting (h.passes.trading (·.trading)) ho hmatch)
    obtain ⟨p, hp, hticker⟩ := List.mem_map.mp hticker
    refine ⟨p, hp, hticker, ?_⟩
    cases houtcome : p.outcome with
    | error e => exact Or.inl ⟨e, rfl⟩
    | ok r =>
        have hside : o.side ∈ p.sides.map (·.side) := by
          rw [(htells p hp r houtcome).sides]
          cases o.side <;> simp
        obtain ⟨s, hs, hside⟩ := List.mem_map.mp hside
        have hwhole := (htells p hp r houtcome).whole s hs
        refine Or.inr ⟨s, hs, hside, ?_⟩
        cases hlisting : s.listing with
        | error e => exact Or.inl ⟨e, rfl⟩
        | ok ids =>
            obtain ⟨f₁, g₁, hf₁, hmade, hg₁⟩ := h.passes.split (·.trading) hp
            obtain ⟨f₂, g₂, hf₂, hmade, hg₂⟩ := Floor.Series.split hmade (·.trading) hs
            exact Or.inr (hmade.turn_of_matchable (hf.trading (hf₁.trans hf₂)) hwhole hlisting
              (hg₂.trans hg₁) ho hside.symm hticker.symm hmatch)

/-- Where nothing has failed, nobody has missed the tick. -/
theorem Order.Missed.not_clean {o : Order} {passes : List TickerPass} (h : o.Missed passes)
    (hclean : ∀ p ∈ passes, (∃ r, p.outcome = .ok r) ∧ ∀ s ∈ p.sides, s.Clean) : False := by
  obtain ⟨p, hp, -, hcause⟩ := h.cause
  obtain ⟨⟨r, hr⟩, hsides⟩ := hclean p hp
  rcases hcause with ⟨e, he⟩ | ⟨s, hs, -, hcause⟩
  · rw [hr] at he
    cases he
  · obtain ⟨⟨ids, hids⟩, hfine⟩ := hsides s hs
    rcases hcause with ⟨e, he⟩ | ⟨t, ht, hid⟩
    · rw [hids] at he
      cases he
    · obtain ⟨report, hreport⟩ := hfine t ht
      obtain ⟨e, he⟩ := h.failed p hp t (List.mem_flatMap.mpr ⟨s, hs, ht⟩) hid
      rw [hreport] at he
      cases he

/-! ### A whole tick -/

/-- A buy order and a sell order of one ticker that can both be matched. -/
structure Store.Facing (s : Store) (bid ask : Order) : Prop where
  bidFound : bid ∈ s.orders
  askFound : ask ∈ s.orders
  buys : bid.side = .buy
  sells : ask.side = .sell
  ticker : bid.ticker = ask.ticker
  bidMatchable : bid.matchable = true
  askMatchable : ask.matchable = true

/-- Those that face each other may meet if their prices cross. -/
theorem Store.Facing.mayMeet {s : Store} {bid ask : Order} (h : s.Facing bid ask)
    (hprice : ask.price ≤ bid.price) : bid.mayMeet ask = true := by
  refine Order.mayMeet_iff.mpr ⟨h.askMatchable, ?_, h.ticker.symm, ?_⟩
  · rw [h.buys]
    exact h.sells
  · unfold Order.accepts
    rw [h.buys]
    exact decide_eq_true hprice

/--
**One failed turn hides nobody from the others.**  A tick begins on a floor on which
whatever can be matched is listed, with amounts on a grid, and any calls may fail
during it.  If it is completed, two orders that still cross have both missed it.  So if it
tells of no failure, every bid is below every ask.
-/
theorem Floor.Seen.book_uncrossed {report : TickReport} (h : f.Seen scale) (hk : k ≤ 28)
    (hgrid : ∀ o ∈ f.store.orders, OnGrid k o.amount.units)
    (hlisted : ∀ o ∈ f.store.orders, o.matchable = true →
      o.id ∈ f.index.waiting o.side o.ticker)
    (hlead : f.Leads (tick scale) (.done (.completed report)) g) :
    (∃ passes, f.Leads (noteTick scale) (.done (passes, .ok (.completed report))) g) ∧
      (∀ passes, f.Leads (noteTick scale) (.done (passes, .ok (.completed report))) g →
        ∀ bid ask, g.store.Facing bid ask → ask.price ≤ bid.price →
          bid.Missed passes ∧ ask.Missed passes) ∧
      (report.ordersFailed = 0 → report.tickersFailed = 0 →
        ∀ bid ask, g.store.Facing bid ask → bid.price < ask.price) := by
  have hcomplete : f.Complete scale k := ⟨h.orderly, h.sound, hlisted, hgrid⟩
  have hmissed (passes : List TickerPass)
      (hnoted : f.Leads (noteTick scale) (.done (passes, .ok (.completed report))) g)
      (bid ask : Order) (hfacing : g.store.Facing bid ask) (hprice : ask.price ≤ bid.price) :
      bid.Missed passes ∧ ask.Missed passes := by
    obtain ⟨f', -, hf', hticked⟩ := hcomplete.ticked hnoted
    have htells := ((noteTick_returns scale).of_leads hnoted report rfl).tells
    have hmay := hfacing.mayMeet hprice
    have hmay' := Order.mayMeet_symm hfacing.bidMatchable hmay
    exact ⟨hticked.missed hf' hk htells hfacing.bidFound hfacing.bidMatchable hfacing.askFound hmay,
      hticked.missed hf' hk htells hfacing.askFound hfacing.askMatchable hfacing.bidFound hmay'⟩
  have hnoted := Floor.Leads.noted scale (r := .ok _) hlead
  refine ⟨hnoted, hmissed, fun horders htickers bid ask hfacing => ?_⟩
  obtain ⟨passes, hnoted⟩ := hnoted
  by_contra hprice
  have hclean := ((noteTick_returns scale).of_leads hnoted report rfl).clean horders htickers
  exact (hmissed passes hnoted bid ask hfacing (Int.not_lt.mp hprice)).1.not_clean hclean

/-- Two orders whose prices cross, before any tick. -/
def Floor.crossing : Floor :=
  session 2 .epoch [.order .buy (.ofDigits 2 0) (.ofDigits 15 1),
    .order .sell (.ofDigits 1 0) (.ofDigits 1 0)]

/-- The answer of a floor on which no fill can be committed. -/
def Floor.grantReading (f : Floor) : (c : Call) → c.Answer
  | .store (.commit _) => .error (.store "read only")
  | c => f.grant .epoch c

theorem Floor.book_uncrossed_crossing :
    crossing.Seen 2 ∧ (∀ o ∈ crossing.store.orders, OnGrid 1 o.amount.units) ∧
      (∀ o ∈ crossing.store.orders, o.matchable = true →
        o.id ∈ crossing.index.waiting o.side o.ticker) ∧
      ∃ report g, crossing.Leads (tick 2) (.done (.completed report)) g ∧
        report.ordersFailed = 2 ∧
        ∃ bid ask, g.store.Facing bid ask ∧ ask.price ≤ bid.price ∧
          ∃ passes, crossing.Leads (noteTick 2) (.done (passes, .ok (.completed report))) g ∧
            bid.Missed passes ∧ ask.Missed passes := by
  have hseen : crossing.Seen 2 := (reached_session _ _ _).seen
  have hgrid : ∀ o ∈ crossing.store.orders, OnGrid 1 o.amount.units :=
    Store.onGrid_of_places (by decide) (by decide +kernel)
  have hlisted : ∀ o ∈ crossing.store.orders, o.matchable = true →
      o.id ∈ crossing.index.waiting o.side o.ticker := by decide +kernel
  have hmay (f : Floor) (c : Call) : f.May c (f.grantReading c) := by
    unfold grantReading
    split
    · trivial
    · exact f.may_grant .epoch _
  have hlead := leads_answering hmay crossing (tick 2)
  have houtcome : (crossing.answering grantReading (tick 2)).1.toOption =
      some (.completed ⟨1, 0, 2, 2, 0, .zero⟩) := by decide +kernel
  obtain ⟨bid, hbid, ask, hask, hbuys, hsells, hticker, hbidMatch, haskMatch, hprice⟩ :
      ∃ bid ∈ (crossing.answering grantReading (tick 2)).2.store.orders,
        ∃ ask ∈ (crossing.answering grantReading (tick 2)).2.store.orders,
          bid.side = .buy ∧ ask.side = .sell ∧ bid.ticker = ask.ticker ∧ bid.matchable = true ∧
            ask.matchable = true ∧ ask.price ≤ bid.price := by decide +kernel
  cases hresult : (crossing.answering grantReading (tick 2)).1 with
  | error e =>
      rw [hresult] at houtcome
      cases houtcome
  | ok outcome =>
      rw [hresult] at houtcome hlead
      obtain rfl : outcome = _ := Option.some.inj houtcome
      obtain ⟨⟨passes, hnoted⟩, hmissed, -⟩ :=
        Floor.Seen.book_uncrossed hseen (by decide) hgrid hlisted hlead
      exact ⟨hseen, hgrid, hlisted, _, _, hlead, rfl, bid, ask,
        ⟨hbid, hask, hbuys, hsells, hticker, hbidMatch, haskMatch⟩, hprice, passes, hnoted,
        hmissed passes hnoted bid ask
          ⟨hbid, hask, hbuys, hsells, hticker, hbidMatch, haskMatch⟩ hprice⟩

end Bourse
