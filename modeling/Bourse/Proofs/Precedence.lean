/-
In a tick that goes well nobody is passed over.

Two rules decide who trades first, and they live in different places.  Buy orders take
their turns as the index lists them, by price and identifier.  Sell orders wait to be met
and queue by price, age and identifier.  The sells have turns of their own, but after
those of the buys nothing crosses any more, so those come to nothing.

`Fair` says of a stretch of the tick that whoever trades in it leaves nobody behind who
precedes him and can still be matched.  Stretches that are fair make one that is fair,
because an order that cannot be matched never can again, and so a tick is fair if every
turn is.  For the order whose turn it is, that takes what happened before: whoever precedes
it has had his turn and is uncrossed, but then so is the order itself.
-/
import Bourse.Proofs.Uncrossed

namespace Bourse

open Decimal

variable {scale k : Nat} {f g h : Floor} {id : OrderId} {ticker : String}

/-! ### Who comes first -/

/--
Is `o` to trade before `p`, an order on the same side?  Buy orders go by price and
identifier, sell orders by price, age and identifier.
-/
def Order.Precedes (o p : Order) : Prop :=
  match o.side with
  | .buy => p.price < o.price ∨ o.price.units = p.price.units ∧ o.id < p.id
  | .sell => Side.buy.Ahead o p

namespace Order.Precedes

variable {o p : Order}

theorem buy_iff (hbuy : o.side = .buy) : o.Precedes p ↔
    p.price < o.price ∨ o.price.units = p.price.units ∧ o.id < p.id := by
  unfold Order.Precedes
  rw [hbuy]

theorem sell_iff (hsell : o.side = .sell) : o.Precedes p ↔ Side.buy.Ahead o p := by
  unfold Order.Precedes
  rw [hsell]

/-- Who comes first depends on the terms only. -/
theorem of_terms {o' p' : Order} (h : o'.Precedes p') (ho : o.SameTerms o')
    (hp : p.SameTerms p') : o.Precedes p := by
  unfold Order.Precedes Side.Ahead at h ⊢
  rw [ho.side, ho.price, ho.id, ho.createdAt, hp.price, hp.id, hp.createdAt] at h
  exact h

/-- What an order could meet, one that precedes it could meet. -/
theorem mayMeet (h : o.Precedes p) (hbuy : p.side = .buy) (hside : o.side = p.side)
    (hticker : o.ticker = p.ticker) {c : Order} (hmay : p.mayMeet c = true) :
    o.mayMeet c = true := by
  have hprice := (buy_iff (hside.trans hbuy)).mp h
  obtain ⟨hmatch, hside', hticker', haccepts⟩ := Order.mayMeet_iff.mp hmay
  refine Order.mayMeet_iff.mpr ⟨hmatch, hside ▸ hside', hticker ▸ hticker', ?_⟩
  unfold Order.accepts at haccepts ⊢
  rw [hbuy] at haccepts
  rw [hside, hbuy]
  simp only [decide_eq_true_eq, Decimal.le_iff, Decimal.lt_iff] at *
  omega

end Order.Precedes

/-! ### Fairness -/

/-- Whoever trades on the way leaves nobody behind who precedes him and can be matched. -/
structure Floor.Fair (scale : Nat) (f g : Floor) : Prop extends f.Trading scale g where
  preceding : ∀ o ∈ f.store.orders, ∀ p ∈ f.store.orders, o.side = p.side →
    o.ticker = p.ticker → o.Precedes p →
      g.store.executionsOf p.id ≠ f.store.executionsOf p.id →
        ∀ q ∈ g.store.orders, q.id = o.id → q.matchable = false

namespace Floor

theorem Still.fair (hfg : f.Still scale g) : f.Fair scale g := by
  refine ⟨hfg.toTrading, fun o _ p _ _ _ _ hexecuted => ?_⟩
  rw [hfg.store] at hexecuted
  exact absurd rfl hexecuted

/-- What has become of an order that is on record. -/
theorem Becomes.later (hfg : f.Becomes g) {o : Order} (ho : o ∈ f.store.orders) :
    ∃ p ∈ g.store.orders, o.Becomes p := by
  obtain ⟨p, hfind, hop⟩ := hfg.orders o.id o (Store.mem_orders_iff.mp ho)
  exact ⟨p, (Store.mem_of_find? hfind).1, hop⟩

/-- An order on record is what has become of the one that had its identifier. -/
theorem Becomes.of_id (hfg : f.Becomes g) {o q : Order} (ho : o ∈ f.store.orders)
    (hq : q ∈ g.store.orders) (hid : q.id = o.id) : o.Becomes q := by
  obtain ⟨p, hfind, hop⟩ := hfg.orders o.id o (Store.mem_orders_iff.mp ho)
  rw [← hid, Store.mem_orders_iff.mp hq, Option.some.injEq] at hfind
  exact hfind ▸ hop

/-- **What is fair piece by piece is fair in all.** -/
theorem Fair.trans (hfg : f.Fair scale g) (hgh : g.Fair scale h) : f.Fair scale h := by
  refine ⟨hfg.toTrading.trans hgh.toTrading, ?_⟩
  intro o ho p hp hside hticker hbefore hexecuted q hq hid
  obtain ⟨o', ho', hoo'⟩ := hfg.later ho
  obtain ⟨p', hp', hpp'⟩ := hfg.later hp
  by_cases hfirst : g.store.executionsOf p.id = f.store.executionsOf p.id
  · rw [← hfirst, ← hpp'.terms.id] at hexecuted
    refine hgh.preceding o' ho' p' hp' ?_ ?_ ?_ hexecuted q hq (hid.trans hoo'.terms.id.symm)
    · rw [hoo'.terms.side, hpp'.terms.side, hside]
    · rw [hoo'.terms.ticker, hpp'.terms.ticker, hticker]
    · exact hbefore.of_terms hoo'.terms.symm hpp'.terms.symm
  · have hdone := hfg.preceding o ho p hp hside hticker hbefore hfirst o' ho' hoo'.terms.id
    have hlast := (hgh.of_id ho' hq (hid.trans hoo'.terms.id.symm)).matchable
    rw [hdone] at hlast
    exact Bool.eq_false_iff.mpr fun hmatch => nomatch hlast hmatch

end Floor

/-! ### What a turn executes -/

/-- A walk executes nothing for an order that is in none of its fills. -/
theorem Meets.executionsOf {s s' : Store} {o last : Order} {queue : List Order}
    {fills : List FillCommit} (h : Meets scale s o queue fills s' last) {id : OrderId}
    (hid : ∀ fill ∈ fills, id ≠ fill.incoming.id ∧ id ≠ fill.counter.id) :
    s'.executionsOf id = s.executionsOf id := by
  induction h with
  | out | full => rfl
  | trade _ t _ ih =>
      obtain ⟨⟨hincoming, hcounter⟩, hfills⟩ := List.forall_mem_cons.mp hid
      rw [ih hfills, t.executionsOf_commit, ← t.incoming_id, ← t.counter_id, if_neg hincoming,
        if_neg hcounter, List.append_nil]

/-- **What a turn executes, it executes for its order and for those who have a share of it.** -/
theorem Floor.Turned.executed (hf : f.Complete scale k) (hk : k ≤ 28)
    (h : f.Turned scale id g) {x : OrderId}
    (hexecuted : g.store.executionsOf x ≠ f.store.executionsOf x) :
    ∃ o ∈ f.store.orders, o.id = id ∧ o.matchable = true ∧
      (∃ fills last, Allotted f.store o (f.queue o) fills g.store last) ∧
      ∃ p ∈ shares o.remainingAmount.units (f.queue o), 0 < p.2 ∧ (x = o.id ∨ x = p.1.id) := by
  cases h with
  | idle hstore =>
      rw [hstore] at hexecuted
      exact absurd rfl hexecuted
  | @met o last fills hfind hmatch hmeets =>
      obtain ⟨ho, hid⟩ := Store.mem_of_find? hfind
      have hallotted := hf.allotted hk (Store.mem_orders_iff.mp ho) hmatch hmeets
      refine ⟨o, ho, hid, hmatch, ⟨fills, last, hallotted⟩, ?_⟩
      have hfill : ∃ fill ∈ fills, x = fill.incoming.id ∨ x = fill.counter.id := by
        by_contra hnone
        push Not at hnone
        exact hexecuted (hmeets.executionsOf hnone)
      obtain ⟨fill, hfill, hx⟩ := hfill
      have hshare := List.mem_map_of_mem
        (f := fun y => (y.incoming.id, y.counter.id, y.price, y.amount.units)) hfill
      rw [hallotted.fills] at hshare
      obtain ⟨p, hp, heq⟩ := List.mem_map.mp hshare
      obtain ⟨hp, hpos⟩ := List.mem_filter.mp hp
      rw [Prod.mk.injEq, Prod.mk.injEq] at heq
      obtain ⟨hincoming, hcounter, -⟩ := heq
      exact ⟨p, hp, of_decide_eq_true hpos, by rwa [hincoming, hcounter]⟩

theorem Floor.Complete.mem_of_share (hf : f.Complete scale k) {o : Order} {amount : Int}
    {p : Order × Int} (hp : p ∈ shares amount (f.queue o)) :
    p.1 ∈ f.store.orders ∧ o.mayMeet p.1 = true := by
  refine hf.mem_queue.mp ?_
  rw [← map_fst_shares amount (f.queue o)]
  exact List.mem_map_of_mem hp

/-- Ahead of an order that gets something, everybody gets all they ask for. -/
theorem Floor.Complete.share_ahead (hf : f.Complete scale k) {o c d : Order} {n : Int}
    (ho : o ∈ f.store.orders) (hc : (c, n) ∈ shares o.remainingAmount.units (f.queue o))
    (hpos : 0 < n) (hd : d ∈ f.store.orders) (hmay : o.mayMeet d = true)
    (hahead : o.side.Ahead d c) :
    (d, d.remainingAmount.units) ∈ shares o.remainingAmount.units (f.queue o) := by
  obtain ⟨m, hm⟩ := exists_share o.remainingAmount.units (hf.mem_queue.mpr ⟨hd, hmay⟩)
  have hsorted : (shares o.remainingAmount.units (f.queue o)).Pairwise
      fun p q => o.side.Ahead p.1 q.1 := by
    refine List.pairwise_map.mp ?_
    rw [map_fst_shares]
    exact Side.queue_sorted (Store.nodup_rivals (hf.orderly.tidy.nodup_waiting _ _))
  have hserved := shares_served o.remainingAmount.units
    (hf.orderly.ready_queue (Store.mem_orders_iff.mp ho)).nonneg
  have hfull : ∀ ⦃p⦄, p ∈ shares o.remainingAmount.units (f.queue o) →
      ∀ ⦃q⦄, q ∈ shares o.remainingAmount.units (f.queue o) →
        o.side.Ahead p.1 q.1 → 0 < q.2 → p.2 = p.1.remainingAmount.units := by
    refine List.Pairwise.forall_of_forall_of_flip (fun p _ hself => absurd hself hself.asymm) ?_ ?_
    · refine hserved.imp ?_
      exact fun hpq _ => hpq
    · exact hsorted.imp fun hpq hqp => absurd hqp hpq.asymm
  have hshare : m = d.remainingAmount.units := hfull hm hc hahead hpos
  exact hshare ▸ hm

/-! ### Turns are fair -/

/-- The turn of an order that is uncrossed executes nothing. -/
theorem Floor.Turned.fair_of_uncrossed (hf : f.Complete scale k) (hk : k ≤ 28)
    (hfg : f.Trading scale g) (h : f.Turned scale id g) (huncrossed : f.Uncrossed id) :
    f.Fair scale g := by
  refine ⟨hfg, fun _ _ p _ _ _ _ hexecuted => ?_⟩
  obtain ⟨o, ho, hid, hmatch, -, s, hs, -, -⟩ := h.executed hf hk hexecuted
  obtain ⟨hc, hmay⟩ := hf.mem_of_share hs
  have hfalse := huncrossed o ho hid hmatch s.1 hc
  rw [hmay] at hfalse
  cases hfalse

/-- **The turn of a buy order is fair** if those that precede it are uncrossed. -/
theorem Floor.Turned.fair (hf : f.Complete scale k) (hk : k ≤ 28) (hfg : f.Trading scale g)
    (h : f.Turned scale id g)
    (hbuy : ∀ x ∈ f.store.orders, x.id = id → x.side = .buy ∧
      ∀ o ∈ f.store.orders, o.side = x.side → o.ticker = x.ticker → o.matchable = true →
        o.Precedes x → f.Uncrossed o.id) : f.Fair scale g := by
  refine ⟨hfg, fun o ho p hp hside hticker hbefore hexecuted q hq hid => ?_⟩
  refine Bool.eq_false_iff.mpr fun hmatch => ?_
  have hmatch' := (hfg.of_id ho hq hid).matchable hmatch
  obtain ⟨x, hx, hxid, -, ⟨fills, last, hallotted⟩, ⟨c, n⟩, hs, hpos, hwho⟩ :=
    h.executed hf hk hexecuted
  obtain ⟨hxbuy, huncrossed⟩ := hbuy x hx hxid
  obtain ⟨hc, hmay⟩ := hf.mem_of_share hs
  rcases hwho with hpid | hpid
  · -- Whoever precedes the order itself could meet whom it meets.
    obtain rfl := Store.eq_of_id_eq hp hx hpid
    have hfalse := huncrossed o ho hside hticker hmatch' hbefore o ho rfl hmatch' c hc
    rw [hbefore.mayMeet hxbuy hside hticker hmay] at hfalse
    cases hfalse
  · -- Whoever precedes an order that is met is met before it and filled.
    obtain rfl := Store.eq_of_id_eq hp hc hpid
    obtain ⟨-, hpside, hpticker, haccepts⟩ := Order.mayMeet_iff.mp hmay
    have hsell : o.side = .sell := by rw [hside, hpside, hxbuy]; rfl
    have hahead := (Order.Precedes.sell_iff hsell).mp hbefore
    have hmeet : x.mayMeet o = true := by
      refine Order.mayMeet_iff.mpr ⟨hmatch', hside.trans hpside, hticker.trans hpticker, ?_⟩
      unfold Order.accepts at haccepts ⊢
      rw [hxbuy] at haccepts ⊢
      exact decide_eq_true (Int.le_trans hahead.price_le (of_decide_eq_true haccepts))
    have hshare := hf.share_ahead hx hs hpos ho hmeet (hxbuy ▸ hahead)
    obtain ⟨c', hfound, hleft, -⟩ := hallotted.counters _ hshare
    rw [← hid, Store.mem_orders_iff.mp hq, Option.some.injEq] at hfound
    have hremaining := (Order.matchable_iff.mp hmatch).2
    rw [hfound] at hremaining
    dsimp only at hleft
    omega

/-! ### The buy orders of a ticker -/

/-- The identifiers are those of the buy orders of a ticker whose turns are still to come. -/
structure Floor.Ranked (f : Floor) (ticker : String) (ids : List OrderId) : Prop where
  filed : ∀ id ∈ ids, ∃ o ∈ f.store.orders, o.id = id ∧ o.side = .buy ∧ o.ticker = ticker
  /-- No order precedes one that comes before it. -/
  sorted : ids.Pairwise fun a b => ∀ o ∈ f.store.orders, ∀ p ∈ f.store.orders,
    o.id = a → p.id = b → ¬ p.Precedes o
  /-- All others that can be matched are uncrossed. -/
  awaited : ∀ o ∈ f.store.orders, o.side = .buy → o.ticker = ticker → o.matchable = true →
    o.id ∈ ids ∨ f.Uncrossed o.id

/-- **The index lists the buy orders of a ticker in the order in which they come first.** -/
theorem Floor.Complete.ranked (hf : f.Complete scale k) (ticker : String) :
    f.Ranked ticker (f.index.waiting .buy ticker) := by
  refine ⟨fun id hid => ?_, ?_, fun o ho hside hticker hmatch => ?_⟩
  · obtain ⟨o, hfind, hside, hticker⟩ := hf.sound.mem_waiting hid
    obtain ⟨ho, hid⟩ := Store.mem_of_find? hfind
    exact ⟨o, ho, hid, hside, hticker⟩
  · rw [WaitingIndex.waiting_eq, List.pairwise_map]
    refine (hf.sound.inOrder .buy ticker).imp_of_mem
      fun {a b} ha hb hlt o ho p hp hoid hpid hbefore => ?_
    -- The keys are those that the orders on record have by their prices.
    have hkey {key : IndexKey} (hmem : key ∈ f.index.keys .buy ticker) {x : Order}
        (hx : x ∈ f.store.orders) (hid : x.id = key.order) :
        x.side = .buy ∧ key.score.units = -x.price.units := by
      obtain ⟨y, hfind, hside, -, hy⟩ := hf.sound.filed .buy ticker key hmem
      rw [← hid, Store.mem_orders_iff.mp hx, Option.some.injEq] at hfind
      subst hfind
      refine ⟨hside, ?_⟩
      rw [hy]
      exact units_neg x.price
    obtain ⟨-, hscore⟩ := hkey ha ho hoid
    obtain ⟨hbuy, hscore'⟩ := hkey hb hp hpid
    have hbefore := (Order.Precedes.buy_iff hbuy).mp hbefore
    have hlt := IndexKey.cmp_lt_iff.mp hlt
    rw [hoid, hpid, Decimal.lt_iff] at hbefore
    rw [Decimal.lt_iff] at hlt
    rcases hlt with hless | ⟨hsame, hless⟩
    · rcases hbefore with hmore | ⟨hsame, -⟩ <;> omega
    · rcases hbefore with hmore | ⟨-, hmore⟩
      · omega
      · exact Int.lt_asymm hless hmore
  · rw [← hside, ← hticker]
    exact Or.inl (hf.listed o ho hmatch)

namespace Floor.Ranked

variable {ids : List OrderId}

theorem withdraws (h : f.Ranked ticker ids) (hfg : f.Withdraws g) : g.Ranked ticker ids := by
  refine ⟨fun id hid => ?_, h.sorted.imp fun hab p hp q hq hpid hqid hbefore => ?_,
    fun p hp hside hticker hmatch => ?_⟩
  · obtain ⟨o, ho, rfl, hside, hticker⟩ := h.filed id hid
    obtain ⟨p, hp, hop⟩ := hfg.later ho
    exact ⟨p, hp, hop.terms.id, hop.terms.side.trans hside, hop.terms.ticker.trans hticker⟩
  · obtain ⟨o, ho, hop⟩ := hfg.earlier hp
    obtain ⟨o', ho', hoq⟩ := hfg.earlier hq
    exact hab o ho o' ho' (hop.terms.id ▸ hpid) (hoq.terms.id ▸ hqid)
      (hbefore.of_terms hoq.terms hop.terms)
  · obtain ⟨o, ho, hop⟩ := hfg.earlier hp
    rw [hop.terms.id]
    exact (h.awaited o ho (hop.terms.side ▸ hside) (hop.terms.ticker ▸ hticker)
      (hop.matchable hmatch)).imp_right hfg.uncrossed

/-- Once the first order is uncrossed, the others are still to come. -/
theorem tail (h : f.Ranked ticker (id :: ids)) (huncrossed : f.Uncrossed id) :
    f.Ranked ticker ids := by
  refine ⟨fun id hid => h.filed id (List.mem_cons_of_mem _ hid),
    (List.pairwise_cons.mp h.sorted).2, fun o ho hside hticker hmatch => ?_⟩
  rcases h.awaited o ho hside hticker hmatch with hin | hdone
  · rcases List.mem_cons.mp hin with hsame | hlater
    · exact Or.inr (hsame ▸ huncrossed)
    · exact Or.inl hlater
  · exact Or.inr hdone

/-- Whoever precedes the first order is uncrossed already. -/
theorem first (h : f.Ranked ticker (id :: ids)) {o x : Order} (hx : x ∈ f.store.orders)
    (hid : x.id = id) (ho : o ∈ f.store.orders) (hside : o.side = x.side)
    (hticker : o.ticker = x.ticker) (hmatch : o.matchable = true) (hbefore : o.Precedes x) :
    f.Uncrossed o.id := by
  obtain ⟨y, hy, hyid, hbuy, hxticker⟩ := h.filed id (by simp)
  obtain rfl := Store.eq_of_id_eq hx hy (hid.trans hyid.symm)
  rcases h.awaited o ho (hside.trans hbuy) (hticker.trans hxticker) hmatch with hin | hdone
  · exfalso
    rcases List.mem_cons.mp hin with hsame | hlater
    · obtain rfl := Store.eq_of_id_eq ho hx (hsame.trans hid.symm)
      rcases (Order.Precedes.buy_iff hbuy).mp hbefore with hself | ⟨-, hself⟩ <;>
        exact Int.lt_irrefl _ hself
    · exact (List.pairwise_cons.mp h.sorted).1 o.id hlater x hx o ho hid rfl hbefore
  · exact hdone

/-- **The turns of the buy orders of a ticker are fair**, one after the other. -/
theorem fair {turns : List OrderTurn} (h : f.Ranked ticker (turns.map (·.order)))
    (hf : f.Complete scale k) (hk : k ≤ 28)
    (hs : f.Series scale (OrderTurn.Taken scale) turns g) (hfine : ∀ t ∈ turns, t.Fine) :
    f.Fair scale g := by
  induction hs with
  | nil hfg => exact hfg.fair
  | @cons f f₁ g₁ g t turns hstill htaken _ ih =>
      obtain ⟨ht, hfine⟩ := List.forall_mem_cons.mp hfine
      have hf₁ := hf.trading hstill.toTrading
      have h₁ := h.withdraws hstill.toWithdraws
      have hturned := htaken.turned ht
      have hturn : f₁.Fair scale g₁ := by
        refine hturned.fair hf₁ hk htaken.toTrading fun x hx hid => ?_
        obtain ⟨y, hy, hyid, hbuy, -⟩ := h₁.filed t.order (by simp)
        obtain rfl := Store.eq_of_id_eq hx hy (hid.trans hyid.symm)
        exact ⟨hbuy, fun o ho => h₁.first hx hid ho⟩
      have hrest := h₁.withdraws htaken.toWithdraws
      have huncrossed := hturned.uncrossed hf₁ hk htaken.toTrading
      have hturns := ih (hrest.tail huncrossed) (hf₁.trading htaken.toTrading) hfine
      exact hstill.fair.trans (hturn.trans hturns)

end Floor.Ranked

/-! ### Sides, tickers and the whole tick -/

/-- A series is fair if each of its parts is. -/
theorem Floor.Series.fair {α : Type} {step : Floor → α → Floor → Prop} {as : List α}
    (hs : f.Series scale step as g) {P : Floor → Prop}
    (hP : ∀ {f g}, f.Trading scale g → P f → P g)
    (hfair : ∀ a ∈ as, ∀ {f g}, P f → step f a g → f.Fair scale g) (hf : P f) :
    f.Fair scale g := by
  induction hs with
  | nil hfg => exact hfg.fair
  | cons hstill h _ ih =>
      obtain ⟨ha, has⟩ := List.forall_mem_cons.mp hfair
      have hf₁ := hP hstill.toTrading hf
      have hpart := ha hf₁ h
      exact hstill.fair.trans (hpart.trans (ih has (hP hpart.toTrading hf₁)))

namespace SidePass.Made

variable {s : SidePass}

/-- Once a side has been gone through, every order on it is uncrossed. -/
theorem uncrossed (h : s.Made scale ticker f g) (hf : f.Complete scale k) (hk : k ≤ 28)
    (hwhole : s.Whole) (hclean : s.Clean) {o : Order} (ho : o ∈ g.store.orders)
    (hside : o.side = s.side) (hticker : o.ticker = ticker) (hmatch : o.matchable = true) :
    g.Uncrossed o.id := by
  obtain ⟨ids, hids⟩ := hclean.listed
  obtain ⟨t, ht, hid⟩ := h.turn_of_matchable hf hwhole hids (.refl scale g) ho hside hticker hmatch
  exact hid ▸ h.uncrossed_of_fine hf hk ht (hclean.fine t ht)

theorem fair_buys (h : s.Made scale ticker f g) (hf : f.Complete scale k) (hk : k ≤ 28)
    (hwhole : s.Whole) (hclean : s.Clean) (hbuy : s.side = .buy) : f.Fair scale g := by
  obtain ⟨ids, hids⟩ := hclean.listed
  have hranked : f.Ranked ticker (s.turns.map (·.order)) := by
    rw [hwhole ids hids, h.listing ids hids, hbuy]
    exact hf.ranked ticker
  exact hranked.fair hf hk h.turns hclean.fine

theorem fair_of_uncrossed (h : s.Made scale ticker f g) (hf : f.Complete scale k) (hk : k ≤ 28)
    (hwhole : s.Whole) (hclean : s.Clean)
    (huncrossed : ∀ id ∈ f.index.waiting s.side ticker, f.Uncrossed id) :
    f.Fair scale g := by
  obtain ⟨ids, hids⟩ := hclean.listed
  rw [← h.listing ids hids, ← hwhole ids hids, List.forall_mem_map] at huncrossed
  refine h.turns.fair (P := fun f => f.Complete scale k ∧ ∀ t ∈ s.turns, f.Uncrossed t.order)
    (fun hfg hf => ⟨hf.1.trading hfg, fun t ht => hfg.uncrossed (hf.2 t ht)⟩)
    (fun t ht f g hf htaken => ?_) ⟨hf, huncrossed⟩
  exact (htaken.turned (hclean.fine t ht)).fair_of_uncrossed hf.1 hk htaken.toTrading (hf.2 t ht)

end SidePass.Made

/-- Where every buy order of a ticker is uncrossed, so is every sell order. -/
theorem Floor.uncrossed_of_buys
    (hbuys : ∀ o ∈ f.store.orders, o.side = .buy → o.ticker = ticker → o.matchable = true →
      f.Uncrossed o.id) {x : Order} (hx : x ∈ f.store.orders) (hside : x.side = .sell)
    (hticker : x.ticker = ticker) : f.Uncrossed x.id := by
  intro y hy hid hmatch c hc
  obtain rfl := Store.eq_of_id_eq hy hx hid
  cases hmay : y.mayMeet c with
  | false => rfl
  | true =>
      -- Whom a sell order may meet is a buy order, and may meet it.
      obtain ⟨hcmatch, hcside, hcticker, -⟩ := Order.mayMeet_iff.mp hmay
      have hcbuy : c.side = .buy := by rw [hcside, hside]; rfl
      have hfalse := hbuys c hc hcbuy (hcticker.trans hticker) hcmatch c hc rfl hcmatch y hy
      rw [Order.mayMeet_symm hmatch hmay] at hfalse
      cases hfalse

/-- **Going through a ticker is fair**, buys before sells. -/
theorem TickerPass.Made.fair {p : TickerPass} (h : p.Made scale f g) (hf : f.Complete scale k)
    (hk : k ≤ 28) {r : TickReport} (htells : p.Tells r) (hclean : ∀ s ∈ p.sides, s.Clean) :
    f.Fair scale g := by
  obtain ⟨buys, rest, hsides, hbuy, hrest⟩ := List.map_eq_cons_iff.mp htells.sides
  obtain ⟨sells, rest', rfl, hsell, hnil⟩ := List.map_eq_cons_iff.mp hrest
  obtain rfl := List.map_eq_nil_iff.mp hnil
  have hwhole := htells.whole
  rw [hsides, List.forall_mem_cons, List.forall_mem_singleton] at hwhole hclean
  obtain ⟨hbuysWhole, hsellsWhole⟩ := hwhole
  obtain ⟨hbuysClean, hsellsClean⟩ := hclean
  unfold TickerPass.Made at h
  rw [hsides] at h
  obtain _ | ⟨hstill₁, hbuys, _ | ⟨hstill₂, hsells, hstill₃ | _⟩⟩ := h
  have hf₁ := hf.trading hstill₁.toTrading
  have hf₂ := (hf₁.trading hbuys.trading).trading hstill₂.toTrading
  have hfirst := hbuys.fair_buys hf₁ hk hbuysWhole hbuysClean hbuy
  have hsecond := by
    refine hsells.fair_of_uncrossed hf₂ hk hsellsWhole hsellsClean fun id hid => ?_
    obtain ⟨x, hfind, hside, hticker⟩ := hf₂.sound.mem_waiting hid
    obtain ⟨hx, rfl⟩ := Store.mem_of_find? hfind
    refine Floor.uncrossed_of_buys (fun o ho hside hticker hmatch => ?_) hx (hside.trans hsell)
      hticker
    rw [hstill₂.store] at ho
    exact hstill₂.uncrossed (hbuys.uncrossed hf₁ hk hbuysWhole hbuysClean ho
      (hside.trans hbuy.symm) hticker hmatch)
  exact (hstill₁.fair.trans hfirst).trans ((hstill₂.fair.trans hsecond).trans hstill₃.fair)

theorem Floor.Ticked.fair {passes : List TickerPass} {report : TickReport}
    (h : f.Ticked scale passes g) (hf : f.Complete scale k) (hk : k ≤ 28)
    (htold : report.ToldBy passes) (horders : report.ordersFailed = 0)
    (htickers : report.tickersFailed = 0) : f.Fair scale g := by
  refine h.passes.fair (P := Floor.Complete scale k) (fun hfg hf => hf.trading hfg)
    (fun p hp f g hf hmade => ?_) hf
  obtain ⟨⟨r, hr⟩, hclean⟩ := htold.clean horders htickers p hp
  exact hmade.fair hf hk (htold.tells p hp r hr) hclean

/--
**In a tick that goes well nobody is passed over.**  A tick begins on a floor on which
whatever can be matched is listed, with amounts on a grid, and is completed without a
failed order or ticker.  If anything was executed for an order, then every order that
precedes it and could be matched at the beginning is filled at the end.
-/
theorem Floor.Seen.precedence {report : TickReport} (hseen : f.Seen scale) (hk : k ≤ 28)
    (hgrid : ∀ o ∈ f.store.orders, OnGrid k o.amount.units)
    (hlisted : ∀ o ∈ f.store.orders, o.matchable = true →
      o.id ∈ f.index.waiting o.side o.ticker)
    (hlead : f.Leads (tick scale) (.done (.completed report)) g)
    (horders : report.ordersFailed = 0) (htickers : report.tickersFailed = 0) {o p : Order}
    (ho : o ∈ f.store.orders) (hp : p ∈ f.store.orders) (hside : o.side = p.side)
    (hticker : o.ticker = p.ticker) (hmatch : o.matchable = true) (hbefore : o.Precedes p)
    (hexecuted : g.store.executionsOf p.id ≠ f.store.executionsOf p.id) :
    ∃ q, g.store.find? o.id = some q ∧ q.status = .filled := by
  have hf : f.Complete scale k := ⟨hseen.orderly, hseen.sound, hlisted, hgrid⟩
  obtain ⟨passes, hnoted⟩ := Floor.Leads.noted scale (r := .ok _) hlead
  obtain ⟨f', hstill, hf', hticked⟩ := hf.ticked hnoted
  have hfair : f.Fair scale g := hstill.fair.trans (hticked.fair hf' hk
    ((noteTick_returns scale).of_leads hnoted report rfl) horders htickers)
  obtain ⟨q, hq, hoq⟩ := hfair.later ho
  refine ⟨q, hoq.terms.id ▸ Store.mem_orders_iff.mp hq, ?_⟩
  have hdone := hfair.preceding o ho p hp hside hticker hbefore hexecuted q hq hoq.terms.id
  have hlive : q.status ≠ .cancelled := fun hcancelled =>
    Order.ne_cancelled_of_matchable hmatch (hfair.uncancelled o.id o q
      (Store.mem_orders_iff.mp ho) (hoq.terms.id ▸ Store.mem_orders_iff.mp hq) hcancelled)
  have hg := hf.trading hfair.toTrading
  exact ((hg.orderly.history.conserves hk (List.forall_mem_map.mpr hg.grid)) q hq).1
    |>.filled_of_not_matchable hlive hdone

/-- Two buy orders and two sell orders; of each two the later one has the better price. -/
def Floor.outbid : Floor :=
  session 2 .epoch [.order .buy (.ofDigits 2 0) (.ofDigits 1 0),
    .order .buy (.ofDigits 3 0) (.ofDigits 1 0), .order .sell (.ofDigits 2 0) (.ofDigits 7 1),
    .order .sell (.ofDigits 1 0) (.ofDigits 8 1)]

theorem Floor.precedence_outbid :
    outbid.Seen 2 ∧ (∀ o ∈ outbid.store.orders, OnGrid 1 o.amount.units) ∧
      (∀ o ∈ outbid.store.orders, o.matchable = true →
        o.id ∈ outbid.index.waiting o.side o.ticker) ∧
      ∃ report g, outbid.Leads (tick 2) (.done (.completed report)) g ∧
        report.ordersFailed = 0 ∧ report.tickersFailed = 0 ∧
        ∃ o ∈ outbid.store.orders, ∃ p ∈ outbid.store.orders, o.side = p.side ∧
          o.ticker = p.ticker ∧ o.matchable = true ∧ o.Precedes p ∧
          g.store.executionsOf p.id ≠ outbid.store.executionsOf p.id ∧
          ∃ q, g.store.find? o.id = some q ∧ q.status = .filled := by
  have hseen : outbid.Seen 2 := (reached_session _ _ _).seen
  have hgrid : ∀ o ∈ outbid.store.orders, OnGrid 1 o.amount.units :=
    Store.onGrid_of_places (by decide) (by decide +kernel)
  have hlisted : ∀ o ∈ outbid.store.orders, o.matchable = true →
      o.id ∈ outbid.index.waiting o.side o.ticker := by decide +kernel
  have hlead := outbid.leads_perform .epoch (tick 2)
  have houtcome : (outbid.perform .epoch (tick 2)).1.toOption =
      some (.completed ⟨1, 0, 2, 0, 3, .ofDigits 15 1⟩) := by decide +kernel
  obtain ⟨o, ho, p, hp, hside, hsell, hticker, hmatch, hprice, hexecuted⟩ :
      ∃ o ∈ outbid.store.orders, ∃ p ∈ outbid.store.orders, o.side = p.side ∧ o.side = .sell ∧
        o.ticker = p.ticker ∧ o.matchable = true ∧ o.price < p.price ∧
        (outbid.perform .epoch (tick 2)).2.store.executionsOf p.id ≠
          outbid.store.executionsOf p.id := by decide +kernel
  have hbefore : o.Precedes p := (Order.Precedes.sell_iff hsell).mpr (Or.inl hprice)
  cases hresult : (outbid.perform .epoch (tick 2)).1 with
  | error e =>
      rw [hresult] at houtcome
      cases houtcome
  | ok outcome =>
      rw [hresult] at houtcome hlead
      obtain rfl : outcome = _ := Option.some.inj houtcome
      exact ⟨hseen, hgrid, hlisted, _, _, hlead, rfl, rfl, o, ho, p, hp, hside, hticker, hmatch,
        hbefore, hexecuted, Floor.Seen.precedence hseen (by decide) hgrid hlisted hlead rfl rfl ho
          hp hside hticker hmatch hbefore hexecuted⟩

end Bourse
