/-
Whose limit is the price.

A fill trades at the limit of the order that is met, and which of the two that is depends
on whose turn it is and not on their age.  Buy orders have their turns first, and a turn
that ends well leaves its order uncrossed.  Nothing is filled of an order that is
uncrossed, so a sell order that meets a buy order in its own turn meets one whose turn has
failed.  On a grid, then, it is the seller who sets the price of a tick that goes well,
even if he came last.

Every fill is between two orders that could meet when the tick began, for nothing but
trades happens on the way (`Offers`).  Where in the tick it was committed is told by the
order whose turn it was (`Commits`), and the notes of the tick tell how the turns of the
others have ended.
-/
import Bourse.Proofs.Demand
import Bourse.Proofs.Mirror
import Bourse.Proofs.Tally
import Bourse.Proofs.Uncrossed

namespace Bourse

open Bourse.Action Decimal

variable {scale k : Nat} {f g h : Floor} {ticker : String} {id : OrderId}

/-! ### The two orders of a fill -/

namespace FillCommit

/-- The fill is one of two orders that may meet, at the limit of the second one. -/
structure Joins (fill : FillCommit) (o c : Order) : Prop where
  incoming : o.SameTerms fill.incoming
  counter : c.SameTerms fill.counter
  matchable : o.matchable = true
  mayMeet : o.mayMeet c = true
  price : fill.price = c.price

end FillCommit

namespace Floor

/-- The two orders of the fill are on record and may meet. -/
def Offers (f : Floor) (fill : FillCommit) : Prop :=
  ∃ o ∈ f.store.orders, ∃ c ∈ f.store.orders, fill.Joins o c

/--
**What a commit takes was on offer** as long as there was nothing but trades, and the price
is the limit of the order that is met.
-/
theorem Trading.offers {fill : FillCommit} {receipt : FillReceipt} (hf : f.Orderly scale)
    (hfg : f.Trading scale g) (hmay : g.May (.store (.commit fill)) (.ok (.committed receipt)))
    (hafter : f.Trading scale (g.after (.store (.commit fill)) (.ok (.committed receipt)))) :
    f.Offers fill := by
  obtain ⟨o, c, takes⟩ := (g.store.commit_cases fill).resolve_right
    fun hturned => hturned.2 receipt (Eq.symm hmay)
  have hpaired := takes.paired (hfg.orderly hf).history.ledger_kept
    (hafter.orderly hf).history.ledger_kept
  obtain ⟨hincoming, hcounter⟩ := takes.find?_filled hpaired.order_ne
  -- What the order was at first of which there is one version before and one after the fill.
  have hfirst {x y : Order} (hx : g.store.find? y.id = some x)
      (hy : (g.store.commit fill).2.find? y.id = some y) :
      ∃ z ∈ f.store.orders, z.Becomes x ∧ z.SameTerms y := by
    obtain ⟨hmem, hid⟩ := Store.mem_of_find? hx
    obtain ⟨z, hz, hzx⟩ := hfg.earlier hmem
    obtain ⟨w, hw, hzw⟩ := hafter.orders z.id z (Store.mem_orders_iff.mp hz)
    rw [← hzx.terms.id, hid] at hw
    obtain rfl : y = w := Option.some.inj (hy.symm.trans hw)
    exact ⟨z, hz, hzx, hzw.terms⟩
  obtain ⟨p, hp, hpo, hpterms⟩ := hfirst takes.incomingFound hincoming
  obtain ⟨d, hd, hdc, hdterms⟩ := hfirst takes.counterFound hcounter
  obtain ⟨hside, hticker, hlimit, -⟩ :=
    (takes.suits hpaired).of_terms hpterms.symm hdterms.symm
  obtain ⟨_, -, q, hq, -, hqid, hprice, -⟩ := hpaired.orders
  obtain rfl := Store.eq_of_id_eq hq (Store.mem_of_find? hcounter).1 hqid
  refine ⟨p, hp, d, hd, hpterms, hdterms, hpo.matchable takes.matchable, ?_,
    hprice.trans hdterms.price⟩
  refine Order.mayMeet_iff.mpr ⟨hdc.matchable takes.counterMatchable, hside, hticker, ?_⟩
  unfold Order.accepts
  cases hpside : p.side with
  | buy => exact decide_eq_true (hlimit.buys hpside)
  | sell => exact decide_eq_true (hlimit.sells hpside)

/-! ### The fills on the way from one floor to another -/

/-- On the way only such fills were committed. -/
structure Commits (f : Floor) (P : FillCommit → Prop) (g : Floor) : Prop where
  log : f.log <+: g.log
  fills : ∀ fill ∈ f.fillsSince g, P fill

namespace Commits

variable {P Q : FillCommit → Prop}

theorem refl (f : Floor) (P : FillCommit → Prop) : f.Commits P f := by
  refine ⟨List.prefix_refl _, ?_⟩
  rw [fillsSince, since_self]
  exact List.forall_mem_nil _

theorem trans (hfg : f.Commits P g) (hgh : g.Commits P h) : f.Commits P h := by
  refine ⟨hfg.log.trans hgh.log, ?_⟩
  rw [fillsSince_trans hfg.log hgh.log]
  exact List.forall_mem_append.mpr ⟨hfg.fills, hgh.fills⟩

theorem mono (hfg : f.Commits P g) (himp : ∀ fill, P fill → Q fill) : f.Commits Q g :=
  ⟨hfg.log, fun fill hfill => himp fill (hfg.fills fill hfill)⟩

theorem after {c : Call} {a : c.Answer}
    (h : ∀ fill, Answered.fill? ⟨c, a⟩ = some fill → P fill) : f.Commits P (f.after c a) := by
  refine ⟨f.log_after c a, fun fill hfill => h fill ?_⟩
  rw [fillsSince_after] at hfill
  exact Option.mem_toList.mp hfill

end Commits

/-- **While there is nothing but trades, every fill was on offer from the beginning.** -/
theorem commits_offers {α : Type} {work : Action α} {goal : Except Failure α → Floor → Prop}
    (hwork : work.Ensures (f.Trading scale) goal f) (hf : f.Orderly scale) :
    work.Ensures (f.Commits f.Offers) (fun _ _ => True) f := by
  suffices ∀ g, f.Trading scale g → f.Commits f.Offers g →
      work.Ensures (f.Trading scale) goal g →
        work.Ensures (f.Commits f.Offers) (fun _ _ => True) g from
    this f (.refl scale f) (.refl f _) hwork
  clear hwork
  induction work with
  | done a => exact fun _ _ _ _ => trivial
  | fail e => exact fun _ _ _ _ => trivial
  | call c rest ih =>
      intro g hfg hcommits hwork a hmay
      obtain ⟨hafter, hrest⟩ := hwork a hmay
      have hcall : g.Commits f.Offers (g.after c a) := by
        refine .after fun fill hfill => ?_
        obtain ⟨receipt, heq⟩ := Answered.eq_of_fill? hfill
        cases heq
        exact hfg.offers hf hmay hafter
      exact ⟨hcommits.trans hcall, ih a _ hafter (hcommits.trans hcall) hrest⟩

end Floor

/-! ### Whose turn a fill was committed in -/

namespace Action

variable {α β : Type} {P Q : FillCommit → Prop} {work : Action α}

/-- The work commits only such fills. -/
def Commits (P : FillCommit → Prop) (work : Action α) (f : Floor) : Prop :=
  work.Ensures (f.Commits P) (fun _ _ => True) f

theorem Commits.mono (h : work.Commits P f) (himp : ∀ fill, P fill → Q fill) :
    work.Commits Q f :=
  Ensures.weaken h fun _ hfg => hfg.mono himp

theorem Commits.bind {next : α → Action β} (h : work.Commits P f)
    (hnext : ∀ a g, (next a).Commits P g) : (work >>= next).Commits P f :=
  Ensures.bind h (.refl f P) (fun a g hfg _ => (hnext a g).weaken fun _ hgh => hfg.trans hgh)
    fun _ _ _ _ => trivial

theorem Commits.attempt (h : work.Commits P f) : work.attempt.Commits P f := Ensures.attempt h

theorem commits_call {c : Call} {rest : c.Answer → Action α}
    (hfill : ∀ a fill, Answered.fill? ⟨c, a⟩ = some fill → P fill)
    (h : ∀ a, f.May c a → (rest a).Commits P (f.after c a)) : (call c rest).Commits P f := by
  intro a hmay
  have hcall : f.Commits P (f.after c a) := .after (hfill a)
  exact ⟨hcall, (h a hmay).weaken fun _ hrest => hcall.trans hrest⟩

theorem commits_quiet {c : Call} (hc : c.quiet = true) {rest : c.Answer → Action α}
    (h : ∀ a, f.May c a → (rest a).Commits P (f.after c a)) : (call c rest).Commits P f := by
  refine commits_call (fun a fill hfill => ?_) h
  rw [c.fill?_of_quiet hc a] at hfill
  cases hfill

theorem Quiet.commits {goal : α → Prop} (h : work.Quiet goal) : work.Commits P f := by
  induction work generalizing f with
  | done a => trivial
  | fail e => trivial
  | call c rest ih => exact commits_quiet h.1 fun a _ => ih a (h.2 a)

end Action

variable (scale)

/-- A walk fills the order that it began with. -/
theorem walk_commits (ticker : String) (counters : List Order) (o : Order) (f : Floor) :
    (walk scale ticker counters o).Commits (fun fill => fill.incoming.id = o.id) f := by
  induction counters generalizing o f with
  | nil => trivial
  | cons c cs ih =>
      unfold walk
      split
      · trivial
      · refine commits_quiet rfl fun time _ => ?_
        show (ofExcept (o.fillWith c scale time) >>= _).Commits _ _
        cases hfill : o.fillWith c scale time with
        | error e => trivial
        | ok fill =>
            have hid : fill.incoming.id = o.id :=
              (Order.fill_ok (Order.fillWith_ok hfill).incomingFill).terms.id
            refine commits_call (fun a fill' hcommitted => ?_) fun a _ => ?_
            · obtain ⟨receipt, heq⟩ := Answered.eq_of_fill? hcommitted
              cases heq
              exact hid
            · cases a with
              | error e => trivial
              | ok outcome =>
                  cases outcome with
                  | committed receipt =>
                      refine (fill.quiet_settle ticker).commits.bind fun _ g => ?_
                      exact (hid ▸ ih fill.incoming g).bind fun _ _ => trivial
                  | counterUnavailable => exact ih o _
                  | incomingUnavailable => trivial

theorem Order.quiet_candidates (o : Order) : o.candidates.Quiet fun _ => True := by
  unfold candidates
  refine (quiet_index _).bind fun ids _ => ?_
  dsimp only
  split
  · trivial
  · have hload : (store (.loadMany ids)).Quiet fun _ => True :=
      ⟨rfl, fun a => by cases a <;> trivial⟩
    exact hload.bind fun loaded _ => (o.quiet_nominated loaded ids).bind fun _ _ => trivial

/-- **A turn fills the order whose turn it is.** -/
theorem processOrder_commits (id : OrderId) (ticker : String) (f : Floor) :
    (processOrder scale id ticker).Commits (fun fill => fill.incoming.id = id) f := by
  unfold processOrder
  refine commits_quiet rfl fun found hmay => ?_
  cases found with
  | error e => trivial
  | ok found =>
      cases found with
      | none => trivial
      | some o =>
          obtain ⟨-, rfl⟩ := Store.mem_of_find? (Eq.symm hmay)
          show (if _ then _ else _ : Action MatchReport).Commits _ _
          split
          · trivial
          · split
            · exact (quiet_index _).commits.bind fun _ _ => trivial
            · refine o.quiet_candidates.commits.bind fun a g => ?_
              refine (walk_commits scale ticker a.1 o g).bind fun b h => ?_
              exact (b.1.quiet_dropFilled ticker).commits.bind fun _ _ => trivial

theorem noteOrders_commits (ticker : String) (ids : List OrderId) (r : TickReport) (f : Floor) :
    (noteOrders scale ticker ids r).Commits (fun fill => fill.incoming.id ∈ ids) f := by
  induction ids generalizing r f with
  | nil => trivial
  | cons id ids ih =>
      have hrest (r : TickReport) (g : Floor) : (noteOrders scale ticker ids r).Commits
          (fun fill => fill.incoming.id ∈ id :: ids) g :=
        (ih r g).mono fun _ => List.mem_cons_of_mem id
      unfold noteOrders
      refine commits_quiet rfl fun _ _ => ?_
      show ((processOrder scale id ticker).attempt >>= _).Commits _ _
      refine ((processOrder_commits scale id ticker _).attempt.mono fun fill hid => ?_).bind
        fun turn g => ?_
      · rw [hid]
        exact List.mem_cons_self
      · cases turn with
        | ok report =>
            dsimp only
            split
            · exact (hrest _ g).bind fun _ _ => trivial
            · trivial
        | error failure =>
            cases failure with
            | error e => exact commits_quiet rfl fun _ _ => (hrest _ _).bind fun _ _ => trivial
            | overflow o => trivial

/-- What is filled on one side of a ticker are the orders that were listed there. -/
theorem noteSide_commits (ticker : String) (side : Side) (r : TickReport) (f : Floor) :
    (noteSide scale ticker side r).Commits
      (fun fill => fill.incoming.id ∈ f.index.waiting side ticker) f := by
  unfold noteSide
  refine commits_quiet rfl fun ids hmay => ?_
  cases ids with
  | error e => trivial
  | ok ids =>
      obtain rfl : ids = f.index.waiting side ticker := hmay
      exact (noteOrders_commits scale ticker _ r _).bind fun _ _ => trivial

/-! ### Who sets the price -/

variable {scale}

/-- The buy orders could not be listed, or the turn of the order among them has failed. -/
def TickerPass.Skips (p : TickerPass) (id : OrderId) : Prop :=
  ∃ s ∈ p.sides, s.side = .buy ∧ ((∃ e, s.listing = .error e) ∨
    ∃ t ∈ s.turns, t.order = id ∧ ∃ e, t.outcome = .error e)

/-- The seller has set the price, or it was a buyer who was skipped in the pass of his ticker. -/
def FillCommit.Asked (passes : List TickerPass) (fill : FillCommit) : Prop :=
  fill.counter.side = .sell ∨
    ∃ p ∈ passes, p.ticker = fill.counter.ticker ∧ p.Skips fill.counter.id

theorem FillCommit.Asked.mono {passes more : List TickerPass} {fill : FillCommit}
    (h : fill.Asked passes) (hsub : passes ⊆ more) : fill.Asked more :=
  h.imp_right fun ⟨p, hp, hskips⟩ => ⟨p, hsub hp, hskips⟩

namespace Floor

/-- How one side is gone through, and which fills are committed on the way. -/
theorem Complete.side (hf : f.Complete scale k) {side : Side} {r : TickReport}
    {n : SidePass × Except Failure TickReport}
    (hlead : f.Leads (noteSide scale ticker side r) (.done n) g) :
    n.1.side = side ∧ n.1.Made scale ticker f g ∧
      f.Commits (fun fill => f.Offers fill ∧ fill.incoming.id ∈ f.index.waiting side ticker) g ∧
        ∀ r', n.2 = .ok r' → n.1.Whole := by
  have hserially : (noteSide scale ticker side r).Serially scale _ f :=
    noteSide_serially hf.orderly hf.sound side r
  obtain ⟨htrading, hmade⟩ := hserially.of_leads hlead (.refl scale f)
  obtain ⟨hoffers, -⟩ := (commits_offers hserially hf.orderly).of_leads hlead (.refl f _)
  obtain ⟨hlisted, -⟩ := (noteSide_commits scale ticker side r f).of_leads hlead (.refl f _)
  obtain ⟨hside, htells⟩ := (noteSide_returns scale ticker side r).of_leads hlead
  exact ⟨hside, hmade n rfl, ⟨hoffers.log, fun fill hfill =>
    ⟨hoffers.fills fill hfill, hlisted.fills fill hfill⟩⟩, fun r' hr => (htells r' hr).whole⟩

/-- The order that is filled in a turn of its own is on that side and of that ticker. -/
theorem Complete.listed_joins (hf : f.Complete scale k) {side : Side} {fill : FillCommit}
    {o c : Order} (ho : o ∈ f.store.orders) (hjoins : fill.Joins o c)
    (hlisted : fill.incoming.id ∈ f.index.waiting side ticker) :
    o.side = side ∧ o.ticker = ticker := by
  obtain ⟨p, hfind, hside, hticker⟩ := hf.sound.mem_waiting hlisted
  rw [hjoins.incoming.id, Store.mem_orders_iff.mp ho, Option.some.injEq] at hfind
  exact hfind ▸ ⟨hside, hticker⟩

/--
**In a ticker's pass the seller sets the price, or the buyer was skipped.**  What is filled
of a buy order in the turn of a sell order could still be matched when the buy orders were
through, and that is not so of an order whose turn has ended well.
-/
theorem Complete.pass_asked (hf : f.Complete scale k) (hk : k ≤ 28) {p : TickerPass}
    (hlead : f.Leads (noteTicker scale ticker) (.done p) g) :
    f.Commits (FillCommit.Asked [p]) g := by
  unfold noteTicker at hlead
  obtain ⟨⟨buys, outcome⟩, m, hbuys, hlead⟩ := hlead.of_bind_done
  obtain ⟨hbuy, hmade, hcommits, hwhole⟩ := hf.side hbuys
  have hfirst {p : TickerPass} : f.Commits (FillCommit.Asked [p]) m := by
    refine hcommits.mono fun fill hfill => Or.inl ?_
    obtain ⟨⟨o, ho, c, -, hjoins⟩, hlisted⟩ := hfill
    obtain ⟨hside, -⟩ := hf.listed_joins ho hjoins hlisted
    obtain ⟨-, hcside, -, -⟩ := Order.mayMeet_iff.mp hjoins.mayMeet
    rw [hjoins.counter.side, hcside, hside]
    rfl
  cases outcome with
  | error e =>
      cases hlead
      exact hfirst
  | ok r =>
      obtain ⟨⟨sells, outcome⟩, w, hsells, hlead⟩ := Leads.of_bind_done hlead
      cases hlead
      have hm := hf.trading hmade.trading
      obtain ⟨-, -, hcommits', -⟩ := hm.side hsells
      refine hfirst.trans (hcommits'.mono fun fill hfill => ?_)
      obtain ⟨⟨o, ho, c, hc, hjoins⟩, hlisted⟩ := hfill
      obtain ⟨hside, hticker⟩ := hm.listed_joins ho hjoins hlisted
      obtain ⟨hmatch, hcside, hcticker, -⟩ := Order.mayMeet_iff.mp hjoins.mayMeet
      rw [hside] at hcside
      have hpass : ticker = fill.counter.ticker :=
        hjoins.counter.ticker.trans (hcticker.trans hticker) |>.symm
      refine Or.inr ⟨_, List.mem_singleton_self _, hpass, buys, by simp, hbuy, ?_⟩
      cases hlisting : buys.listing with
      | error e => exact Or.inl ⟨e, rfl⟩
      | ok ids =>
          obtain ⟨t, ht, hid⟩ := hmade.turn_of_matchable hf (hwhole r rfl) hlisting
            (.refl scale m) hc (hcside.trans hbuy.symm) (hcticker.trans hticker) hmatch
          refine Or.inr ⟨t, ht, hid.trans hjoins.counter.id.symm, ?_⟩
          cases houtcome : t.outcome with
          | error e => exact ⟨e, rfl⟩
          | ok report =>
              have hfalse := hmade.uncrossed_of_fine hf hk ht ⟨report, houtcome⟩ c hc hid.symm
                hmatch o ho
              rw [Order.mayMeet_symm hjoins.matchable hjoins.mayMeet] at hfalse
              cases hfalse

theorem Complete.passes_asked (hf : f.Complete scale k) (hk : k ≤ 28) {tickers : List String}
    {passes : List TickerPass} (hlead : f.Leads (noteTickers scale tickers) (.done passes) g) :
    f.Commits (FillCommit.Asked passes) g := by
  induction tickers generalizing f passes with
  | nil =>
      cases hlead
      exact .refl _ _
  | cons ticker tickers ih =>
      unfold noteTickers at hlead
      obtain ⟨p, m, hpass, hlead⟩ := hlead.of_bind_done
      obtain ⟨rest, w, hpasses, hlead⟩ := hlead.of_bind_done
      cases hlead
      obtain ⟨htrading, -⟩ :=
        (noteTicker_serially hf.orderly hf.sound ticker).of_leads hpass (.refl scale f)
      refine .trans ((hf.pass_asked hk hpass).mono fun fill hfill => ?_)
        ((ih (hf.trading htrading) hpasses).mono fun fill hfill => ?_)
      · exact hfill.mono (by simp)
      · exact hfill.mono (by simp)

/-- What comes after a call that does not write commits the same fills as with it. -/
theorem Commits.of_quiet {α : Type} {c : Call} {rest : c.Answer → Action α} {a : α}
    {P : FillCommit → Prop} (hc : c.quiet = true) (hlead : f.Leads (.call c rest) (.done a) g)
    (h : ∀ b, (f.after c b).Leads (rest b) (.done a) g → (f.after c b).Commits P g) :
    f.Commits P g := by
  obtain ⟨b, -, hlead⟩ := Leads.of_call (r := .ok a) hlead
  refine .trans (.after fun fill hfill => ?_) (h b hlead)
  rw [c.fill?_of_quiet hc b] at hfill
  cases hfill

/-- A last call that does not write commits nothing. -/
theorem Commits.of_last {α : Type} {c : Call} {a b : α} {P : FillCommit → Prop}
    (hc : c.quiet = true) (hlead : f.Leads (.call c fun _ => .done b) (.done a) g) :
    f.Commits P g := by
  refine .of_quiet hc hlead fun _ hlead => ?_
  cases hlead
  exact .refl _ _

theorem Complete.still {c : Call} (hf : f.Complete scale k) (hc : c.still = true)
    (a : c.Answer) : (f.after c a).Complete scale k := by
  have hstill : f.Still scale (f.after c a) := .of_still hc a
  exact hf.trading hstill.toTrading

theorem Complete.all_asked (hf : f.Complete scale k) (hk : k ≤ 28)
    {n : List TickerPass × Except Failure TickOutcome}
    (hlead : f.Leads (notePass scale) (.done n) g) : f.Commits (FillCommit.Asked n.1) g := by
  unfold notePass at hlead
  refine .of_quiet rfl hlead fun tickers hlead => ?_
  cases tickers with
  | error e => exact .of_last rfl hlead
  | ok tickers =>
      have hlead : Leads (noteTickers scale tickers >>= _) _ _ _ := hlead
      obtain ⟨passes, m, hpasses, hlead⟩ := hlead.of_bind_done
      have hasked := (hf.still (c := .index .tickers) rfl _).passes_asked hk hpasses
      cases htotal : TickerPass.total passes with
      | none =>
          rw [htotal] at hlead
          cases hlead
          exact hasked
      | some report =>
          rw [htotal] at hlead
          obtain ⟨_, -, hend⟩ := Leads.of_call (r := .ok n) hlead
          cases hend
          exact hasked.trans (.of_last rfl hlead)

/-- **In a tick the seller sets the price, or the buyer was skipped**, whatever calls fail. -/
theorem Complete.tick_asked (hf : f.Complete scale k) (hk : k ≤ 28)
    {n : List TickerPass × Except Failure TickOutcome}
    (hlead : f.Leads (noteTick scale) (.done n) g) : f.Commits (FillCommit.Asked n.1) g := by
  unfold noteTick at hlead
  refine .of_quiet rfl hlead fun time hlead => .of_quiet rfl hlead fun isOpen hlead => ?_
  cases isOpen with
  | false => exact .of_last rfl hlead
  | true =>
      refine .of_quiet rfl hlead fun begun hlead => ?_
      cases begun with
      | false => exact .of_last rfl hlead
      | true =>
          have hlead : Leads (notePass scale >>= _) _ _ _ := hlead
          obtain ⟨n', m, hpass, hlead⟩ := hlead.of_bind_done
          have hf' := ((hf.still (c := .now) rfl time).still (c := .marketOpen time) rfl
            true).still (c := .beginTick) rfl true
          obtain ⟨_, -, hend⟩ := Leads.of_call (r := .ok n) hlead
          cases hend
          exact (hf'.all_asked hk hpass).trans (.of_last rfl hlead)

end Floor

/-- Where nothing has failed, nobody was skipped. -/
theorem FillCommit.Asked.of_clean {passes : List TickerPass} {fill : FillCommit}
    (h : fill.Asked passes)
    (hclean : ∀ p ∈ passes, (∃ r, p.outcome = .ok r) ∧ ∀ s ∈ p.sides, s.Clean) :
    fill.counter.side = .sell := by
  refine h.resolve_right ?_
  rintro ⟨p, hp, -, s, hs, -, hcause⟩
  have hside := (hclean p hp).2 s hs
  rcases hcause with ⟨e, he⟩ | ⟨t, ht, -, e, he⟩
  · obtain ⟨ids, hids⟩ := hside.listed
    cases hids.symm.trans he
  · obtain ⟨report, hreport⟩ := hside.fine t ht
    cases hreport.symm.trans he

/-! ### The price and the age of the orders -/

/-- The one of two orders that was submitted first. -/
def Order.earlier (o c : Order) : Order := if o.id < c.id then o else c

/-- The price is the limit of the earlier order if that one was met, or by coincidence. -/
theorem FillCommit.Joins.earlier_iff {fill : FillCommit} {o c : Order} (h : fill.Joins o c)
    (hne : o.id ≠ c.id) : fill.price.units = (o.earlier c).price.units ↔
      c.id < o.id ∨ o.price.units = c.price.units := by
  unfold Order.earlier
  rw [h.price]
  by_cases hlt : o.id < c.id
  · have hnlt : ¬ c.id < o.id := Int.lt_asymm hlt
    rw [if_pos hlt]
    constructor
    · exact fun hsame => Or.inr hsame.symm
    · exact fun hor => (hor.resolve_left hnlt).symm
  · rw [if_neg hlt]
    have hgt : c.id < o.id := lt_of_le_of_ne (Int.not_lt.mp hlt) hne.symm
    exact ⟨fun _ => Or.inl hgt, fun _ => rfl⟩

/-- Whom an order may meet is somebody else. -/
theorem Floor.id_ne_of_mayMeet {o c : Order} (ho : o ∈ f.store.orders) (hc : c ∈ f.store.orders)
    (hmay : o.mayMeet c = true) : o.id ≠ c.id := by
  intro hid
  obtain rfl := Store.eq_of_id_eq ho hc hid
  obtain ⟨-, hside, -, -⟩ := Order.mayMeet_iff.mp hmay
  exact Side.opposite_ne _ hside.symm

/-- While the store has not failed, what can be matched is listed. -/
theorem Floor.Reached.complete (h : f.Reached scale)
    (hgrid : ∀ o ∈ f.store.orders, OnGrid k o.amount.units)
    (hstored : ∀ e ∈ f.log, e.unstored = false) : f.Complete scale k := by
  refine ⟨h.orderly, h.sound, fun o ho hmatch => ?_, hgrid⟩
  obtain ⟨p, hfind, hlisted⟩ := h.covers hstored o ho
  rw [Store.mem_orders_iff.mp ho, Option.some.injEq] at hfind
  subst hfind
  exact hlisted hmatch

/-- A tick does nothing but trade, and leaves all in order. -/
theorem tick_trading (hf : f.Orderly scale) (hsound : f.Sound) :
    (tick scale).Ensures (f.Trading scale) (fun _ _ => True) f := by
  have hgives : (tick scale).Ensures f.Trades _ f := (tick_gives hsound []).ensures
  have htrading : (tick scale).Ensures (f.Trading scale) _ f :=
    (Ensures.and (tick_keeps f hf) hgives).weaken fun g hg => ⟨hg.2, fun _ => hg.1⟩
  exact htrading.mono (fun _ _ _ _ => trivial) (.refl scale f)

/--
**The price is the limit of the order that is met, and that is the sell order.**  Whatever
calls fail, each fill of a tick is one of two orders that may meet, at the limit of the one
that is met; so it is at the limit of the one that was submitted first if that one is met,
or if both limits are the same.  On a grid, and while the store has not failed before, it is
the sell order that is met, whichever came first, unless the buy order could not be listed
or its turn has failed in the same tick.  If the tick tells of no failure, that is so of
every fill.
-/
theorem Floor.Reached.resting_price (h : f.Reached scale) {r : Except Failure TickOutcome}
    (hlead : f.Leads (tick scale) (.ended r) g) :
    (∀ fill ∈ f.fillsSince g, ∃ o ∈ f.store.orders, ∃ c ∈ f.store.orders, fill.Joins o c ∧
      (fill.price.units = (o.earlier c).price.units ↔
        c.id < o.id ∨ o.price.units = c.price.units)) ∧
    ∀ k ≤ 28, (∀ o ∈ f.store.orders, OnGrid k o.amount.units) →
      (∀ e ∈ f.log, e.unstored = false) → ∃ passes : List TickerPass,
        f.Leads (noteTick scale) (.done (passes, r)) g ∧
          (∀ fill ∈ f.fillsSince g, fill.Asked passes) ∧
            ∀ report, r = .ok (.completed report) → report.ordersFailed = 0 →
              report.tickersFailed = 0 → ∀ fill ∈ f.fillsSince g, fill.counter.side = .sell := by
  obtain ⟨hoffers, -⟩ :=
    (Floor.commits_offers (tick_trading h.orderly h.sound) h.orderly).of_leads hlead (.refl f _)
  refine ⟨fun fill hfill => ?_, fun k hk hgrid hstored => ?_⟩
  · obtain ⟨o, ho, c, hc, hjoins⟩ := hoffers.fills fill hfill
    exact ⟨o, ho, c, hc, hjoins, hjoins.earlier_iff (id_ne_of_mayMeet ho hc hjoins.mayMeet)⟩
  · obtain ⟨passes, hnoted⟩ := Floor.Leads.noted scale hlead
    have hasked := ((h.complete hgrid hstored).tick_asked hk hnoted).fills
    refine ⟨_, hnoted, hasked, fun report hr horders htickers fill hfill => ?_⟩
    exact (hasked fill hfill).of_clean
      (((noteTick_returns scale).of_leads hnoted report hr).clean horders htickers)

/-- A bid that is submitted before an ask, with prices that cross. -/
def Floor.bidFirst : Floor :=
  session 2 .epoch [.order .buy (.ofDigits 2 0) (.ofDigits 1 0),
    .order .sell (.ofDigits 1 0) (.ofDigits 1 0)]

theorem Floor.resting_price_bidFirst :
    bidFirst.Reached 2 ∧ (∀ o ∈ bidFirst.store.orders, OnGrid 0 o.amount.units) ∧
      (∀ e ∈ bidFirst.log, e.unstored = false) ∧
      ∃ report g, bidFirst.Leads (tick 2) (.done (.completed report)) g ∧
        report.ordersFailed = 0 ∧ report.tickersFailed = 0 ∧ (bidFirst.fillsSince g).length = 1 ∧
          ∀ fill ∈ bidFirst.fillsSince g, fill.counter.side = .sell ∧
            ∃ o c : Order, fill.Joins o c ∧ o.id < c.id := by
  have hreached : bidFirst.Reached 2 := reached_session _ _ _
  have hgrid : ∀ o ∈ bidFirst.store.orders, OnGrid 0 o.amount.units :=
    Store.onGrid_of_places (by decide) (by decide +kernel)
  have hstored : ∀ e ∈ bidFirst.log, e.unstored = false := by decide +kernel
  have hlead := bidFirst.leads_perform .epoch (tick 2)
  obtain ⟨report, houtcome, horders, htickers⟩ : ∃ report,
      (bidFirst.perform .epoch (tick 2)).1 = .ok (.completed report) ∧
        report.ordersFailed = 0 ∧ report.tickersFailed = 0 :=
    ⟨⟨1, 0, 1, 0, 1, .ofDigits 1 0⟩, by decide +kernel⟩
  have hids : (bidFirst.fillsSince (bidFirst.perform .epoch (tick 2)).2).length = 1 ∧
      ∀ fill ∈ bidFirst.fillsSince (bidFirst.perform .epoch (tick 2)).2,
        fill.incoming.id = 1 ∧ fill.counter.id = 2 := by decide +kernel
  rw [houtcome] at hlead
  obtain ⟨hjoined, hasked⟩ := Floor.Reached.resting_price hreached hlead
  obtain ⟨passes, -, -, hsold⟩ := hasked 0 (by decide) hgrid hstored
  refine ⟨hreached, hgrid, hstored, report, _, hlead, horders, htickers, hids.1, ?_⟩
  intro fill hfill
  obtain ⟨o, -, c, -, hjoins, -⟩ := hjoined fill hfill
  obtain ⟨hincoming, hcounter⟩ := hids.2 fill hfill
  refine ⟨hsold report rfl horders htickers fill hfill, o, c, hjoins, ?_⟩
  rw [← hjoins.incoming.id, ← hjoins.counter.id, hincoming, hcounter]
  decide

/-- **A bid that was submitted first does not set the price.** -/
theorem Floor.not_earlier_price :
    ¬ ∀ (scale : Nat) (time : Instant) (ops : List Operation),
      (∀ op ∈ ops, op ≠ .recover ∧ ∀ id ticker, op ≠ .process id ticker) →
      ∀ fill ∈ (session scale time ops).fillsSince
          ((session scale time ops).perform time (tick scale)).2,
        ∀ o ∈ (session scale time ops).store.orders, ∀ c ∈ (session scale time ops).store.orders,
          o.id = fill.incoming.id → c.id = fill.counter.id →
            fill.price.units = (o.earlier c).price.units := by
  intro hall
  have hbid := hall 2 .epoch [.order .buy (.ofDigits 2 0) (.ofDigits 1 0),
    .order .sell (.ofDigits 1 0) (.ofDigits 1 0)] (by simp [Operation.order])
  revert hbid
  decide +kernel

end Bourse
