/-
A pass among the passes over other tickers.

A pass fills orders of its ticker and takes entries out of the index, and writes nothing
else (`Deals`).  So whatever the others do, the orders of a ticker stay as its own pass has
read them (`Leaves`), every fill is worked out from what is on record, and it goes through
just as it does when the pass is alone.  `Amid` follows a pass call by call as `Ensures`
does, but before each of its calls the floor may have become any other on which the orders
of its ticker were left alone.

What the whole of a tick comes to is a `Trail`: calls one after the other, each of which
trades and leaves the floor orderly.  Programs are out of the picture then, and what is said
of a tick is said of such a trail, in whatever order its passes have made their calls.
-/
import Bourse.Proofs.Demand
import Bourse.Proofs.Fanout

namespace Bourse

open Bourse.Action Decimal

/-! ### What passes do to each other -/

namespace Floor

variable {scale : Nat} {ticker other : String} {f g h : Floor} {c : Call} {a : c.Answer}

/-- On the way from `f` to `g` the orders of the ticker were left as they are. -/
def Leaves (ticker : String) (f g : Floor) : Prop :=
  ∀ id o, f.store.find? id = some o → o.ticker = ticker → g.store.find? id = some o

theorem Leaves.of_store (hstore : g.store = f.store) : f.Leaves ticker g :=
  fun _ _ hfind _ => hstore ▸ hfind

theorem Leaves.trans (hfg : f.Leaves ticker g) (hgh : g.Leaves ticker h) : f.Leaves ticker h :=
  fun id o hfind hticker => hgh id o (hfg id o hfind hticker) hticker

/-- What a call of a pass does: it writes nothing, or it commits a trade of the ticker. -/
inductive Deals (scale : Nat) (ticker : String) (f : Floor) : (c : Call) → c.Answer → Prop
  | quiet {c : Call} (hc : c.quiet = true) (a : c.Answer) : Deals scale ticker f c a
  | failed (c : StoreCall) (e : Error) : Deals scale ticker f (.store c) (.error e)
  | trade {o p : Order} {fill : FillCommit} (t : f.store.Trade scale o p fill)
      (hticker : o.ticker = ticker) :
      Deals scale ticker f (.store (.commit fill)) (.ok (f.store.perform (.commit fill)).1)

theorem Deals.orderly (h : f.Deals scale ticker c a) (hf : f.Orderly scale) :
    (f.after c a).Orderly scale := by
  cases h with
  | quiet hc a => exact hf.of_quiet hc a
  | failed c e => exact hf.of_failed c e
  | trade t => exact hf.trade t

/-- A call of a pass leaves the orders of every other ticker alone. -/
theorem Deals.leaves (h : f.Deals scale ticker c a) (hne : ticker ≠ other) :
    f.Leaves other (f.after c a) := by
  cases h with
  | quiet hc a => exact .of_store (f.storeAfter_of_quiet hc a)
  | failed c e => exact .of_store rfl
  | @trade o p fill t hticker =>
      intro id q hfind hq
      have hcounter : p.ticker = ticker := (Order.opposes_iff.mp t.opposes).2.2.trans hticker
      have hid {r : Order} (hr : f.store.find? r.id = some r) (hrticker : r.ticker = ticker) :
          id ≠ r.id := by
        intro hsame
        rw [hsame, hr, Option.some.injEq] at hfind
        exact hne (hrticker.symm.trans (hfind ▸ hq))
      show (f.store.commit fill).2.find? id = some q
      rw [t.find?_commit, if_neg (hid t.counterFound hcounter),
        if_neg (hid t.incomingFound hticker)]
      exact hfind

/-- What a pass fills is of its ticker. -/
theorem Deals.fill_ticker (h : f.Deals scale ticker c a) {fill : FillCommit}
    (hfill : Answered.fill? ⟨c, a⟩ = some fill) : fill.incoming.ticker = ticker := by
  cases h with
  | @quiet c hc a =>
      cases c with
      | store c =>
          cases c with
          | insert | commit | cancel => cases hc
          | load | loadMany | executions | live => cases hfill
      | _ => cases hfill
  | failed c e => cases c <;> cases hfill
  | trade t hticker =>
      rw [show (f.store.perform (.commit _)).1 = _ from t.committed.1] at hfill
      cases hfill
      exact t.incomingFilled.terms.ticker.trans hticker

end Floor

/-- An order and the queue ahead of it stay ready while their ticker is left alone. -/
theorem Store.Ready.leaves {f g : Floor} {o : Order} {counters : List Order}
    (h : f.store.Ready o counters) (hfg : f.Leaves o.ticker g) : g.store.Ready o counters where
  found := hfg _ o h.found rfl
  counterFound c hc := by
    obtain ⟨hfound, hmay⟩ := h.counterFound c hc
    exact ⟨hfg _ c hfound (Order.mayMeet_iff.mp hmay).2.2.1, hmay⟩
  nodup := h.nodup

/-! ### Work amid that of other tickers -/

namespace Action

variable {α β : Type} {scale : Nat} {ticker : String} {f g : Floor}

/--
While the orders of its ticker are left alone before each of its calls, the work only deals
in them, and if it ends, it ends in `goal`.
-/
def Amid (scale : Nat) (ticker : String) (goal : Except Failure α → Floor → Prop) :
    Action α → Floor → Prop
  | done a, f => goal (.ok a) f
  | fail e, f => goal (.error e) f
  | call c rest, f => ∀ g, f.Leaves ticker g → g.Orderly scale → ∀ a, g.May c a →
      g.Deals scale ticker c a ∧ (rest a).Amid scale ticker goal (g.after c a)

variable {goal : Except Failure α → Floor → Prop}

theorem Amid.mono {goal' : Except Failure α → Floor → Prop} {work : Action α}
    (h : work.Amid scale ticker goal f) (hgoal : ∀ r g, goal r g → goal' r g) :
    work.Amid scale ticker goal' f := by
  induction work generalizing f with
  | done a => exact hgoal _ f h
  | fail e => exact hgoal _ f h
  | call c rest ih =>
      intro g hfg hg a hmay
      obtain ⟨hdeals, hrest⟩ := h g hfg hg a hmay
      exact ⟨hdeals, ih a hrest⟩

theorem Amid.bind {middle : Except Failure α → Floor → Prop}
    {goal : Except Failure β → Floor → Prop} {work : Action α} {next : α → Action β}
    (h : work.Amid scale ticker middle f)
    (hnext : ∀ a g, middle (.ok a) g → (next a).Amid scale ticker goal g)
    (hfail : ∀ e g, middle (.error e) g → goal (.error e) g) :
    (work >>= next).Amid scale ticker goal f := by
  induction work generalizing f with
  | done a => exact hnext a f h
  | fail e => exact hfail e f h
  | call c rest ih =>
      intro g hfg hg a hmay
      obtain ⟨hdeals, hrest⟩ := h g hfg hg a hmay
      exact ⟨hdeals, ih a hrest⟩

/-- Of work whose end does not matter, what follows it has to deal on any floor. -/
theorem Amid.bind_any {work : Action α} {next : α → Action β}
    (h : work.Amid scale ticker (fun _ _ => True) f)
    (hnext : ∀ a g, (next a).Amid scale ticker (fun _ _ => True) g) :
    (work >>= next).Amid scale ticker (fun _ _ => True) f :=
  h.bind (fun a g _ => hnext a g) fun _ _ _ => trivial

theorem Amid.attemptError {work : Action α} (h : work.Amid scale ticker (fun _ _ => True) f) :
    work.attemptError.Amid scale ticker (fun _ _ => True) f := by
  induction work generalizing f with
  | done a => trivial
  | fail e => cases e <;> trivial
  | call c rest ih =>
      intro g hfg hg a hmay
      obtain ⟨hdeals, hrest⟩ := h g hfg hg a hmay
      exact ⟨hdeals, ih a hrest⟩

/-- Quiet work leaves its own ticker alone, too. -/
theorem Quiet.amid {quiet : α → Prop} {work : Action α} (h : work.Quiet quiet) :
    work.Amid scale ticker (fun r g => f.Leaves ticker g ∧ ∀ a, r = .ok a → quiet a) f := by
  suffices ∀ g, f.Leaves ticker g → work.Amid scale ticker
      (fun r g => f.Leaves ticker g ∧ ∀ a, r = .ok a → quiet a) g from this f (.of_store rfl)
  induction work with
  | done a => exact fun g hfg => ⟨hfg, fun b hb => by cases hb; exact h⟩
  | fail e => exact fun g hfg => ⟨hfg, fun b hb => by cases hb⟩
  | call c rest ih =>
      intro g hfg k hgk hk a hmay
      refine ⟨.quiet h.1 a, ih a (h.2 a) _ ((hfg.trans hgk).trans ?_)⟩
      exact .of_store (k.storeAfter_of_quiet h.1 a)

theorem amid_total (o : Overflow) (a : Option α) :
    (total o a).Amid scale ticker (fun _ _ => True) f := by
  cases a <;> trivial

/-- A quiet call, followed by what is done with its answer. -/
theorem amid_call {c : Call} (hc : c.quiet = true) {rest : c.Answer → Action α}
    (h : ∀ g a, f.Leaves ticker g → g.Orderly scale → g.May c a →
      (rest a).Amid scale ticker goal (g.after c a)) :
    (call c rest).Amid scale ticker goal f :=
  fun g hfg hg a hmay => ⟨.quiet hc a, h g a hfg hg hmay⟩

/-- A call on the store, followed by what is done with its answer. -/
theorem amid_store {goal : Except Failure β → Floor → Prop} {c : StoreCall}
    {next : c.Answer → Action β}
    (hok : ∀ g, f.Leaves ticker g → g.Orderly scale →
      g.Deals scale ticker (.store c) (.ok (g.store.perform c).1) ∧
        (next (g.store.perform c).1).Amid scale ticker goal
          (g.after (.store c) (.ok (g.store.perform c).1)))
    (hfail : ∀ e g, goal (.error (.error e)) g) :
    (store c >>= next).Amid scale ticker goal f := by
  intro g hfg hg a hmay
  cases a with
  | error e => exact ⟨.failed c e, hfail e _⟩
  | ok a =>
      cases (show a = (g.store.perform c).1 from hmay)
      exact hok g hfg hg

end Action

/-! ### A pass -/

variable {scale : Nat} {ticker : String} {f g : Floor}

/-- The counter orders of an order that is on record are ready when they are found. -/
theorem Order.candidates_amid {o : Order} (hfind : f.store.find? o.id = some o) :
    o.candidates.Amid scale o.ticker (fun r g => ∀ a, r = .ok a → g.store.Ready o a.1) f := by
  unfold candidates
  refine amid_call rfl fun g listed hfg hg hmay => ?_
  have hfind := hfg _ o hfind rfl
  cases listed with
  | error e => exact nofun
  | ok ids =>
      obtain rfl : ids = g.index.waiting o.side.opposite o.ticker := hmay
      have hnodup := hg.tidy.nodup_waiting o.side.opposite o.ticker
      generalize g.index.waiting o.side.opposite o.ticker = ids at hnodup ⊢
      show (if ids.isEmpty = true then done ([], 0) else _ : Action _).Amid _ _ _ _
      split
      · intro a h
        cases h
        exact ⟨hfind, List.forall_mem_nil _, List.nodup_nil⟩
      · refine amid_store (c := .loadMany ids) (fun k hgk _ => ⟨.quiet rfl _, ?_⟩)
          fun e _ a h => nomatch h
        have hfind := hgk _ o hfind rfl
        refine (o.quiet_nominated (ids.filterMap k.store.find?) ids).amid.bind
          (fun a l hl => ?_) fun _ _ _ _ h => nomatch h
        intro b h
        cases h
        have hfound : a.1 = k.store.rivals o ids :=
          (hl.2 a rfl).trans (congrArg (List.filter _) (k.store.filterMap_loaded ids))
        show l.store.Ready o (o.side.queue a.1)
        rw [hfound]
        refine Store.Ready.leaves (f := k) (Store.ready_rivals hfind hnodup) ?_
        exact Floor.Leaves.trans (.of_store rfl) hl.1

/-- **Along a queue that is ready every fill is a trade**, whoever else is at work. -/
theorem walk_amid {counters : List Order} {o : Order} (ho : o.ticker = ticker)
    (hready : f.store.Ready o counters) :
    (walk scale ticker counters o).Amid scale ticker (fun _ _ => True) f := by
  induction counters generalizing o f with
  | nil => trivial
  | cons c cs ih =>
      unfold walk
      by_cases hmatch : o.matchable = true
      · simp only [hmatch, Bool.not_true, Bool.false_eq_true, if_false]
        refine amid_call rfl fun g time hfg _ _ => ?_
        have hready : (g.after .now time).store.Ready o (c :: cs) := hready.leaves (ho ▸ hfg)
        show (ofExcept (o.fillWith c scale time) >>= _).Amid _ _ _ _
        cases hfill : o.fillWith c scale time with
        | error e => trivial
        | ok fill =>
            refine amid_store (fun k hgk _ => ?_) fun _ _ => trivial
            have hready := hready.leaves (g := k) (ho ▸ hgk)
            have t := hready.trade hmatch hfill
            refine ⟨.trade t ho, ?_⟩
            have hcommitted : (k.store.perform (.commit fill)).1 =
                .committed (k.store.executionPair fill) := t.committed.1
            rw [hcommitted]
            have hincoming := t.incomingFilled.terms.ticker.trans ho
            refine (fill.quiet_settle ticker).amid.bind (fun _ l hkl => ?_) fun _ _ _ => trivial
            refine (ih hincoming ?_).bind_any fun _ _ => trivial
            have hnext : (k.after (.store (.commit fill))
                (.ok (.committed (k.store.executionPair fill)))).store.Ready fill.incoming cs :=
              hready.next t
            exact hnext.leaves (hincoming ▸ hkl.1)
      · rw [Bool.not_eq_true] at hmatch
        simp only [hmatch, Bool.not_false, if_true]
        trivial

theorem processOrder_amid (id : OrderId) :
    (processOrder scale id ticker).Amid scale ticker (fun _ _ => True) f := by
  unfold processOrder
  refine amid_store (fun g hfg _ => ⟨.quiet rfl _, ?_⟩) fun _ _ => trivial
  rw [show (g.store.perform (.load id)).1 = g.store.find? id from rfl]
  cases hfind : g.store.find? id with
  | none => trivial
  | some o =>
      obtain ⟨-, rfl⟩ := Store.mem_of_find? hfind
      dsimp only
      by_cases hticker : o.ticker = ticker
      · subst hticker
        simp only [bne_self_eq_false, Bool.false_eq_true, if_false]
        split
        · exact ((quiet_index _).amid.mono fun _ _ _ => trivial).bind_any fun _ _ => trivial
        · refine (Order.candidates_amid hfind).bind (fun a k hready => ?_) fun _ _ _ => trivial
          refine (walk_amid rfl (hready a rfl)).bind_any fun b l => ?_
          refine Amid.bind_any ?_ fun _ _ => trivial
          exact (b.1.quiet_dropFilled o.ticker).amid.mono fun _ _ _ => trivial
      · rw [if_pos (bne_iff_ne.mpr hticker)]
        trivial

theorem drainOrders_amid (ids : List OrderId) (r : TickReport) :
    (drainOrders scale ticker ids r).Amid scale ticker (fun _ _ => True) f := by
  induction ids generalizing r f with
  | nil => trivial
  | cons id ids ih =>
      unfold drainOrders
      refine amid_call rfl fun g _ _ _ _ => ?_
      refine (processOrder_amid id).attemptError.bind_any fun turn k => ?_
      cases turn with
      | ok report =>
          exact (amid_total _ _).bind_any fun filled l => (amid_total _ _).bind_any
            fun amount m => ih _
      | error e => exact amid_call rfl fun l _ _ _ _ => ih _

theorem drainSide_amid (side : Side) (r : TickReport) :
    (drainSide scale ticker side r).Amid scale ticker (fun _ _ => True) f := by
  unfold drainSide
  refine ((quiet_index _).amid.mono fun _ _ _ => trivial).attemptError.bind_any fun listed g => ?_
  cases listed with
  | ok ids => exact drainOrders_amid ids r
  | error e => trivial

/-- **A pass deals in its own ticker only**, whoever deals in others meanwhile. -/
theorem drainTicker_amid : (drainTicker scale ticker).Amid scale ticker (fun _ _ => True) f :=
  (drainSide_amid .buy _).bind_any fun r _ => drainSide_amid .sell r

/-! ### From one floor to another by trades -/

/-- Calls, each of which trades and leaves the floor orderly. -/
inductive Floor.Trail (scale : Nat) : Floor → List Answered → Floor → Prop
  | here (f : Floor) : Trail scale f [] f
  | call {f g : Floor} {c : Call} {a : c.Answer} {calls : List Answered} (hmay : f.May c a)
      (horderly : (f.after c a).Orderly scale) (htrades : f.Trades (f.after c a))
      (h : Trail scale (f.after c a) calls g) : Trail scale f (⟨c, a⟩ :: calls) g

namespace Floor

variable {calls later : List Answered} {h : Floor}

/-- Every call preserves it, from one orderly floor to the next. -/
def Preserved (scale : Nat) (Q : Floor → Prop) : Prop :=
  ∀ {f : Floor} {c : Call} (a : c.Answer), f.Orderly scale → (f.after c a).Orderly scale →
    f.May c a → f.Becomes (f.after c a) → Q f → Q (f.after c a)

namespace Trail

theorem trans (hfg : f.Trail scale calls g) (hgh : g.Trail scale later h) :
    f.Trail scale (calls ++ later) h := by
  induction hfg with
  | here f => exact hgh
  | call hmay horderly htrades _ ih => exact .call hmay horderly htrades (ih hgh)

theorem log (htrail : f.Trail scale calls g) : g.log = f.log ++ calls := by
  induction htrail with
  | here f => exact (List.append_nil _).symm
  | call hmay _ _ _ ih => rw [ih, after_log, List.append_assoc]; rfl

theorem since (htrail : f.Trail scale calls g) : f.since g = calls := since_eq htrail.log

theorem trading (htrail : f.Trail scale calls g) : f.Trading scale g := by
  induction htrail with
  | here f => exact .refl scale f
  | call _ horderly htrades _ ih => exact .trans ⟨htrades, fun _ => horderly⟩ ih

theorem orderly (htrail : f.Trail scale calls g) (hf : f.Orderly scale) : g.Orderly scale :=
  htrail.trading.orderly hf

/-- Before each of the calls there was a floor on which it was made. -/
theorem split {x : Answered} (htrail : f.Trail scale (calls ++ x :: later) g) :
    ∃ w, f.Trail scale calls w ∧ w.May x.call x.answer := by
  induction calls generalizing f with
  | nil =>
      cases htrail with
      | call hmay => exact ⟨f, .here f, hmay⟩
  | cons y calls ih =>
      cases htrail with
      | call hmay horderly htrades htrail =>
          obtain ⟨w, hbefore, hx⟩ := ih htrail
          exact ⟨w, .call hmay horderly htrades hbefore, hx⟩

/-- What every call preserves is preserved along the trail. -/
theorem along {Q : Floor → Prop} (htrail : f.Trail scale calls g) (hf : f.Orderly scale)
    (hcall : Preserved scale Q) (hQ : Q f) : Q g := by
  induction htrail with
  | here f => exact hQ
  | call hmay horderly htrades _ ih =>
      exact ih horderly (hcall _ hf horderly hmay htrades.toBecomes hQ)

/-- **What is filled is taken from the demand**, as long as nothing but trades happens. -/
theorem spends {k : Nat} (htrail : f.Trail scale calls g) (hf : f.Orderly scale) (hk : k ≤ 28)
    (hgrid : ∀ o ∈ f.store.orders, OnGrid k o.amount.units) : f.Spends k g := by
  induction htrail with
  | here f =>
      refine ⟨List.prefix_refl _, ?_, fun side => ?_⟩
      · simp [fillsSince, since_self]
      · simp [fillsSince, since_self, volume]
  | @call f g c a calls hmay horderly htrades htrail ih =>
      refine Spends.trans ?_ (ih horderly fun q hq => ?_)
      · rcases htrades.cases hmay with ⟨hstore, hfill⟩ | ⟨fill, receipt, hcall⟩
        · exact .of_same hstore hfill
        · cases hcall
          exact .commit hf horderly hmay htrades hk hgrid
      · obtain ⟨x, hx, hbecomes⟩ := htrades.toWithdraws.earlier hq
        rw [hbecomes.terms.amount]
        exact hgrid x hx

end Trail

/-- Calls that change neither the store nor the index are a trail. -/
theorem Leads.trail_of_still {α : Type} {work rest : Action α} (hlead : f.Leads work rest g)
    (hf : f.Orderly scale) (hstill : ∀ x ∈ f.since g, x.call.still = true) :
    f.Trail scale (f.since g) g := by
  induction hlead with
  | here work f =>
      rw [since_self]
      exact .here f
  | @call c rest f left g a hmay hlead ih =>
      rw [hlead.since_call, List.forall_mem_cons] at hstill
      have hafter : f.Still scale (f.after c a) := .of_still hstill.1 a
      rw [hlead.since_call]
      exact .call hmay (hafter.orderly hf) hafter.toTrades (ih (hafter.orderly hf) hstill.2)

end Floor

/-! ### The passes of a tick -/

/-- What is known of the work for a ticker while others work, too. -/
structure Action.Minds {α : Type} (scale : Nat) (ticker : String) (work : Action α) (f : Floor) :
    Prop where
  deals : work.Amid scale ticker (fun _ _ => True) f
  trades : ∃ mine, work.Among .any .trading (fun _ _ _ => True) mine f

namespace Action.Minds

variable {α : Type} {other : String} {work : Action α}

/-- A call of its own trades, and goes on with what is known. -/
theorem call {c : Call} {rest : c.Answer → Action α} {a : c.Answer}
    (h : (Action.call c rest).Minds scale ticker f) (hf : f.Orderly scale) (hmay : f.May c a) :
    f.Deals scale ticker c a ∧ f.Trades (f.after c a) ∧ (rest a).Minds scale ticker (f.after c a)
    := by
  obtain ⟨hdeals, hrest⟩ := h.deals f (.of_store rfl) hf a hmay
  obtain ⟨mine, htrades⟩ := h.trades
  obtain ⟨hgive, hrest'⟩ := htrades f (Change.any.of_same rfl rfl) a hmay
  exact ⟨hdeals, hgive, hrest, _, hrest'⟩

/-- A call for another ticker changes nothing of it. -/
theorem later (h : work.Minds scale ticker f) (hleaves : f.Leaves ticker g)
    (hbecomes : f.Becomes g) : work.Minds scale ticker g := by
  obtain ⟨hdeals, mine, htrades⟩ := h
  refine ⟨?_, mine, htrades.later (fun _ => id) hbecomes⟩
  cases work with
  | done a => trivial
  | fail e => trivial
  | call c rest => exact fun k hgk hk a hmay => hdeals k (hleaves.trans hgk) hk a hmay

end Action.Minds

namespace Floor

variable {α : Type} {works works' : String → Action α} {trace : List (String × Answered)}
  {fan : Fan} {r : Except Failure TickOutcome}

/-- **Side by side, the passes only trade**, and each fills orders of its ticker only. -/
theorem Fans.trail (hfan : f.Fans works trace works' g) (hf : f.Orderly scale)
    (hminds : ∀ ticker, (works ticker).Minds scale ticker f) :
    f.Trail scale (trace.map (·.2)) g ∧
      ∀ x ∈ trace, ∀ fill, x.2.fill? = some fill → fill.incoming.ticker = x.1 := by
  induction hfan with
  | here f works => exact ⟨.here f, List.forall_mem_nil _⟩
  | @call f g works works' trace ticker c rest hwork a hmay _ ih =>
      obtain ⟨hdeals, htrades, hrest⟩ := (hwork ▸ hminds ticker).call hf hmay
      have horderly := hdeals.orderly hf
      have hminds' := (Function.forall_update_iff works fun t work =>
        work.Minds scale t (f.after c a)).mpr ⟨hrest, fun other hother =>
          (hminds other).later (hdeals.leaves (Ne.symm hother)) htrades.toBecomes⟩
      obtain ⟨htrail, hfills⟩ := ih horderly hminds'
      exact ⟨.call hmay horderly htrades htrail,
        List.forall_mem_cons.mpr ⟨fun fill hfill => hdeals.fill_ticker hfill, hfills⟩⟩

theorem passes_minds (hf : f.Sound) (tickers : List String) (ticker : String) :
    (passes scale tickers ticker).Minds scale ticker f := by
  unfold passes
  split
  · exact ⟨drainTicker_amid, [], drainTicker_gives hf ticker []⟩
  · exact ⟨trivial, [], trivial⟩

/-- **A tick is a trail**, however its passes take turns, and each fills only of its ticker. -/
theorem Ticks.trail (h : f.Ticks scale fan r g) (hf : f.Orderly scale) (hsound : f.Sound) :
    f.Trail scale (f.since g) g ∧
      ∀ x ∈ fan.trace, ∀ fill, x.2.fill? = some fill → fill.incoming.ticker = x.1 := by
  cases h with
  | idle hopen =>
      obtain ⟨_, -, hcalls⟩ := openTick_makes.of_ended (r := .ok _) hopen
      exact ⟨hopen.trail_of_still hf hcalls.still, List.forall_mem_nil _⟩
  | @fanned _ tickers v w _ _ hopen hnodup hactive hfan hclose =>
      obtain ⟨_, -, hcalls⟩ := openTick_makes.of_ended (r := .ok _) hopen
      have hopened := hopen.trail_of_still hf hcalls.still
      have hv := hopened.orderly hf
      obtain ⟨hpassed, hfills⟩ := hfan.trail hv
        fun ticker => passes_minds (hopened.trading.sound hsound) fan.joined ticker
      have hclosed := hclose.trail_of_still (hpassed.orderly hv)
        ((closeTick_makes _).of_ended hclose).still
      have htrail := (hopened.trans hpassed).trans hclosed
      rw [htrail.since]
      exact ⟨htrail, hfills⟩

end Floor

end Bourse
