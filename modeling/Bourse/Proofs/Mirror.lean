/-
The index as a mirror of the orders that can be matched.

Two things make a mirror.  Nothing that can be matched is missing: every order on record
is covered.  And nothing stale is listed: a floor is `Prompt`.

The first is lost to nothing but a failing store.  That was shown of work beside other
work, for all operations but reconciling; alone on a floor, that spares what can be
matched as well, for it takes out only what does not belong by the orders it has read.

The second is lost whenever an entry cannot be taken out.  Without a failing call it is
kept by every operation, even by a turn that fails half way, and a tick in which no call
fails brings it back, whatever was left behind before.  Both times it comes down to one
lemma: an order that could be matched at some moment, and whose entry is still there in
the end, can be matched in the end (`Leads.prompt_of_matchable`).  A tick sees to such a
moment for every entry there is, since it reads the orders of all that are listed.

Amounts on a grid are needed because nothing else is filled when nothing remains of it:
off the grid a remainder can come out negative, and such an order is never finished.
-/
import Bourse.Proofs.Conservation
import Bourse.Proofs.Crowd
import Bourse.Proofs.Mending
import Bourse.Proofs.Sweep

namespace Bourse

open Bourse.Action Decimal

variable {scale k : Nat} {f g : Floor} {α : Type} {work rest : Action α} {side : Side}
  {ticker : String} {id : OrderId}

namespace Action

/-- How work among other work ends when it is alone. -/
theorem Among.of_ended {rely give : Change} {goal : Except Failure α → List Answered → Floor → Prop}
    {mine : List Answered} {r : Except Failure α} (h : work.Among rely give goal mine f)
    (hlead : f.Leads work (.ended r) g) : goal r (mine ++ f.since g) g := by
  induction work generalizing f mine with
  | done a =>
      obtain ⟨rfl, rfl⟩ := hlead.of_done
      rw [Floor.since_self, List.append_nil]
      exact h
  | fail e =>
      obtain ⟨rfl, rfl⟩ := hlead.of_fail
      rw [Floor.since_self, List.append_nil]
      exact h
  | call c rest ih =>
      obtain ⟨a, hmay, hlead⟩ := hlead.of_call
      rw [hlead.since_call, List.append_cons]
      exact ih a (h f (rely.of_same rfl rfl) a hmay).2 hlead

end Action

namespace Floor

/-- Listed is what can be matched, under its side and ticker, and nothing else. -/
def Mirrors (f : Floor) : Prop :=
  ∀ side ticker id, id ∈ f.index.waiting side ticker ↔
    ∃ o ∈ f.store.orders, o.id = id ∧ o.side = side ∧ o.ticker = ticker ∧ o.matchable = true

/-- The order with this identifier can be matched. -/
def Waits (f : Floor) (id : OrderId) : Prop :=
  ∃ o, f.store.find? id = some o ∧ o.matchable = true

/-- Whatever is listed can be matched. -/
def Prompt (f : Floor) : Prop :=
  ∀ side ticker, ∀ id ∈ f.index.waiting side ticker, f.Waits id

theorem Prompt.mirrors_of_covers (h : f.Prompt) (hf : f.Sound)
    (hcovers : ∀ o ∈ f.store.orders, f.Covers o.id) : f.Mirrors := by
  refine fun side ticker id => ⟨fun hlisted => ?_, ?_⟩
  · obtain ⟨o, hfind, hside, hticker⟩ := hf.mem_waiting hlisted
    obtain ⟨p, hfind', hmatch⟩ := h side ticker id hlisted
    rw [hfind, Option.some.injEq] at hfind'
    obtain ⟨ho, hid⟩ := Store.mem_of_find? hfind
    exact ⟨o, ho, hid, hside, hticker, hfind' ▸ hmatch⟩
  · rintro ⟨o, ho, rfl, rfl, rfl, hmatch⟩
    obtain ⟨p, hfind, hlisted⟩ := hcovers o ho
    rw [Store.mem_orders_iff.mp ho, Option.some.injEq] at hfind
    subst hfind
    exact hlisted hmatch

/-! ### Amounts on a grid -/

/-- On a grid, what cannot be matched any more is finished. -/
theorem Orderly.terminal (hf : f.Orderly scale) (hk : k ≤ 28)
    (hgrid : ∀ o ∈ f.store.orders, OnGrid k o.amount.units) {o : Order} (ho : o ∈ f.store.orders)
    (hmatch : o.matchable = false) : o.status.terminal = true := by
  by_cases hcancelled : o.status = .cancelled
  · rw [hcancelled]
    rfl
  · obtain ⟨hexact, -⟩ := hf.history.conserves hk (List.forall_mem_map.mpr hgrid) o ho
    rw [hexact.filled_of_not_matchable hcancelled hmatch]
    rfl

/-- What was on record was placed with amounts that are on record still. -/
theorem Becomes.grid (hfg : f.Becomes g) (hgrid : ∀ o ∈ g.store.orders, OnGrid k o.amount.units) :
    ∀ o ∈ f.store.orders, OnGrid k o.amount.units := by
  intro o ho
  obtain ⟨p, hfind, hp⟩ := hfg.orders o.id o (Store.mem_orders_iff.mp ho)
  rw [← hp.terms.amount]
  exact hgrid p (Store.mem_of_find? hfind).1

theorem Withdraws.grid (hfg : f.Withdraws g)
    (hgrid : ∀ o ∈ f.store.orders, OnGrid k o.amount.units) :
    ∀ o ∈ g.store.orders, OnGrid k o.amount.units := by
  intro p hp
  obtain ⟨o, hfind⟩ := hfg.known p.id p (Store.mem_orders_iff.mp hp)
  obtain ⟨q, hfind', hq⟩ := hfg.orders p.id o hfind
  rw [Store.mem_orders_iff.mp hp, Option.some.injEq] at hfind'
  rw [hfind', hq.terms.amount]
  exact hgrid o (Store.mem_of_find? hfind).1

/-! ### Entries that are cleared -/

/-- No call failed, none put in an entry, and what was made terminal was to be taken out. -/
structure Cleans (f g : Floor) : Prop where
  given : ∀ e ∈ f.since g, e.refused = false
  clears : ∀ e ∈ f.since g, e.call.enqueues = false
  swept : Swept [] (f.since g)

/-- When a call was made, all was listed that is listed in the end. -/
theorem Leads.split_listed (hlead : f.Leads work rest g) (hf : f.index.Tidy)
    (hclears : ∀ e ∈ f.since g, e.call.enqueues = false)
    (hlisted : id ∈ g.index.waiting side ticker) {e : Answered} (he : e ∈ f.since g) :
    ∃ h next, f.Leads work (.call e.call next) h ∧ h.May e.call e.answer ∧
      (h.after e.call e.answer).Leads (next e.answer) rest g ∧
      (h.after e.call e.answer).since g ⊆ f.since g ∧ id ∈ h.index.waiting side ticker := by
  obtain ⟨h, next, hbefore, hmay, hafter⟩ := hlead.split he
  have hsub : (h.after e.call e.answer).since g ⊆ f.since g := by
    rw [since_trans (hbefore.log.trans (h.log_after _ _)) hafter.log]
    exact List.subset_append_right _ _
  refine ⟨h, next, hbefore, hmay, hafter, hsub, ?_⟩
  have hh := hbefore.tidy hf
  rcases hafter.waiting_or (indexAfter_tidy hh _ _) hlisted with hin | ⟨e', he', price, hput⟩
  · refine (mem_waiting_after hh hin).resolve_right ?_
    rintro ⟨price, hput⟩
    have hnone := hclears e he
    rw [hput] at hnone
    cases hnone
  · have hnone := hclears e' (hsub he')
    rw [hput] at hnone
    cases hnone

/--
**What could be matched once and is listed in the end can be matched in the end**, if what
was made terminal was taken out.
-/
theorem Leads.prompt_of_matchable {h : Floor} {next : Action α} (hlead : f.Leads work rest g)
    (hlater : h.Leads next rest g) (hsub : h.since g ⊆ f.since g) (hf : f.index.Tidy)
    (hg : g.Sound) (hcleans : f.Cleans g)
    (hterminal : ∀ o ∈ g.store.orders, o.matchable = false → o.status.terminal = true)
    (hwaits : h.Waits id) (hlisted : id ∈ g.index.waiting side ticker) : g.Waits id := by
  obtain ⟨o, hfind, hmatch⟩ := hwaits
  obtain ⟨p, hfind', rfl, rfl⟩ := hg.mem_waiting hlisted
  refine ⟨p, hfind', ?_⟩
  by_contra hstale
  rw [Bool.not_eq_true] at hstale
  obtain ⟨hp, rfl⟩ := Store.mem_of_find? hfind'
  rcases hlater.mem_orders hp with hin | ⟨e, he, hmade⟩
  · rw [Store.mem_orders_iff.mp hin, Option.some.injEq] at hfind
    rw [hfind, hmatch] at hstale
    cases hstale
  · refine hlead.not_waiting hf hcleans.given hcleans.clears ?_ hlisted
    exact (hcleans.swept e (hsub he) p hmade (hterminal p hp hstale)).resolve_left
      List.not_mem_nil

/-- **Where nothing stale was listed, nothing stale is listed after clean work.** -/
theorem Prompt.of_cleans (h : f.Prompt) (hlead : f.Leads work rest g) (hf : f.index.Tidy)
    (hg : g.Sound) (hcleans : f.Cleans g)
    (hterminal : ∀ o ∈ g.store.orders, o.matchable = false → o.status.terminal = true) :
    g.Prompt := by
  intro side ticker id hlisted
  refine hlead.prompt_of_matchable hlead (List.Subset.refl _) hf hg hcleans hterminal ?_ hlisted
  refine h side ticker id ((hlead.waiting_or hf hlisted).resolve_right ?_)
  rintro ⟨e, he, price, hput⟩
  have hnone := hcleans.clears e he
  rw [hput] at hnone
  cases hnone

/-- What calls that put in nothing leave swept is clean if none of them fails. -/
theorem Leads.cleans {r : Except Failure α} (hlead : f.Leads work (.ended r) g)
    (htraced : work.Traced Clears (fun _ later => Swept [] later) [])
    (hgiven : ∀ e ∈ f.since g, e.refused = false) : f.Cleans g := by
  refine ⟨hgiven, fun e he => ?_, by simpa using htraced.of_ended hlead⟩
  obtain ⟨earlier, -, hclears⟩ := htraced.step_of_mem hlead he
  exact hclears

/-! ### Reconciling -/

theorem Leads.store_of_quiet (hlead : f.Leads work rest g)
    (hquiet : ∀ e ∈ f.since g, e.call.quiet = true) : g.store = f.store := by
  induction hlead with
  | here work f => rfl
  | @call c next f rest g a hmay hlead ih =>
      rw [hlead.since_call] at hquiet
      rw [ih fun e he => hquiet e (List.mem_cons_of_mem _ he)]
      exact storeAfter_of_quiet (hquiet ⟨c, a⟩ List.mem_cons_self) a

/--
**Alone on a floor, reconciling goes by the orders that can be matched**, and it leaves the
store as it was.
-/
theorem Leads.reconciled {rest : Action Unit} (hf : f.store.History scale)
    (hlead : f.Leads (Operation.recover.work scale) rest g) :
    g.store = f.store ∧ ∃ belonging : List Order,
      (∀ o, o ∈ belonging ↔ o ∈ f.store.orders ∧ o.matchable = true) ∧
        ∀ e ∈ f.since g, e.call = .store .live ∨
          ∃ earlier, Reconciliation.Mends belonging earlier e.call := by
  obtain ⟨belonging, n, hsurvey, hbelonging⟩ := hf.survey_live
  have hcalls : ∀ e ∈ f.since g, e.call = .store .live ∨
      ∃ earlier, Reconciliation.Mends belonging earlier e.call := by
    have hlead : f.Leads (reconcile >>= fun _ => done ()) rest g := hlead
    rw [Reconciliation.reconcile_eq] at hlead
    cases hlead with
    | here =>
        rw [since_self]
        exact List.forall_mem_nil _
    | call live hmay hlead =>
        rw [hlead.since_call]
        refine List.forall_mem_cons.mpr ⟨Or.inl rfl, fun e he => Or.inr ?_⟩
        cases live with
        | error e' =>
            cases hlead
            rw [since_self] at he
            cases he
        | ok live =>
            cases (show live = f.store.live from hmay)
            have htraced : (Reconciliation.mend f.store.live >>= fun _ => done ()).Traced
                (Reconciliation.Mends belonging) (fun _ _ => True) [] :=
              (Reconciliation.mend_traced hsurvey fun _ _ _ ⟨_, h, _⟩ => nomatch h).bind
                (fun _ _ _ => trivial) fun _ _ _ => trivial
            obtain ⟨earlier, -, hmends⟩ := htraced.step_of_mem hlead he
            exact ⟨earlier, hmends⟩
  refine ⟨hlead.store_of_quiet fun e he => ?_, belonging, hbelonging, hcalls⟩
  rcases hcalls e he with hlive | ⟨earlier, hmends⟩
  · rw [hlive]
    rfl
  · exact hmends.quiet

/-- Reconciling leaves every order that can be matched in its place. -/
theorem Leads.covers_reconciled {rest : Action Unit} (hf : f.Orderly scale)
    (hlead : f.Leads (Operation.recover.work scale) rest g)
    (hcovers : ∀ o ∈ f.store.orders, f.Covers o.id) : ∀ o ∈ g.store.orders, g.Covers o.id := by
  obtain ⟨hstore, belonging, hbelonging, hcalls⟩ := hlead.reconciled hf.history
  intro o ho
  rw [hstore] at ho
  obtain ⟨p, hfind, hlisted⟩ := hcovers o ho
  rw [Store.mem_orders_iff.mp ho, Option.some.injEq] at hfind
  subst hfind
  refine ⟨o, hstore ▸ Store.mem_orders_iff.mp ho, fun hmatch => ?_⟩
  refine hlead.waiting hf.tidy (hlisted hmatch) fun e he hremoved => ?_
  rcases hcalls e he with hlive | ⟨earlier, hmends⟩
  · rw [hlive] at hremoved
    cases hremoved
  · rw [hremoved] at hmends
    exact hmends.2 (.of_mem ((hbelonging o).mpr ⟨ho, hmatch⟩))

/-- What reconciling puts into the index can be matched. -/
theorem Prompt.reconciled {rest : Action Unit} (h : f.Prompt) (hf : f.Orderly scale)
    (hlead : f.Leads (Operation.recover.work scale) rest g) : g.Prompt := by
  obtain ⟨hstore, belonging, hbelonging, hcalls⟩ := hlead.reconciled hf.history
  intro side ticker id hlisted
  unfold Waits
  rw [hstore]
  rcases hlead.waiting_or hf.tidy hlisted with hin | ⟨e, he, price, hput⟩
  · exact h side ticker id hin
  · rcases hcalls e he with hlive | ⟨earlier, hmends⟩
    · rw [hlive] at hput
      cases hput
    · rw [hput] at hmends
      obtain ⟨o, ho, -, -, rfl⟩ := hmends
      obtain ⟨ho, hmatch⟩ := (hbelonging o).mp ho
      exact ⟨o, Store.mem_orders_iff.mp ho, hmatch⟩

/-! ### A tick brings the mirror back -/

/-- **Nothing stale is left by a tick that gives up no ticker and in which no call fails.** -/
theorem Leads.prompt_of_tick {report : TickReport} (hf : f.Sound)
    (hlead : f.Leads (tick scale) (.done (.completed report)) g) (hwhole : report.tickersFailed = 0)
    (hgiven : ∀ e ∈ f.since g, e.refused = false)
    (hterminal : ∀ o ∈ g.store.orders, o.matchable = false → o.status.terminal = true) :
    g.Prompt := by
  have htraced : (tick scale).Traced Clears _ [] := tick_traced (List.forall_mem_nil _)
  have hlead' : f.Leads (tick scale) (.ended (.ok (.completed report))) g := hlead
  have hcleans : f.Cleans g :=
    hlead'.cleans (htraced.mono (fun _ _ h => h) fun _ _ h => h.1) hgiven
  have hcompleted : Completed (f.since g) := by
    simpa using (htraced.of_ended hlead').2 _ rfl ⟨report, rfl, hwhole⟩
  have hg : g.Sound := (((tick_gives hf) []).of_leads hlead).sound hf
  intro side ticker id hlisted
  -- The ticker was named, the entry was listed and its order was read.
  obtain ⟨named, hnamed, htoured⟩ := hcompleted
  obtain ⟨h, -, hbefore, hmay, -, -, hin⟩ :=
    hlead.split_listed hf.tidy hcleans.clears hlisted hnamed
  cases named with
  | error e => exact nomatch hcleans.given _ hnamed
  | ok tickers =>
      have hticker : ticker ∈ tickers := by
        rw [show tickers = h.index.tickers from hmay]
        exact WaitingIndex.mem_tickers_of_waiting hin
      obtain ⟨listed, hlisting, hvisited⟩ := htoured tickers rfl ticker hticker side
      obtain ⟨h, -, hbefore, hmay, -, -, hin⟩ :=
        hlead.split_listed hf.tidy hcleans.clears hlisted hlisting
      cases listed with
      | error e => exact nomatch hcleans.given _ hlisting
      | ok ids =>
          have hid : id ∈ ids := by
            rw [show ids = h.index.waiting side ticker from hmay]
            exact hin
          obtain ⟨found, hload, hremoved⟩ := hvisited ids rfl id hid
          obtain ⟨h, next, hbefore, hmay, hafter, hsub, hin⟩ :=
            hlead.split_listed hf.tidy hcleans.clears hlisted hload
          cases found with
          | error e => exact nomatch hcleans.given _ hload
          | ok found =>
              have hh : h.Sound := (((tick_gives hf) []).of_leads hbefore).sound hf
              obtain ⟨o, hfind, hside, hticker⟩ := hh.mem_waiting hin
              have hmatch : o.matchable = true := by
                by_contra hstale
                have hfound : found = some o := Eq.trans hmay hfind
                have hremoved := hremoved o (congrArg _ hfound) hticker (by simpa using hstale)
                rw [hside] at hremoved
                exact hlead'.not_waiting hf.tidy hcleans.given hcleans.clears hremoved hlisted
              exact hlead.prompt_of_matchable hafter hsub hf.tidy hg hcleans hterminal
                ⟨o, hfind, hmatch⟩ hlisted

/-! ### Nothing that can be matched goes missing -/

/-- **While the store does not fail, every operation leaves every order covered.** -/
theorem Leads.covers {op : Operation} {r : Except Failure Unit} (hf : f.Orderly scale)
    (hsound : f.Sound) (hlead : f.Leads (op.work scale) (.ended r) g)
    (hstored : ∀ e ∈ f.since g, e.unstored = false)
    (hcovers : ∀ o ∈ f.store.orders, f.Covers o.id) : ∀ o ∈ g.store.orders, g.Covers o.id := by
  by_cases hop : op = .recover
  · subst hop
    exact hlead.covers_reconciled hf hcovers
  · have hamong : (op.work scale).Among _ _ _ _ f := op.work_among hsound
    have hspares : f.Spares g := Operation.gives_within hop (hamong.of_leads hlead)
    have hleaves : op.leaves (f.since g) g := by simpa using hamong.of_ended hlead
    intro o ho
    -- Only a submission places an order, and it has returned.
    have hknown : (∃ p, f.store.find? o.id = some p) ∨ g.Covers o.id := by
      by_cases hwithdraws : f.Withdraws g
      · exact Or.inl (hwithdraws.known o.id o (Store.mem_orders_iff.mp ho))
      · obtain ⟨tradable, request, rfl⟩ :=
          op.submit_of_not_withdraws hop (hamong.of_leads hlead) hwithdraws
        refine (hlead.known_or_placed ho).imp_right fun ⟨p, hid, hplaced⟩ => ?_
        exact hid ▸ hleaves hstored p hplaced
    rcases hknown with ⟨p, hfind⟩ | hcovered
    · obtain ⟨hp, hid⟩ := Store.mem_of_find? hfind
      exact hspares.covers hsound o.id (hid ▸ hcovers p hp)
    · exact hcovered

/-! ### Nothing stale is listed while no call fails -/

/-- Work whose calls do not fail goes on with the answer to its first. -/
theorem Leads.of_call_given {c : Call} {next : c.Answer → Action α} {r : Except Failure α}
    (hlead : f.Leads (.call c next) (.ended r) g) (hgiven : ∀ e ∈ f.since g, e.refused = false) :
    ∃ a, f.May c a ∧ (Answered.mk c a).refused = false ∧
      (f.after c a).Leads (next a) (.ended r) g ∧
      ∀ e ∈ (f.after c a).since g, e.refused = false := by
  obtain ⟨a, hmay, hlead⟩ := hlead.of_call
  rw [hlead.since_call] at hgiven
  obtain ⟨hcall, hrest⟩ := List.forall_mem_cons.mp hgiven
  exact ⟨a, hmay, hcall, hlead, hrest⟩

/-- An order that is placed can be matched. -/
theorem Prompt.submitted {tradable : List String} {request : OrderRequest}
    {r : Except Failure Unit} (h : f.Prompt) (hf : f.index.Tidy)
    (hlead : f.Leads ((Operation.submit tradable request).work scale) (.ended r) g)
    (hgiven : ∀ e ∈ f.since g, e.refused = false) : g.Prompt := by
  have hlead : f.Leads (submit tradable request >>= fun _ => done ()) (.ended r) g := hlead
  unfold submit at hlead
  cases hcheck : request.check tradable with
  | error e =>
      rw [hcheck] at hlead
      obtain ⟨-, rfl⟩ := Leads.of_fail hlead
      exact h
  | ok =>
      rw [hcheck] at hlead
      obtain ⟨time, -, -, hlead, hgiven⟩ := Leads.of_call_given hlead hgiven
      obtain ⟨placed, hplaced, hserved, hlead, hgiven⟩ := Leads.of_call_given hlead hgiven
      cases placed with
      | error e => cases hserved
      | ok o =>
          obtain rfl : o = (f.store.insert request time).1 := hplaced
          obtain ⟨put, -, hserved, hlead, hgiven⟩ := Leads.of_call_given hlead hgiven
          cases put with
          | error e => cases hserved
          | ok =>
              obtain ⟨_, -, -, hlead, -⟩ := Leads.of_call_given hlead hgiven
              obtain ⟨-, rfl⟩ := Leads.of_done hlead
              intro side ticker id hlisted
              have hlisted : id ∈ (f.after (.index (.enqueue request.side request.ticker
                  f.store.nextOrderId request.price)) (.ok ())).index.waiting side ticker := hlisted
              rcases mem_waiting_after hf hlisted with hin | ⟨price, hput⟩
              · obtain ⟨o, hfind, hmatch⟩ := h side ticker id hin
                refine ⟨o, ?_, hmatch⟩
                refine (f.store.find?_insert request time id).trans ((if_neg ?_).trans hfind)
                rintro rfl
                rw [Store.find?_nextOrderId] at hfind
                cases hfind
              · cases hput
                refine ⟨_, (f.store.find?_insert request time _).trans (if_pos rfl), ?_⟩
                exact Order.matchable_iff.mpr
                  ⟨rfl, positive_iff.mp (OrderRequest.positive_of_check hcheck).1⟩

/-- **While no call fails, nothing stale is ever listed.** -/
theorem Reached.prompt (h : f.Reached scale) (hk : k ≤ 28)
    (hgrid : ∀ o ∈ f.store.orders, OnGrid k o.amount.units)
    (hgiven : ∀ e ∈ f.log, e.refused = false) : f.Prompt := by
  induction h with
  | opened => exact fun _ _ _ hlisted => nomatch hlisted
  | @after f g rest hf op hlead hend ih =>
      have hg : g.Reached scale := hf.after op hlead hend
      have hbecomes : f.Becomes g :=
        op.gives.becomes ((op.work_among hf.sound).of_leads hlead)
      rw [log_eq hlead.log, List.forall_mem_append] at hgiven
      have hprompt := ih (hbecomes.grid hgrid) hgiven.1
      obtain ⟨r, rfl⟩ := hend.result
      -- An operation that puts nothing in clears up after itself.
      have hcleaned (htraced : (op.work scale).Traced Clears (fun _ later => Swept [] later) []) :
          g.Prompt :=
        hprompt.of_cleans hlead hf.sound.tidy hg.sound (hlead.cleans htraced hgiven.2)
          fun o ho => hg.orderly.terminal hk hgrid ho
      have hnone : Swept [] [] := List.forall_mem_nil _
      cases op with
      | submit => exact hprompt.submitted hf.sound.tidy hlead hgiven.2
      | recover => exact hprompt.reconciled hf.orderly hlead
      | cancel id => exact hcleaned ((cancel_traced id hnone).bind (fun _ _ h => h) fun _ _ h => h)
      | tick => exact hcleaned ((tick_traced hnone).bind (fun _ _ h => h.1) fun _ _ h => h.1)
      | process id ticker =>
          exact hcleaned ((processOrder_traced id ticker hnone).bind (fun _ _ h => h.1)
            fun _ _ h => h.1)

/-- **While the store does not fail, every order on record is covered.** -/
theorem Reached.covers (h : f.Reached scale) (hstored : ∀ e ∈ f.log, e.unstored = false) :
    ∀ o ∈ f.store.orders, f.Covers o.id := by
  induction h with
  | opened => exact List.forall_mem_nil _
  | @after f g rest hf op hlead hend ih =>
      rw [log_eq hlead.log, List.forall_mem_append] at hstored
      obtain ⟨r, rfl⟩ := hend.result
      exact hlead.covers hf.orderly hf.sound hstored.2 (ih hstored.1)

end Floor

/--
**The index lists exactly what can be matched, and a tick heals it.**  With amounts on a
grid, and the operations one after the other: while no call has failed, the index mirrors
the store after every one of them, whatever it ended in.  If calls on the index have
failed, it does so again after any tick that is completed, gives up no ticker and meets no
failing call.
-/
theorem Floor.Reached.mirrors (h : f.Reached scale) (hk : k ≤ 28)
    (hgrid : ∀ o ∈ f.store.orders, OnGrid k o.amount.units)
    (hstored : ∀ e ∈ f.log, e.unstored = false) :
    ((∀ e ∈ f.log, e.refused = false) → f.Mirrors) ∧
      ∀ {g : Floor} {report : TickReport},
        f.Leads (tick scale) (.done (.completed report)) g → report.tickersFailed = 0 →
        (∀ e ∈ f.since g, e.refused = false) → g.Mirrors := by
  have hcovers := h.covers hstored
  refine ⟨fun hgiven => (h.prompt hk hgrid hgiven).mirrors_of_covers h.sound hcovers, ?_⟩
  intro g report hlead hwhole hgiven
  have htrades : f.Trades g := ((tick_gives h.sound) []).of_leads hlead
  have hg : g.Orderly scale := ((tick_keeps f h.orderly).of_leads hlead h.orderly).1
  have hprompt : g.Prompt := hlead.prompt_of_tick h.sound hwhole hgiven fun o ho =>
    hg.terminal hk (htrades.grid hgrid) ho
  refine hprompt.mirrors_of_covers (htrades.sound h.sound) fun o ho => ?_
  obtain ⟨p, hfind⟩ := htrades.known o.id o (Store.mem_orders_iff.mp ho)
  obtain ⟨hp, hid⟩ := Store.mem_of_find? hfind
  exact htrades.covers h.sound o.id (hid ▸ hcovers p hp)

/-- Two orders at the greatest price there is: their fill has a value for which there is no room. -/
def Floor.unaffordable : Floor :=
  session 2 .epoch [.order .buy .greatest (.ofDigits 2 0), .order .sell .greatest (.ofDigits 2 0)]

/-- What a floor answers on which no entry can be taken out of the index. -/
def Floor.clinging (f : Floor) : (c : Call) → c.Answer
  | .index (.remove ..) => .error (.indexUnavailable "")
  | c => f.grant .epoch c

theorem Floor.may_clinging (f : Floor) (c : Call) : f.May c (f.clinging c) := by
  unfold clinging
  split
  · trivial
  · exact f.may_grant .epoch _

/-- Two orders that meet and two that do not. -/
def Floor.fourOrders : Floor :=
  session 2 .epoch [.order .buy (.ofDigits 1 0) (.ofDigits 25 1),
    .order .sell (.ofDigits 1 0) (.ofDigits 25 1), .order .buy (.ofDigits 5 1) (.ofDigits 3 0),
    .order .sell (.ofDigits 2 0) (.ofDigits 4 0)]

/-- Two of them are filled and one is cancelled, and none of these leaves the index. -/
def Floor.outage : Floor :=
  ((fourOrders.answering clinging (Operation.tick.work 2)).2.answering clinging
    ((Operation.cancel 3).work 2)).2

theorem Floor.reached_outage : outage.Reached 2 := by
  have hended {α : Type} (r : Except Failure α) : (Action.ended r).Ended := by
    cases r <;> trivial
  have hplaced : fourOrders.Reached 2 := reached_session _ _ _
  exact (hplaced.after .tick (leads_answering may_clinging _ _) (hended _)).after (.cancel 3)
    (leads_answering may_clinging _ _) (hended _)

/-- Turns that fail spoil nothing, and three stale entries are gone after one tick. -/
theorem Floor.mirrors_outage :
    ((unaffordable.perform .epoch (tick 2)).1 = .ok (.completed ⟨1, 0, 2, 2, 0, .zero⟩) ∧
      (unaffordable.perform .epoch (Operation.tick.work 2)).2.Mirrors) ∧
    outage.Reached 2 ∧ (∀ o ∈ outage.store.orders, OnGrid 1 o.amount.units) ∧
      (∀ e ∈ outage.log, e.unstored = false) ∧
      (∀ id ∈ [1, 3], id ∈ outage.index.waiting .buy "X" ∧
        ∀ o ∈ outage.store.orders, o.id = id → o.matchable = false) ∧
      (outage.perform .epoch (tick 2)).1 = .ok (.completed ⟨1, 0, 4, 0, 0, .zero⟩) ∧
        (outage.perform .epoch (tick 2)).2.Mirrors := by
  have hgrid : ∀ o ∈ outage.store.orders, OnGrid 1 o.amount.units :=
    Store.onGrid_of_places (by decide) (by decide +kernel)
  have hstored : ∀ e ∈ outage.log, e.unstored = false := by decide +kernel
  refine ⟨?_, reached_outage, hgrid, hstored, by decide +kernel, ?_⟩
  · have hreached : (unaffordable.perform .epoch (Operation.tick.work 2)).2.Reached 2 :=
      reached_session 2 .epoch [.order .buy .greatest (.ofDigits 2 0),
        .order .sell .greatest (.ofDigits 2 0), .tick]
    have hgiven : ∀ e ∈ (unaffordable.perform .epoch (Operation.tick.work 2)).2.log,
        e.refused = false := by decide +kernel
    have hgrid' : ∀ o ∈ (unaffordable.perform .epoch (Operation.tick.work 2)).2.store.orders,
        OnGrid 1 o.amount.units := Store.onGrid_of_places (by decide) (by decide +kernel)
    exact ⟨by decide +kernel,
      (Floor.Reached.mirrors hreached (by decide) hgrid' (by decide +kernel)).1 hgiven⟩
  · have hreport : (outage.perform .epoch (tick 2)).1 =
        .ok (.completed ⟨1, 0, 4, 0, 0, .zero⟩) := by decide +kernel
    refine ⟨hreport, ?_⟩
    have hlead := outage.leads_perform .epoch (tick 2)
    rw [hreport] at hlead
    exact (Floor.Reached.mirrors reached_outage (by decide) hgrid hstored).2 hlead rfl
      (by decide +kernel)

end Bourse
