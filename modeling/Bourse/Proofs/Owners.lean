/-
Orders are placed whole or not at all, and cancelled likewise.

An owner's request goes through several calls, and a call on the index may fail in
between.  So there are moments at which an order is on record and not listed, or cancelled
and still listed.  What counts is what the owner is told at the end.  `Submits` says it
for placing and `Cancels` for cancelling: the store, the books and the counters are shown
as they were before and as they are after, for every answer there can be.

An order that could not be listed stays on record, but it is cancelled, and there is no
call that fills a cancelled order.  That is why `Retracted` can speak of all that follows,
whoever makes the calls.
-/
import Bourse.Proofs.Beside
import Bourse.Proofs.Counters
import Bourse.Proofs.Shared

namespace Bourse

open Bourse.Action

variable {scale : Nat}

/-! ### What becomes of the store, the books and the counters -/

/-- Only a request that may not be made is told to be invalid. -/
theorem OrderRequest.check_error {r : OrderRequest} {tradable : List String} {e : Error}
    (h : r.check tradable = .error e) : ∃ reason, e = .invalidOrder reason := by
  unfold check at h
  split_ifs at h <;> cases h <;> exact ⟨_, rfl⟩

/--
Was a call on the index refused as if an owner's request had been at fault?  All that an
index has to say when it refuses a call is that it is not available.
-/
def Answered.blamesRequest : Answered → Bool
  | ⟨.index _, .error (.invalidOrder _)⟩ => true
  | _ => false

/-- An order that is cancelled as soon as it is placed stands at the end of the record. -/
theorem Store.cancel_insert (s : Store) (request : OrderRequest) (placed time : Instant) :
    let o := (s.insert request placed).1
    let s' := ((s.insert request placed).2.cancel o.id time).2
    s'.orders = s.orders ++ [cancelled o time] ∧ s'.executions = s.executions := by
  intro o s'
  have hfind : (s.insert request placed).2.find? o.id = some o :=
    (find?_insert s request placed o.id).trans (if_pos rfl)
  have hs' : s' = (s.insert request placed).2.replace (cancelled o time) := by
    show ((s.insert request placed).2.cancel o.id time).2 = _
    unfold cancel
    rw [hfind]
    rfl
  -- The orders that were there before have other identifiers.
  have hbefore : (s.orders.map fun x => if x.id = o.id then cancelled o time else x) = s.orders :=
    (List.map_congr_left fun x hx => if_neg (Int.ne_of_lt (s.fresh x hx))).trans (List.map_id' _)
  rw [hs']
  refine ⟨?_, rfl⟩
  show (s.orders ++ [o]).map _ = _
  rw [List.map_append]
  exact congrArg₂ _ hbefore (by simp [cancelled])

namespace Floor

variable {f g h : Floor}

theorem metrics_after (f : Floor) (c : Call) (a : c.Answer) :
    (f.after c a).metrics = f.metrics.serve ⟨c, a⟩ := by
  unfold metrics Metrics.after
  rw [after_log, List.foldl_append]
  rfl

/-- Whatever is called, what is terminal and what is on the ledger lasts. -/
theorem lasts_after (f : Floor) (c : Call) (a : c.Answer) : f.store.Lasts (f.after c a).store := by
  cases c with
  | store c =>
      cases a with
      | error e => exact .refl _
      | ok a => exact .perform f.store c
  | _ => exact .refl _

theorem Leads.lasts {α : Type} {work rest : Action α} (hlead : f.Leads work rest g) :
    f.store.Lasts g.store := by
  induction hlead with
  | here => exact .refl _
  | call a hmay _ ih => exact (lasts_after _ _ a).trans ih

theorem Way.lasts (h : f.Way g) : f.store.Lasts g.store := by
  obtain ⟨work, hlead⟩ := h
  exact hlead.lasts

/-- An order that is yet to be placed is in no book. -/
theorem Sound.ne_next (h : f.Sound) {side : Side} {ticker : String} {k : IndexKey}
    (hk : k ∈ f.index.keys side ticker) : k.order ≠ f.store.nextOrderId := by
  obtain ⟨o, hfind, -⟩ := h.filed side ticker k hk
  obtain ⟨ho, hid⟩ := Store.mem_of_find? hfind
  rw [← hid]
  exact Int.ne_of_lt (f.store.fresh o ho)

/-! ### Placing -/

/-- The order was placed: it is open, nothing of it is executed, and it is listed at its price. -/
structure Submitted (f : Floor) (request : OrderRequest) (o : Order) (g : Floor) : Prop where
  orders : g.store.orders = f.store.orders ++ [o]
  request : o.request = request
  status : o.status = .live
  remaining : o.remainingAmount = o.amount
  executions : g.store.executions = f.store.executions
  /-- The key of the order is the only one that is new. -/
  keys : ∀ side ticker k, k ∈ g.index.keys side ticker ↔ k ∈ f.index.keys side ticker ∨
    (side, ticker) = (o.side, o.ticker) ∧ k = .ofPrice o.side o.price o.id
  metrics : g.metrics = f.metrics.count .submitted

/-- The order could not be listed: it is cancelled, and nothing else has become of it. -/
structure Retracted (f : Floor) (request : OrderRequest) (o : Order) (g : Floor) : Prop where
  orders : g.store.orders = f.store.orders ++ [o]
  request : o.request = request
  status : o.status = .cancelled
  executions : g.store.executions = f.store.executions
  index : g.index = f.index
  metrics : g.metrics = f.metrics
  /-- It has no execution, and gets none whatever is called from now on. -/
  never : ∀ h, g.Way h → h.store.find? o.id = some o ∧ h.store.executionsOf o.id = []

/-- What has come of a request to place an order, going by the answer. -/
structure Submits (f : Floor) (tradable : List String) (request : OrderRequest)
    (r : Except Failure Order) (g : Floor) : Prop where
  invalid_iff : (∃ reason, r = .error (.error (.invalidOrder reason))) ↔
    request.check tradable ≠ .ok ()
  outcome : match r with
    | .ok o => f.Submitted request o g
    | .error (.error (.invalidOrder _)) => g = f
    | .error (.error _) => ∃ o, f.Retracted request o g
    | .error (.overflow _) => False

/-- The three ways in which a request to place an order can end, if the store does not fail. -/
theorem submit_cases {tradable : List String} {request : OrderRequest} {r : Except Failure Order}
    (hlead : f.Leads (submit tradable request) (.ended r) g)
    (hstore : ∀ x ∈ f.since g, x.unstored = false)
    (hindex : ∀ x ∈ f.since g, x.blamesRequest = false) :
    (∃ reason, request.check tradable = .error (.invalidOrder reason) ∧
      r = .error (.error (.invalidOrder reason)) ∧ g = f) ∨
    request.check tradable = .ok () ∧ ∃ placed o, o = (f.store.insert request placed).1 ∧
      ((r = .ok o ∧ g.store = (f.store.insert request placed).2 ∧
        g.index = f.index.enqueue o.side o.ticker o.id o.price ∧
        g.metrics = f.metrics.count .submitted) ∨
      ∃ e time, (∀ reason, e ≠ .invalidOrder reason) ∧ r = .error (.error e) ∧
        g.store = ((f.store.insert request placed).2.cancel o.id time).2 ∧ g.index = f.index ∧
        g.metrics = f.metrics) := by
  unfold submit at hlead
  cases hcheck : request.check tradable with
  | error e =>
      obtain ⟨reason, rfl⟩ := OrderRequest.check_error hcheck
      rw [hcheck] at hlead
      obtain ⟨rfl, rfl⟩ := hlead.of_fail
      exact Or.inl ⟨reason, rfl, rfl, rfl⟩
  | ok =>
      refine Or.inr ⟨rfl, ?_⟩
      rw [hcheck] at hlead
      obtain ⟨placed, -, hlead⟩ := Leads.of_call (c := .now) hlead
      rw [hlead.since_call] at hstore hindex
      obtain ⟨a, hmay, hlead⟩ := Leads.of_call (c := .store (.insert request placed)) hlead
      rw [hlead.since_call] at hstore hindex
      cases a with
      | error e => exact absurd (by simp) (not_refused hstore (.insert request placed) e)
      | ok o =>
          obtain rfl : o = (f.store.insert request placed).1 := hmay
          refine ⟨placed, _, rfl, ?_⟩
          obtain ⟨put, -, hlead⟩ := Leads.of_call (c := .index (.enqueue _ _ _ _)) hlead
          rw [hlead.since_call] at hstore hindex
          cases put with
          | ok =>
              obtain ⟨counted, -, hlead⟩ := Leads.of_call (c := .count .submitted) hlead
              obtain ⟨rfl, rfl⟩ := hlead.of_done
              exact Or.inl ⟨rfl, rfl, rfl, by simp only [metrics_after, Metrics.serve]⟩
          | error e =>
              have hne : ∀ reason, e ≠ .invalidOrder reason := by
                rintro reason rfl
                exact Bool.noConfusion (hindex _ (.tail _ (.tail _ (.head _))))
              obtain ⟨time, -, hlead⟩ := Leads.of_call (c := .now) hlead
              rw [hlead.since_call] at hstore
              obtain ⟨found, hfound, hlead⟩ := Leads.of_call (c := .store (.cancel _ time)) hlead
              rw [hlead.since_call] at hstore
              cases found with
              | error e =>
                  exact absurd (by simp)
                    (not_refused hstore (.cancel (f.store.insert request placed).1.id time) e)
              | ok found =>
                  obtain ⟨rfl, rfl⟩ := hlead.of_fail
                  exact Or.inr ⟨e, time, hne, rfl, rfl, rfl,
                    by simp only [metrics_after, Metrics.serve]⟩

/-- What follows on the withdrawal of an order that was not listed. -/
theorem Seen.retracted (hf : f.Seen scale) {request : OrderRequest} {placed time : Instant}
    {o : Order} (ho : o = (f.store.insert request placed).1)
    (hstore : g.store = ((f.store.insert request placed).2.cancel o.id time).2)
    (hindex : g.index = f.index) (hmetrics : g.metrics = f.metrics) :
    f.Retracted request (Store.cancelled o time) g := by
  subst ho
  obtain ⟨horders, hexecutions⟩ := f.store.cancel_insert request placed time
  rw [← hstore] at horders hexecutions
  refine ⟨horders, rfl, rfl, hexecutions, hindex, hmetrics, fun h hway => ?_⟩
  have ho : Store.cancelled (f.store.insert request placed).1 time ∈ g.store.orders := by
    rw [horders]
    exact List.mem_append_right _ (List.mem_singleton_self _)
  obtain ⟨hfound, hsame⟩ := hway.lasts.untouched (Store.mem_orders_iff.mp ho) rfl
  refine ⟨hfound, hsame.trans ?_⟩
  unfold Store.executionsOf
  rw [hexecutions]
  exact hf.orderly.history.executionsOf_next

/-- **An order is placed, or withdrawn, or there is no trace of it.** -/
theorem Seen.submits (hf : f.Seen scale) {tradable : List String} {request : OrderRequest}
    {r : Except Failure Order} (hlead : f.Leads (submit tradable request) (.ended r) g)
    (hstore : ∀ x ∈ f.since g, x.unstored = false)
    (hindex : ∀ x ∈ f.since g, x.blamesRequest = false) :
    f.Submits tradable request r g := by
  rcases submit_cases hlead hstore hindex with ⟨reason, hcheck, rfl, rfl⟩ |
    ⟨hcheck, placed, o, rfl, ⟨rfl, hplaced, hlisted, hcounted⟩ |
      ⟨e, time, hne, rfl, hwithdrawn, hsame, hcounted⟩⟩
  · exact ⟨by simp [hcheck], rfl⟩
  · refine ⟨by simp [hcheck], ?_⟩
    refine ⟨by rw [hplaced]; rfl, rfl, rfl, rfl, by rw [hplaced]; rfl, fun side ticker k => ?_,
      hcounted⟩
    rw [hlisted]
    refine hf.orderly.tidy.mem_keys_enqueue.trans (or_comm.trans ?_)
    exact or_congr_left (and_iff_left_of_imp fun hk _ => hf.sound.ne_next hk)
  · refine ⟨by simp [hcheck, hne], ?_⟩
    have hretracted := hf.retracted rfl hwithdrawn hsame hcounted
    cases e with
    | invalidOrder reason => exact absurd rfl (hne reason)
    | _ => exact ⟨_, hretracted⟩

/-! ### Cancelling -/

/-- Nothing was written, taken out or counted. -/
structure Unmoved (f g : Floor) : Prop where
  store : g.store = f.store
  index : g.index = f.index
  metrics : g.metrics = f.metrics

/-- The order was cancelled, and taken out of the books unless that call has failed. -/
structure Revoked (f : Floor) (o p : Order) (g : Floor) : Prop where
  cancelled : ∃ time, p = { o with status := .cancelled, updatedAt := time }
  store : g.store = f.store.replace p
  books : ∃ answer, ⟨.index (.remove o.side o.ticker o.id), answer⟩ ∈ f.since g ∧
    match answer with
    | .ok _ => ∀ side ticker k, k ∈ g.index.keys side ticker ↔ k ∈ f.index.keys side ticker ∧
        ((side, ticker) = (o.side, o.ticker) → k.order ≠ o.id)
    | .error _ => g.index = f.index
  metrics : g.metrics = f.metrics.count .cancelled

/-- What has come of a request to cancel an order, and when it is answered how. -/
structure Cancels (f : Floor) (id : OrderId) (r : Except Failure Order) (g : Floor) : Prop where
  ok_iff : (∃ p, r = .ok p) ↔ ∃ o, f.store.find? id = some o ∧ o.status.terminal = false
  notFound_iff : (∃ id', r = .error (.error (.orderNotFound id'))) ↔ f.store.find? id = none
  refused_iff : (∃ id' source target, r = .error (.error (.invalidTransition id' source target))) ↔
    ∃ o, f.store.find? id = some o ∧ o.status.terminal = true
  revoked : ∀ p, r = .ok p → ∃ o, f.store.find? id = some o ∧ f.Revoked o p g
  unmoved : ∀ e, r = .error e → f.Unmoved g

/-- What the calls leave that cancel an order, take it out of the books and count it. -/
theorem revoked_after (ht : f.index.Tidy) {id : OrderId} {time : Instant} {o p : Order}
    (hp : p = Store.cancelled o time)
    (hcancel : f.store.cancel id time = (some p, f.store.replace p))
    (removed : Except Error Bool) :
    f.Revoked o p ((((f.after .now time).after (.store (.cancel id time)) (.ok (some p))).after
      (.index (.remove p.side p.ticker p.id)) removed).after (.count .cancelled) ()) := by
  subst hp
  refine ⟨⟨time, rfl⟩, congrArg Prod.snd hcancel, ⟨removed, ?_, ?_⟩, ?_⟩
  · rw [since_eq (by simp only [after_log, List.append_assoc]; rfl)]
    exact .tail _ (.tail _ (.head _))
  · cases removed with
    | ok removed => exact fun side ticker k => ht.mem_keys_remove
    | error e => rfl
  · simp only [metrics_after, Metrics.serve]

/-- The three ways in which a request to cancel an order can end, if the store does not fail. -/
theorem cancel_cases (ht : f.index.Tidy) {id : OrderId} {r : Except Failure Order}
    (hlead : f.Leads (cancel id) (.ended r) g) (hstore : ∀ x ∈ f.since g, x.unstored = false) :
    (∃ o p, f.store.find? id = some o ∧ o.status.terminal = false ∧ r = .ok p ∧ f.Revoked o p g) ∨
    (f.store.find? id = none ∧ r = .error (.error (.orderNotFound id)) ∧ f.Unmoved g) ∨
    ∃ o, f.store.find? id = some o ∧ o.status.terminal = true ∧
      r = .error (.error (o.refusedMove .cancelled)) ∧ f.Unmoved g := by
  unfold cancel at hlead
  obtain ⟨time, -, hlead⟩ := Leads.of_call (c := .now) hlead
  rw [hlead.since_call] at hstore
  obtain ⟨a, hmay, hlead⟩ := Leads.of_call (c := .store (.cancel id time)) hlead
  rw [hlead.since_call] at hstore
  cases a with
  | error e => exact absurd (by simp) (not_refused hstore (.cancel id time) e)
  | ok found =>
      rcases f.store.cancel_cases id time with ⟨o, hfind, hlive, hcancel⟩ | hcancel
      · refine Or.inl ⟨o, Store.cancelled o time, hfind, hlive, ?_⟩
        obtain rfl : found = some (Store.cancelled o time) := hmay.trans (congrArg Prod.fst hcancel)
        obtain ⟨removed, -, hlead⟩ := Leads.of_call (c := .index (.remove _ _ _)) hlead
        cases removed with
        | ok removed =>
            obtain ⟨counted, -, hlead⟩ := Leads.of_call (c := .count .cancelled) hlead
            obtain ⟨rfl, rfl⟩ := hlead.of_done
            exact ⟨rfl, revoked_after ht rfl hcancel (.ok removed)⟩
        | error e =>
            obtain ⟨counted, -, hlead⟩ := Leads.of_call (c := .count .cancelled) hlead
            obtain ⟨rfl, rfl⟩ := hlead.of_done
            exact ⟨rfl, revoked_after ht rfl hcancel (.error e)⟩
      · refine Or.inr ?_
        obtain rfl : found = none := hmay.trans (congrArg Prod.fst hcancel)
        obtain ⟨b, hread, hlead⟩ := Leads.of_call (c := .store (.load id)) hlead
        rw [hlead.since_call] at hstore
        cases b with
        | error e => exact absurd (by simp) (not_refused hstore (.load id) e)
        | ok current =>
            have hunmoved : f.Unmoved (((f.after .now time).after (.store (.cancel id time))
                (.ok none)).after (.store (.load id)) (.ok current)) :=
              ⟨congrArg Prod.snd hcancel, rfl, by simp only [metrics_after, Metrics.serve]⟩
            have hcurrent : current = f.store.find? id :=
              hread.trans (congrArg (fun x : Option Order × Store => x.2.find? id) hcancel)
            cases current with
            | none =>
                obtain ⟨rfl, rfl⟩ := hlead.of_fail
                exact Or.inl ⟨hcurrent.symm, rfl, hunmoved⟩
            | some o =>
                have hterminal : o.status.terminal = true := by
                  have hfound : (f.store.cancel id time).2.find? id = some o := by
                    rw [hcancel]
                    exact hcurrent.symm
                  exact Store.terminal_cancel hfound
                have hrefused : o.checkMove .cancelled = .error (o.refusedMove .cancelled) := by
                  unfold Order.checkMove
                  rw [OrderStatus.canBecome_of_terminal hterminal]
                  rfl
                have hlead : Leads (Action.ofExcept (o.checkMove .cancelled) >>= _) _ _ _ := hlead
                rw [hrefused] at hlead
                obtain ⟨rfl, rfl⟩ := hlead.of_fail
                exact Or.inr ⟨o, hcurrent.symm, hterminal, rfl, hunmoved⟩

/-- **A cancellation is answered for what it finds**, and changes nothing if it is refused. -/
theorem cancels (ht : f.index.Tidy) {id : OrderId} {r : Except Failure Order}
    (hlead : f.Leads (cancel id) (.ended r) g) (hstore : ∀ x ∈ f.since g, x.unstored = false) :
    f.Cancels id r g := by
  rcases cancel_cases ht hlead hstore with ⟨o, p, hfind, hlive, rfl, hrevoked⟩ |
    ⟨hfind, rfl, hunmoved⟩ | ⟨o, hfind, hterminal, rfl, hunmoved⟩
  · refine ⟨⟨fun _ => ⟨o, hfind, hlive⟩, fun _ => ⟨p, rfl⟩⟩, by simp [hfind],
      by simp [hfind, hlive], ?_, nofun⟩
    rintro _ ⟨⟩
    exact ⟨o, hfind, hrevoked⟩
  · exact ⟨by simp [hfind], ⟨fun _ => hfind, fun _ => ⟨id, rfl⟩⟩, by simp [hfind],
      fun _ h => (nomatch h), fun _ _ => hunmoved⟩
  · exact ⟨by simp [hfind, hterminal], ⟨nofun, fun hnone => nomatch hfind.symm.trans hnone⟩,
      ⟨fun _ => ⟨o, hfind, hterminal⟩, fun _ => ⟨_, _, _, rfl⟩⟩, fun _ h => (nomatch h),
      fun _ _ => hunmoved⟩

/-! ### Both -/

/--
**Orders are placed whole or not at all, and cancelled likewise**, whatever calls on the
index fail, if those on the store do not.
-/
theorem Seen.whole (hf : f.Seen scale) :
    (∀ tradable request r g, f.Leads (submit tradable request) (.ended r) g →
      (∀ x ∈ f.since g, x.unstored = false) →
      (∀ x ∈ f.since g, x.blamesRequest = false) →
        f.Submits tradable request r g) ∧
    ∀ id r g, f.Leads (cancel id) (.ended r) g → (∀ x ∈ f.since g, x.unstored = false) →
      f.Cancels id r g :=
  ⟨fun _ _ _ _ hlead hstore hindex => hf.submits hlead hstore hindex,
    fun _ _ _ hlead hstore => cancels hf.orderly.tidy hlead hstore⟩

/-- A floor with one order, and a request to place another. -/
def oneOffer : Floor := session 2 .epoch [.order .sell (.ofDigits 1 0) (.ofDigits 5 0)]

/-- A request to place the order that would trade with it. -/
def taker : OrderRequest := ⟨"X", .buy, .ofDigits 1 0, .ofDigits 3 0⟩

/-- One order is listed and one is not, the first is cancelled, and a third is not to be found. -/
theorem whole_oneOffer :
    let placed := oneOffer.perform .epoch (submit [] taker)
    let refused := oneOffer.answering full (submit [] taker)
    let revoked := oneOffer.perform .epoch (cancel 1)
    let missed := oneOffer.perform .epoch (cancel 3)
    (placed.1.isOk = true ∧ oneOffer.Submits [] taker placed.1 placed.2) ∧
    ((refused.1.isOk = false ∧ refused.2.store.orders.map (·.status) = [.live, .cancelled]) ∧
      oneOffer.Submits [] taker refused.1 refused.2) ∧
    ((revoked.1.isOk = true ∧ revoked.2.metrics.ordersCancelled = 1) ∧
      oneOffer.Cancels 1 revoked.1 revoked.2) ∧
    (missed.1.isOk = false ∧ oneOffer.Cancels 3 missed.1 missed.2) := by
  intro placed refused revoked missed
  obtain ⟨hsubmit, hcancel⟩ := (reached_session 2 .epoch
    [.order .sell (.ofDigits 1 0) (.ofDigits 5 0)]).seen.whole
  exact ⟨⟨by decide +kernel, hsubmit _ _ _ _ (leads_perform _ _ _) (by decide +kernel)
      (by decide +kernel)⟩,
    ⟨by decide +kernel, hsubmit _ _ _ _ (leads_answering may_full _ _) (by decide +kernel)
      (by decide +kernel)⟩,
    ⟨by decide +kernel, hcancel _ _ _ (leads_perform _ _ _) (by decide +kernel)⟩,
    ⟨by decide +kernel, hcancel _ _ _ (leads_perform _ _ _) (by decide +kernel)⟩⟩

end Floor

end Bourse
