/-
Every floor that can be seen is orderly.

Each operation is followed call by call, and each keeps a floor orderly after every one
of its calls.  Matching an order was the hard one.  Reconciling and what a tick does
around its turns never write to the store; placing and cancelling an order write to it
once, or twice when an order cannot be indexed and is withdrawn.
-/
import Bourse.Proofs.Matching

namespace Bourse

variable {scale : Nat}

namespace Action

theorem keeps_done {α : Type} (a : α) : (done a).Keeps scale := fun _ _ => trivial

theorem keeps_fail {α : Type} (e : Failure) : (fail e : Action α).Keeps scale := fun _ _ => trivial

theorem keeps_ofExcept {α : Type} (r : Except Error α) : (ofExcept r).Keeps scale := by
  cases r <;> exact fun _ _ => trivial

theorem keeps_total {α : Type} (o : Overflow) (a : Option α) : (total o a).Keeps scale := by
  cases a <;> exact fun _ _ => trivial

theorem keeps_index (c : IndexCall) : (index c).Keeps scale := (quiet_index c).keeps

/-- A call that does not write to the store, followed by work that keeps a floor orderly. -/
theorem keeps_call {α : Type} {c : Call} (hc : c.quiet = true) {rest : c.Answer → Action α}
    (h : ∀ a, (rest a).Keeps scale) : (call c rest).Keeps scale :=
  fun _ hf a _ => ⟨hf.of_quiet hc a, h a _ (hf.of_quiet hc a)⟩

theorem keeps_load (id : OrderId) : (store (.load id)).Keeps scale :=
  keeps_call rfl fun a => by cases a <;> exact fun _ _ => trivial

theorem keeps_cancel (id : OrderId) (time : Instant) :
    (store (.cancel id time)).Keeps scale := by
  intro f hf a hmay
  cases a with
  | error e => exact ⟨hf.of_failed _ e, trivial⟩
  | ok a =>
      cases (show a = (f.store.perform (.cancel id time)).1 from hmay)
      exact ⟨hf.cancel id time, trivial⟩

theorem keeps_insert {request : OrderRequest} (hamount : request.amount.positive = true)
    (hprice : request.price.positive = true) (time : Instant) :
    (store (.insert request time)).Keeps scale := by
  intro f hf a hmay
  cases a with
  | error e => exact ⟨hf.of_failed _ e, trivial⟩
  | ok a =>
      cases (show a = (f.store.perform (.insert request time)).1 from hmay)
      exact ⟨hf.place hamount hprice, trivial⟩

end Action

open Bourse.Action

/-! ### Owners -/

theorem OrderRequest.positive_of_check {r : OrderRequest} {tradable : List String}
    (h : r.check tradable = .ok ()) : r.amount.positive = true ∧ r.price.positive = true := by
  unfold check at h
  split at h
  · cases h
  · split at h
    · cases h
    · split at h
      · cases h
      · split at h
        · cases h
        · simp_all

theorem submit_keeps (tradable : List String) (request : OrderRequest) :
    (submit tradable request).Keeps scale := by
  unfold submit
  cases hcheck : request.check tradable with
  | error e => exact keeps_fail _
  | ok =>
      obtain ⟨hamount, hprice⟩ := OrderRequest.positive_of_check hcheck
      refine keeps_call rfl fun createdAt => ?_
      refine (keeps_insert hamount hprice createdAt).bind fun o => ?_
      refine (keeps_index _).attemptError.bind fun r => ?_
      cases r with
      | ok => exact keeps_call rfl fun _ => keeps_done o
      | error e =>
          -- It could not be indexed, so it is withdrawn.
          refine keeps_call rfl fun time => ?_
          exact (keeps_cancel o.id time).attempt.bind fun _ => keeps_fail _

theorem cancel_keeps (id : OrderId) : (cancel id).Keeps scale := by
  unfold cancel
  refine keeps_call rfl fun time => (keeps_cancel id time).bind fun o => ?_
  cases o with
  | some o =>
      exact (keeps_index _).attempt.bind fun _ => keeps_call rfl fun _ => keeps_done o
  | none =>
      refine (keeps_load id).bind fun o => ?_
      cases o with
      | none => exact keeps_fail _
      | some o => exact (keeps_ofExcept _).bind fun _ => keeps_fail _

/-! ### A tick -/

theorem processOrder_keeps (id : OrderId) (ticker : String) :
    (processOrder scale id ticker).Keeps scale :=
  fun _ hf => (processOrder_ensures hf id ticker).mono (fun _ _ _ _ => trivial) hf

theorem drainOrders_keeps (ticker : String) (ids : List OrderId) (r : TickReport) :
    (drainOrders scale ticker ids r).Keeps scale := by
  induction ids generalizing r with
  | nil => exact keeps_done r
  | cons id ids ih =>
      unfold drainOrders
      refine keeps_call rfl fun _ => (processOrder_keeps id ticker).attemptError.bind fun turn => ?_
      cases turn with
      | ok report =>
          exact (keeps_total _ _).bind fun filled => (keeps_total _ _).bind fun amount => ih _
      | error e => exact keeps_call rfl fun _ => ih _

theorem drainSide_keeps (ticker : String) (side : Side) (r : TickReport) :
    (drainSide scale ticker side r).Keeps scale := by
  unfold drainSide
  refine (keeps_index _).attemptError.bind fun ids => ?_
  cases ids with
  | ok ids => exact drainOrders_keeps ticker ids r
  | error e => exact keeps_done _

theorem drainTicker_keeps (ticker : String) : (drainTicker scale ticker).Keeps scale :=
  (drainSide_keeps ticker .buy _).bind fun r => drainSide_keeps ticker .sell r

theorem drainTickers_keeps (tickers : List String) :
    (drainTickers scale tickers).Keeps scale := by
  induction tickers with
  | nil => exact keeps_done _
  | cons ticker tickers ih =>
      exact (drainTicker_keeps ticker).attempt.bind fun r => ih.bind fun rs => keeps_done _

theorem tick_keeps : (tick scale).Keeps scale := by
  have hpass : (tickPass scale).Keeps scale := by
    unfold tickPass
    refine (keeps_index _).attemptError.bind fun tickers => ?_
    cases tickers with
    | error e => exact keeps_call rfl fun _ => keeps_done _
    | ok tickers =>
        refine (drainTickers_keeps tickers).bind fun passes => (keeps_total _ _).bind fun r => ?_
        exact keeps_call rfl fun _ => keeps_done _
  unfold tick
  refine keeps_call rfl fun time => keeps_call rfl fun isOpen => ?_
  cases isOpen with
  | false => exact keeps_call rfl fun _ => keeps_done _
  | true =>
      refine keeps_call rfl fun begun => ?_
      cases begun with
      | false => exact keeps_call rfl fun _ => keeps_done _
      | true =>
          refine hpass.attempt.bind fun outcome => keeps_call rfl fun _ => ?_
          cases outcome with
          | ok outcome => exact keeps_done _
          | error e => exact keeps_fail _

/-! ### Reconciliation -/

open Reconciliation in
theorem mendTickers_keeps (belonging : List Order) (tickers : List String) :
    (mendTickers belonging tickers).Keeps scale := by
  have henqueue (side : Side) (ticker : String) (os : List Order) :
      (enqueueAll side ticker os).Keeps scale := by
    induction os with
    | nil => exact keeps_done ()
    | cons o os ih => exact (keeps_index _).bind fun _ => ih
  have hremove (side : Side) (ticker : String) (ids : List OrderId) :
      (removeAll side ticker ids).Keeps scale := by
    induction ids with
    | nil => exact keeps_done 0
    | cons id ids ih => exact (keeps_index _).bind fun _ => ih.bind fun _ => keeps_done _
  have hbook (side : Side) (ticker : String) : (mendBook belonging side ticker).Keeps scale :=
    (keeps_index _).bind fun _ => (henqueue side ticker _).bind fun _ =>
      (hremove side ticker _).bind fun _ => keeps_done _
  induction tickers with
  | nil => exact keeps_done _
  | cons ticker tickers ih =>
      exact (hbook .buy ticker).bind fun _ => (hbook .sell ticker).bind fun _ =>
        ih.bind fun _ => keeps_done _

theorem reconcile_keeps : reconcile.Keeps scale := by
  have hlive : (store .live).Keeps scale :=
    keeps_call rfl fun a => by cases a <;> exact fun _ _ => trivial
  unfold reconcile
  refine hlive.bind fun live => (keeps_total _ _).bind fun survey => ?_
  exact (keeps_index _).bind fun tickers => (mendTickers_keeps _ _).bind fun _ => keeps_done _

/-! ### Every operation -/

theorem Operation.work_keeps (op : Operation) : (op.work scale).Keeps scale := by
  cases op with
  | submit tradable request => exact (submit_keeps tradable request).bind fun _ => keeps_done ()
  | cancel id => exact (cancel_keeps id).bind fun _ => keeps_done ()
  | tick => exact tick_keeps.bind fun _ => keeps_done ()
  | recover => exact reconcile_keeps.bind fun _ => keeps_done ()
  | process id ticker => exact (processOrder_keeps id ticker).bind fun _ => keeps_done ()

theorem Floor.Reached.orderly {f : Floor} (h : f.Reached scale) : f.Orderly scale := by
  induction h with
  | opened => exact Floor.orderly_opened scale
  | after _ op hlead _ ih => exact ((op.work_keeps _ ih).of_leads hlead ih).1

/-- **Every floor that can be seen is orderly**, at every moment and whatever has failed. -/
theorem Floor.Seen.orderly {g : Floor} (h : g.Seen scale) : g.Orderly scale := by
  obtain ⟨f, hf, op, rest, hlead⟩ := h
  exact ((op.work_keeps f hf.orderly).of_leads hlead hf.orderly).1

/-! ### What every call preserves -/

namespace Floor

variable {f g : Floor} {Q : Floor → Prop}

theorem Leads.along {α : Type} {work rest : Action α} {goal : Except Failure α → Floor → Prop}
    (hlead : f.Leads work rest g) (hkeeps : work.Ensures (Orderly scale) goal f)
    (hf : f.Orderly scale) (hQ : Q f)
    (hcall : ∀ {f : Floor} {c : Call} (a : c.Answer), f.Orderly scale →
      (f.after c a).Orderly scale → f.May c a → Q f → Q (f.after c a)) : Q g := by
  induction hlead with
  | here work f => exact hQ
  | call a hmay _ ih =>
      obtain ⟨hafter, hrest⟩ := hkeeps a hmay
      exact ih hrest hafter (hcall a hf hafter hmay hQ)

theorem Reached.along (h : f.Reached scale) (hopened : Q .opened)
    (hcall : ∀ {f : Floor} {c : Call} (a : c.Answer), f.Orderly scale →
      (f.after c a).Orderly scale → f.May c a → Q f → Q (f.after c a)) : Q f := by
  induction h with
  | opened => exact hopened
  | after h op hlead _ ih => exact hlead.along (op.work_keeps _ h.orderly) h.orderly ih hcall

/-- **What a call preserves, from one orderly floor to the next, holds wherever one looks.** -/
theorem Seen.along (h : g.Seen scale) (hopened : Q .opened)
    (hcall : ∀ {f : Floor} {c : Call} (a : c.Answer), f.Orderly scale →
      (f.after c a).Orderly scale → f.May c a → Q f → Q (f.after c a)) : Q g := by
  obtain ⟨f, hf, op, rest, hlead⟩ := h
  exact hlead.along (op.work_keeps f hf.orderly) hf.orderly (hf.along hopened hcall) hcall

end Floor

end Bourse
