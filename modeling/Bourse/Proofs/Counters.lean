/-
The counters agree with the books.

Counters are raised by calls, so what they show is told by the log, and so is what was
written to the store.  The two are compared in three ways.  What is counted of a fill is
counted right after its commit, whatever happens next: that is a rule of all work.  How
many orders are filled, or not cancelled, changes with the calls that write orders, and
`Census` says by how much.  Owners count after they have placed or cancelled an order, and
in between a call may fail: an order that cannot be indexed is not counted, but then it is
withdrawn, and as it was only just placed, that goes through if the store does not fail.

Ticks are counted once, when it is clear what has become of them.

Between the commit of a fill and the call that counts it, the passes over other tickers may
commit and count fills of theirs.  Numbers do not mind, but the volume does: it is a sum that
is rounded and that stops where there is no more room, so it depends on the order in which
fills are counted.  That is the order of the ledger but for fills of different tickers in one
tick; and where the sum is exact, the order does not matter.
-/
import Bourse.Proofs.Account
import Bourse.Proofs.Conduct
import Bourse.Proofs.Lifecycle
import Bourse.Proofs.News
import Bourse.Proofs.Recovery
import Mathlib.Data.UInt

namespace Bourse

open Bourse.Action Decimal

variable {scale : Nat}

/-! ### What the counters show -/

namespace Answered

/-- How many orders the call counts as completed by a fill. -/
def completed? : Answered → Option UInt64
  | ⟨.recordFill _ completed, _⟩ => some completed
  | _ => none

/-- Does the call raise the counter? -/
def raises (k : Counter) : Answered → Bool
  | ⟨.count c, _⟩ => c == k
  | _ => false

end Answered

/-- A fill is counted by one call, before its entry is dropped. -/
theorem reads_counted : FillCommit.Reads Answered.counted? (·.amount) where
  other {c} _ hc := by
    cases c with
    | recordFill => exact absurd rfl hc
    | _ => rfl
  commit _ _ := rfl
  once _ _ := rfl

theorem reads_completed : FillCommit.Reads Answered.completed? (·.completed) where
  other {c} _ hc := by
    cases c with
    | recordFill => exact absurd rfl hc
    | _ => rfl
  commit _ _ := rfl
  once _ _ := rfl

namespace Metrics

/-- What one of the counters shows. -/
def reading (m : Metrics) : Counter → UInt64
  | .submitted => m.ordersSubmitted
  | .cancelled => m.ordersCancelled
  | .ticksRun => m.ticksRun
  | .ticksMarketClosed => m.ticksMarketClosed
  | .ticksOverlapped => m.ticksOverlapped
  | .ticksIndexUnavailable => m.ticksIndexUnavailable
  | .processed => m.ordersProcessed
  | .failed => m.ordersFailed

theorem reading_count (m : Metrics) (c k : Counter) :
    (m.count c).reading k = m.reading k + UInt64.ofNat (if c == k then 1 else 0) := by
  cases c <;> cases k <;> first | rfl | exact (UInt64.add_zero _).symm

/-- **A counter shows how often it was raised.** -/
theorem reading_after (m : Metrics) (calls : List Answered) (k : Counter) :
    (m.after calls).reading k = m.reading k + UInt64.ofNat (calls.countP (·.raises k)) := by
  induction calls generalizing m with
  | nil => exact (UInt64.add_zero _).symm
  | cons x calls ih =>
      show ((m.serve x).after calls).reading k = _
      rw [ih, List.countP_cons, UInt64.ofNat_add]
      obtain ⟨c, a⟩ := x
      cases c with
      | count c =>
          rw [show (m.serve ⟨.count c, a⟩).reading k = _ from m.reading_count c k, UInt64.add_assoc,
            UInt64.add_comm (UInt64.ofNat (calls.countP _))]
          rfl
      | recordFill amount completed => cases k <;> exact congrArg _ (UInt64.add_zero _).symm
      | _ => exact congrArg _ (UInt64.add_zero _).symm

/-- What was counted of the fills is what the fills have completed and come to. -/
theorem after_counted (m : Metrics) (calls : List Answered) :
    (m.after calls).ordersFilled = m.ordersFilled + (calls.filterMap (·.completed?)).sum ∧
    (m.after calls).executedVolume =
      (calls.filterMap (·.counted?)).foldl saturatingAdd m.executedVolume := by
  induction calls generalizing m with
  | nil => exact ⟨(UInt64.add_zero _).symm, rfl⟩
  | cons x calls ih =>
      obtain ⟨hfilled, hvolume⟩ := ih (m.serve x)
      obtain ⟨c, a⟩ := x
      cases c with
      | recordFill amount completed =>
          refine ⟨?_, hvolume⟩
          show ((m.serve ⟨.recordFill amount completed, a⟩).after calls).ordersFilled =
            m.ordersFilled + (completed + _)
          rw [hfilled, ← UInt64.add_assoc]
          rfl
      | count c => cases c <;> exact ⟨hfilled, hvolume⟩
      | _ => exact ⟨hfilled, hvolume⟩

end Metrics

/-! ### What the books show -/

theorem OrderStatus.of_not_terminal {s : OrderStatus} (h : s.terminal = false) :
    (s == .filled) = false ∧ (s != .cancelled) = true := by
  revert h
  cases s <;> decide

/-- How many of its two orders the fill completes. -/
def FillCommit.completions (fill : FillCommit) : Nat :=
  (if fill.incoming.status = .filled then 1 else 0) +
    (if fill.counter.status = .filled then 1 else 0)

theorem FillCommit.completed_eq (fill : FillCommit) :
    fill.completed = UInt64.ofNat fill.completions := by
  unfold completed completions
  split <;> split <;> rfl

theorem sum_completed (fills : List FillCommit) :
    (fills.map (·.completed)).sum = UInt64.ofNat (fills.map (·.completions)).sum := by
  induction fills with
  | nil => rfl
  | cons fill fills ih =>
      rw [List.map_cons, List.sum_cons, List.map_cons, List.sum_cons, UInt64.ofNat_add, ih,
        fill.completed_eq]

namespace Store

variable {s : Store} {kind : OrderStatus → Bool}

/-- How many orders on record have a status of this kind. -/
def census (s : Store) (kind : OrderStatus → Bool) : Int :=
  (s.orders.map fun o => if kind o.status then 1 else 0).sum

theorem census_eq (s : Store) (kind : OrderStatus → Bool) :
    s.census kind = s.orders.countP (kind ·.status) := by
  unfold census
  induction s.orders with
  | nil => rfl
  | cons o os ih =>
      rw [List.map_cons, List.sum_cons, ih, List.countP_cons]
      cases kind o.status <;> simp [Int.add_comm]

theorem census_insert (request : OrderRequest) (time : Instant) :
    (s.insert request time).2.census kind = s.census kind + if kind .live then 1 else 0 := by
  unfold census
  rw [orders_insert, List.map_append, List.sum_append]
  exact congrArg _ (List.sum_singleton)

theorem census_cancelled {o : Order} (hfind : s.find? o.id = some o) (time : Instant) :
    (s.replace (cancelled o time)).census kind =
      s.census kind - (if kind o.status then 1 else 0) + if kind .cancelled then 1 else 0 :=
  sum_replace _ (o := cancelled o time) hfind

theorem Takes.census_commit {fill : FillCommit} {o p : Order} (takes : s.Takes fill o p)
    (hne : fill.incoming.id ≠ fill.counter.id) : (s.commit fill).2.census kind = s.census kind +
      ((if kind fill.incoming.status then 1 else 0) - if kind o.status then 1 else 0) +
      ((if kind fill.counter.status then 1 else 0) - if kind p.status then 1 else 0) :=
  takes.sum_commit _ hne

end Store

/-- By how much a call changes the number of orders that are not cancelled. -/
def Answered.standing : Answered → Int
  | ⟨.store (.insert ..), .ok _⟩ => 1
  | ⟨.store (.cancel ..), .ok (some _)⟩ => -1
  | _ => 0

/-- A call that writes no order commits no fill, and leaves as many orders standing. -/
theorem Answered.of_made_nil {x : Answered} (h : x.made = []) :
    x.fill? = none ∧ x.standing = 0 := by
  unfold made at h
  unfold fill? standing
  split at h <;> simp_all

namespace Floor

variable {f g : Floor} {c : Call} {a : c.Answer}

/-- What the calls tell of how many orders are filled, and of how many are not cancelled. -/
structure Census (f : Floor) : Prop where
  lived : ∀ id, f.Lived id
  filled : f.store.census (· == .filled) =
    (((f.log.filterMap (·.fill?)).map (·.completions)).sum : Nat)
  standing : f.store.census (· != .cancelled) = (f.log.map (·.standing)).sum

theorem census_opened : opened.Census := ⟨lived_opened, rfl, rfl⟩

/-- A call that commits no fill is told of by what it does to the store. -/
theorem Census.next (h : f.Census) (hlived : ∀ id, (f.after c a).Lived id)
    (hfill : Answered.fill? ⟨c, a⟩ = none)
    (hfilled : (f.after c a).store.census (· == .filled) = f.store.census (· == .filled))
    (hstanding : (f.after c a).store.census (· != .cancelled) =
      f.store.census (· != .cancelled) + Answered.standing ⟨c, a⟩) : (f.after c a).Census := by
  refine ⟨hlived, ?_, ?_⟩
  · rw [hfilled, h.filled, after_log, List.filterMap_append, List.filterMap_cons_none hfill,
      List.filterMap_nil, List.append_nil]
  · rw [hstanding, h.standing, after_log, List.map_append, List.sum_append]
    exact congrArg _ (List.sum_singleton).symm

/-- A fill completes what it leaves filled, and leaves its orders standing. -/
theorem Census.fill (h : f.Census) (hf : f.Orderly scale) {fill : FillCommit} {o p : Order}
    (takes : f.store.Takes fill o p) {receipt : FillReceipt}
    (hafter : (f.after (.store (.commit fill)) (.ok (.committed receipt))).Orderly scale)
    (hlived : ∀ id, (f.after (.store (.commit fill)) (.ok (.committed receipt))).Lived id) :
    (f.after (.store (.commit fill)) (.ok (.committed receipt))).Census := by
  have hne := incoming_ne_counter hf takes hafter
  obtain ⟨hincoming, hcounter⟩ := Floor.refilled (g := f.after (.store (.commit fill))
    (.ok (.committed receipt))) takes hne rfl
  have hi := (h.lived _).status_refilled hafter rfl hincoming
  have hc := (h.lived _).status_refilled hafter rfl hcounter
  have ho := (Order.matchable_iff.mp takes.matchable).1
  have hp := (Order.matchable_iff.mp takes.counterMatchable).1
  -- Neither of the two was filled before, or cancelled.
  obtain ⟨hofilled, hostanding⟩ := OrderStatus.of_not_terminal ho
  obtain ⟨hpfilled, hpstanding⟩ := OrderStatus.of_not_terminal hp
  have hkept {s : OrderStatus} (hs : s = .partlyFilled ∨ s = .filled) :
      (s != .cancelled) = true := by
    rcases hs with rfl | rfl <;> rfl
  refine ⟨hlived, ?_, ?_⟩
  · show (f.store.commit fill).2.census _ = _
    have hnew : [(⟨.store (.commit fill), .ok (.committed receipt)⟩ : Answered)].filterMap
        (·.fill?) = [fill] := rfl
    rw [takes.census_commit hne, hofilled, hpfilled, h.filled, after_log, List.filterMap_append,
      hnew, List.map_append, List.sum_append, List.map_singleton, List.sum_singleton]
    simp [FillCommit.completions, Int.add_assoc]
  · show (f.store.commit fill).2.census _ = _
    rw [takes.census_commit hne, hostanding, hpstanding, hkept hi, hkept hc, h.standing,
      after_log, List.map_append, List.sum_append]
    simp [Answered.standing]

/-- **Every call changes the numbers as it tells.** -/
theorem Census.after (h : f.Census) (hf : f.Orderly scale) (hafter : (f.after c a).Orderly scale)
    (hmay : f.May c a) : (f.after c a).Census := by
  have hlived (id : OrderId) := (h.lived id).after hf hafter hmay
  rcases write_cases hmay with ⟨request, time, hx⟩ | ⟨fill, o, p, takes, hx⟩ |
    ⟨o, time, hfind, hlive, hx, hstore⟩ | ⟨hmade, hstore⟩
  · cases hx
    refine h.next hlived rfl ?_ ?_
    · exact (Store.census_insert request time).trans (Int.add_zero _)
    · exact Store.census_insert request time
  · cases hx
    exact h.fill hf takes hafter hlived
  · have hopen := OrderStatus.of_not_terminal hlive
    have hfill : Answered.fill? ⟨c, a⟩ = none := by rw [hx]; rfl
    refine h.next hlived hfill ?_ ?_
    · rw [hstore, Store.census_cancelled hfind, hopen.1]
      simp
    · rw [hstore, Store.census_cancelled hfind, hopen.2, hx]
      simp [Answered.standing, Int.sub_eq_add_neg]
  · obtain ⟨hfill, hstanding⟩ := Answered.of_made_nil hmade
    refine h.next hlived hfill ?_ ?_
    · rw [hstore]
    · rw [hstore, hstanding, Int.add_zero]

theorem Served.census {servings : List Serving} (h : f.Served scale servings) : f.Census :=
  h.along (fun _ hf hafter hmay _ hcensus => Census.after hcensus hf hafter hmay) census_opened

end Floor

/-! ### Owners -/

/-- A store that does not fail refuses no call. -/
theorem not_refused {calls : List Answered} (h : ∀ x ∈ calls, x.unstored = false)
    (c : StoreCall) (e : Error) : (⟨.store c, .error e⟩ : Answered) ∉ calls :=
  fun hmem => Bool.noConfusion (h _ hmem)

/-- What was counted of placing and cancelling orders is what has come of it. -/
def Squared (calls : List Answered) : Prop :=
  (calls.map (·.standing)).sum =
    (calls.countP (·.raises .submitted) : Int) - calls.countP (·.raises .cancelled)

theorem squared_single {x : Answered} (hstanding : x.standing = 0)
    (hsubmitted : x.raises .submitted = false) (hcancelled : x.raises .cancelled = false) :
    Squared [x] := by
  simp [Squared, hstanding, hsubmitted, hcancelled]

theorem squared_of_kind {c : Call} (hc : c.kind ≠ .owner) (a : c.Answer) : Squared [⟨c, a⟩] := by
  cases c with
  | store c =>
      cases c with
      | insert | cancel => exact absurd rfl hc
      | load | loadMany | commit | executions | live => exact squared_single rfl rfl rfl
  | count k =>
      cases k with
      | submitted | cancelled => exact absurd rfl hc
      | _ => exact squared_single rfl rfl rfl
  | _ => exact squared_single rfl rfl rfl

theorem Squared.append {calls later : List Answered} (h : Squared calls) (h' : Squared later) :
    Squared (calls ++ later) := by
  unfold Squared at h h' ⊢
  rw [List.map_append, List.sum_append, List.countP_append, List.countP_append, h, h']
  omega

theorem rule_squared : Rule Squared :=
  .of_single rfl Squared.append fun a hc => squared_of_kind (by rcases hc with h | h <;> simp [h]) a

namespace Floor

variable {f g : Floor}

/-- An order that was only just placed is withdrawn, if the store does not fail. -/
theorem cancel_placed (s : Store) (request : OrderRequest) (placed time : Instant) :
    ∃ o, ((s.insert request placed).2.cancel (s.insert request placed).1.id time).1 = some o := by
  have hfind : (s.insert request placed).2.find? s.nextOrderId =
      some (Order.ofRequest s.nextOrderId request placed) := by
    rw [Store.find?_insert, if_pos rfl]
  unfold Store.cancel
  rw [show (s.insert request placed).1.id = s.nextOrderId from rfl, hfind]
  exact ⟨_, rfl⟩

/-- **An order is counted, or it is withdrawn.** -/
theorem submit_squared {tradable : List String} {request : OrderRequest} {r : Except Failure Order}
    (hlead : f.Leads (submit tradable request) (.ended r) g)
    (hstore : ∀ x ∈ f.since g, x.unstored = false) : Squared (f.since g) := by
  unfold submit at hlead
  cases hcheck : request.check tradable with
  | error e =>
      rw [hcheck] at hlead
      obtain ⟨-, rfl⟩ := hlead.of_fail
      rw [since_self]
      rfl
  | ok =>
      rw [hcheck] at hlead
      obtain ⟨placed, -, hlead⟩ := Leads.of_call (c := .now) hlead
      rw [hlead.since_call] at hstore ⊢
      obtain ⟨a, hmay, hlead⟩ := Leads.of_call (c := .store (.insert request placed)) hlead
      rw [hlead.since_call] at hstore ⊢
      cases a with
      | error e => exact absurd (by simp) (not_refused hstore (.insert request placed) e)
      | ok o =>
          obtain rfl : o = (f.store.insert request placed).1 := hmay
          obtain ⟨put, -, hlead⟩ := Leads.of_call (c := .index (.enqueue _ _ _ _)) hlead
          rw [hlead.since_call] at hstore ⊢
          cases put with
          | ok =>
              obtain ⟨counted, -, hlead⟩ := Leads.of_call (c := .count .submitted) hlead
              rw [hlead.since_call]
              obtain ⟨-, rfl⟩ := hlead.of_done
              rw [since_self]
              rfl
          | error e =>
              obtain ⟨time, -, hlead⟩ := Leads.of_call (c := .now) hlead
              rw [hlead.since_call] at hstore ⊢
              obtain ⟨found, hfound, hlead⟩ := Leads.of_call (c := .store (.cancel _ time)) hlead
              rw [hlead.since_call] at hstore ⊢
              cases found with
              | error e =>
                  exact absurd (by simp)
                    (not_refused hstore (.cancel (f.store.insert request placed).1.id time) e)
              | ok found =>
                  obtain ⟨o, ho⟩ := cancel_placed f.store request placed time
                  obtain rfl : found = some o := hfound.trans ho
                  obtain ⟨-, rfl⟩ := hlead.of_fail
                  rw [since_self]
                  rfl

end Floor

/-- **An order is counted as cancelled once it is.** -/
theorem cancel_squared (id : OrderId) : (cancel id).Makes fun _ calls =>
    (∀ x ∈ calls, x.unstored = false) → Squared calls := by
  unfold cancel
  intro time a
  cases a with
  | error e => exact fun hstore => absurd (by simp) (not_refused hstore (.cancel id time) e)
  | ok found =>
      cases found with
      | some o => exact fun removed => by cases removed <;> exact fun _ _ => rfl
      | none =>
          intro b
          cases b with
          | error e => exact fun hstore => absurd (by simp) (not_refused hstore (.load id) e)
          | ok found =>
              cases found with
              | none => exact fun _ => rfl
              | some o =>
                  show (Action.ofExcept (o.checkMove .cancelled) >>= _).Makes _
                  cases o.checkMove .cancelled <;> exact fun _ => rfl

theorem Squared.perm {calls later : List Answered} (h : Squared calls) (hperm : calls.Perm later) :
    Squared later := by
  unfold Squared at h ⊢
  rwa [← (hperm.map _).sum_eq, ← hperm.countP_eq, ← hperm.countP_eq]

/-- **What is placed or cancelled is counted**, if the store does not fail. -/
theorem Serving.Done.squared {s : Serving} (h : s.Done scale)
    (hstore : ∀ x ∈ s.calls, x.unstored = false) : Squared s.calls := by
  cases h with
  | @operation f g r op hop hlead =>
      cases op with
      | submit tradable request =>
          rcases hlead.of_bind with ⟨o, w, hlead, hdone⟩ | ⟨e, hlead, -⟩
          · obtain ⟨-, rfl⟩ := Floor.Leads.of_done hdone
            exact Floor.submit_squared (r := .ok o) hlead hstore
          · exact Floor.submit_squared (r := .error e) hlead hstore
      | cancel id =>
          rcases hlead.of_bind with ⟨o, w, hlead, hdone⟩ | ⟨e, hlead, -⟩
          · obtain ⟨-, rfl⟩ := Floor.Leads.of_done hdone
            exact (cancel_squared id).of_ended (r := .ok o) hlead hstore
          · exact (cancel_squared id).of_ended (r := .error e) hlead hstore
      | tick => exact absurd rfl hop
      | recover =>
          exact (rule_squared.reconcile.bind rule_squared fun _ => rule_squared.done _).of_ended
            hlead
      | process id ticker =>
          exact ((rule_squared.processOrder scale id ticker).bind rule_squared
            fun _ => rule_squared.done _).of_ended hlead
  | find id hlead => exact (rule_squared.findOrder id).of_ended hlead
  | tick hticks =>
      obtain ⟨calls, hcalls, hperm, -⟩ := hticks.upholds rule_squared
        fun a hc => squared_of_kind (by rw [hc]; decide) a
      exact hcalls.perm hperm

/-! ### Ticks -/

/-- How many ticks were counted, whatever has become of them. -/
def ticksCounted (calls : List Answered) : Nat :=
  calls.countP (·.raises .ticksRun) + calls.countP (·.raises .ticksMarketClosed) +
    calls.countP (·.raises .ticksOverlapped) + calls.countP (·.raises .ticksIndexUnavailable)

theorem ticksCounted_append (calls later : List Answered) :
    ticksCounted (calls ++ later) = ticksCounted calls + ticksCounted later := by
  unfold ticksCounted
  simp only [List.countP_append]
  omega

theorem ticksCounted_of_kind {c : Call} (hc : c.kind ≠ .tick) (a : c.Answer) :
    ticksCounted [⟨c, a⟩] = 0 := by
  cases c with
  | count k =>
      cases k with
      | submitted | cancelled | processed | failed => rfl
      | _ => exact absurd rfl hc
  | _ => rfl

/-- Work that is no tick counts none. -/
theorem rule_tickless : Rule fun calls => ticksCounted calls = 0 :=
  .of_single rfl (fun h h' => by rw [ticksCounted_append, h, h'])
    fun a hc => ticksCounted_of_kind (by rcases hc with h | h <;> simp [h]) a

/-- A tick is counted before its passes if they do not come. -/
theorem Opened.ticksCounted {outcome : TickOutcome} {calls : List Answered}
    (h : Opened (.error outcome) calls) : ticksCounted calls = 1 := by
  cases h <;> rfl

theorem Opened.ticksCounted_of_ok {tickers : List String} {calls : List Answered}
    (h : Opened (.ok tickers) calls) : Bourse.ticksCounted calls = 0 := by
  cases h
  rfl

/-- Otherwise it is counted after them, if there is room for its totals. -/
theorem Closed.ticksCounted {passes : List (Except Failure TickReport)}
    {r : Except Failure TickOutcome} {calls : List Answered} (h : Closed passes r calls) :
    ticksCounted calls = if r.isOk then 1 else 0 := by
  cases h <;> rfl

theorem ticksCounted_perm {calls later : List Answered} (h : calls.Perm later) :
    ticksCounted calls = ticksCounted later := by
  unfold ticksCounted
  rw [h.countP_eq, h.countP_eq, h.countP_eq, h.countP_eq]

namespace Floor.Ticks

variable {f g : Floor} {fan : Fan}

/-- **A tick is counted once if it returns**, and otherwise it is not. -/
theorem ticksCounted {r : Except Failure TickOutcome} (h : f.Ticks scale fan r g) :
    ticksCounted (f.since g) = if r.isOk then 1 else 0 := by
  cases h with
  | idle hopen =>
      obtain ⟨_, hopened, hcalls⟩ := openTick_makes.of_ended (r := .ok _) hopen
      cases hopened
      exact hcalls.ticksCounted
  | @fanned _ tickers v w _ _ hopen hnodup hactive hfan hclose =>
      obtain ⟨_, hopened, hbefore⟩ := openTick_makes.of_ended (r := .ok _) hopen
      cases hopened
      have hafter := (closeTick_makes _).of_ended hclose
      have hpassed : Bourse.ticksCounted (fan.trace.map (·.2)) = 0 := by
        rw [← ticksCounted_perm (callsOf_perm hnodup hfan.joined)]
        exact rule_tickless.flatMap fun ticker _ => rule_tickless.passes hfan ticker
      rw [hfan.since_between hopen.log hclose.log, ticksCounted_append, ticksCounted_append,
        hbefore.ticksCounted_of_ok, hpassed, hafter.ticksCounted, Nat.zero_add]

/-- **A tick that is not completed** leaves the store and the index as they are. -/
theorem same {outcome : TickOutcome} (h : f.Ticks scale fan (.ok outcome) g)
    (hother : ∀ report, outcome ≠ .completed report) :
    g.store = f.store ∧ g.index = f.index := by
  cases h with
  | idle hopen =>
      obtain ⟨_, -, hcalls⟩ := openTick_makes.of_ended (r := .ok _) hopen
      exact hopen.same_of_still hcalls.still
  | @fanned _ tickers v w _ _ hopen hnodup hactive hfan hclose =>
      have hclosed := (closeTick_makes _).of_ended (r := .ok outcome) hclose
      generalize w.since g = calls at hclosed
      cases hclosed
      exact absurd rfl (hother _)

end Floor.Ticks

/-- **What is done is counted as a tick** if it is one that has returned. -/
theorem Serving.Done.ticksCounted {s : Serving} (h : s.Done scale) :
    ticksCounted s.calls = if s.ticked then 1 else 0 := by
  have howner : CallKind.owner.Keeps fun calls => Bourse.ticksCounted calls = 0 :=
    fun a hc => ticksCounted_of_kind (by rw [hc]; decide) a
  cases h with
  | operation op hop hlead => exact (rule_tickless.work scale howner hop).of_ended hlead
  | find id hlead => exact (rule_tickless.findOrder id).of_ended hlead
  | @tick f g fan r hticks =>
      refine hticks.ticksCounted.trans ?_
      cases r <;> rfl

/-! ### Counters and books -/

/-- The amounts of the fills that a ledger tells of by two entries each. -/
def fillAmounts : List Execution → List Decimal
  | e :: _ :: rest => e.amount :: fillAmounts rest
  | _ => []

theorem fillAmounts_writtenOut (n : ExecutionId) (events : List FillEvent) :
    fillAmounts (FillEvent.writtenOut n events) = events.map (·.amount) := by
  induction events generalizing n with
  | nil => rfl
  | cons e events ih => exact congrArg (e.amount :: ·) (ih (n + 2))

/-- Each of the amounts is told by an entry. -/
theorem mem_fillAmounts {amount : Decimal} (entries : List Execution)
    (h : amount ∈ fillAmounts entries) : ∃ e ∈ entries, e.amount = amount := by
  induction entries using fillAmounts.induct with
  | case1 e e' rest ih =>
      rcases List.mem_cons.mp h with rfl | h
      · exact ⟨e, List.mem_cons_self, rfl⟩
      · obtain ⟨x, hx, hamount⟩ := ih h
        exact ⟨x, List.mem_cons_of_mem _ (List.mem_cons_of_mem _ hx), hamount⟩
  | case2 entries hshort =>
      rw [fillAmounts] at h
      · cases h
      · exact hshort

/-- On a grid, every entry of the ledger is a whole number of steps. -/
theorem Store.History.whole_amounts {k : Nat} {s : Store} (hk : k ≤ 28) (h : History scale s)
    (hgrid : ∀ a ∈ s.orders.map (·.amount), OnGrid k a.units) :
    ∀ e ∈ s.executions, Whole k e.amount.units := by
  induction h with
  | empty => exact List.forall_mem_nil _
  | @place s _ request time _ _ ih =>
      rw [orders_insert, List.map_append, List.forall_mem_append] at hgrid
      exact ih hgrid.1
  | @cancel s o _ hfind hlive time ih =>
      rw [map_cancelled _ hfind rfl] at hgrid
      exact ih hgrid
  | @trade s incoming counter fill h t ih =>
      rw [t.map_commit _ t.incomingFilled.terms.amount t.counterFilled.terms.amount] at hgrid
      have hkept := h.conserves hk hgrid
      have hincoming := (hkept incoming (mem_of_find? t.incomingFound).1).1
      have hcounter := (hkept counter (mem_of_find? t.counterFound).1).1
      have hsteps := hincoming.least_steps hcounter
      have hunits := units_least incoming.remainingAmount counter.remainingAmount
      rw [← t.meeting.amount] at hsteps hunits
      obtain ⟨-, hexecutions, -, -, -⟩ := t.committed
      have hwhole : Whole k fill.amount.units := by
        refine ⟨?_, hsteps⟩
        have := hincoming.remaining
        have := hcounter.remaining
        omega
      rw [hexecutions]
      exact List.forall_mem_append.mpr ⟨ih hgrid,
        List.forall_mem_cons.mpr ⟨hwhole, List.forall_mem_singleton.mpr hwhole⟩⟩

/-! ### The order of counting -/

/-- What agrees class by class is the same but for the order. -/
theorem perm_of_filter {α β : Type} [DecidableEq α] [BEq β] [LawfulBEq β] {key : α → β}
    {l m : List α} (h : ∀ k, l.filter (key · == k) = m.filter (key · == k)) : l.Perm m := by
  refine List.perm_iff_count.mpr fun a => ?_
  have hself : (key a == key a) = true := BEq.rfl
  rw [← List.count_filter (p := (key · == key a)) (l := l) hself, h,
    List.count_filter (p := (key · == key a)) hself]

/-- One more in front is one more of its ticker. -/
theorem filter_cons_of_update {own : String → List FillEvent} {counted rest : List FillEvent}
    {e : FillEvent} (hnext : own e.ticker = e :: rest)
    (heach : ∀ ticker,
      counted.filter (·.ticker == ticker) = Function.update own e.ticker rest ticker)
    (ticker : String) : (e :: counted).filter (·.ticker == ticker) = own ticker := by
  have hcounted := heach ticker
  by_cases hticker : ticker = e.ticker
  · subst hticker
    rw [Function.update_self] at hcounted
    rw [List.filter_cons_of_pos (by simp), hcounted, hnext]
  · rw [Function.update_of_ne hticker] at hcounted
    rw [List.filter_cons_of_neg (by simp [Ne.symm hticker]), hcounted]

/--
Passes that take turns count the fills in an order that agrees with that of each pass, if each
counts its own in their order.
-/
theorem exists_counted {trace : List (String × Answered)} {own : String → List FillEvent}
    (hown : ∀ ticker, (callsOf trace ticker).filterMap (·.counted?) = (own ticker).map (·.amount))
    (hticker : ∀ ticker, ∀ e ∈ own ticker, e.ticker = ticker) :
    ∃ counted : List FillEvent,
      (trace.map (·.2)).filterMap (·.counted?) = counted.map (·.amount) ∧
        ∀ ticker, counted.filter (·.ticker == ticker) = own ticker := by
  induction trace generalizing own with
  | nil => exact ⟨[], rfl, fun ticker => (List.map_eq_nil_iff.mp (hown ticker).symm).symm⟩
  | cons x trace ih =>
      obtain ⟨ticker, x⟩ := x
      have hself := hown ticker
      rw [callsOf_cons_self] at hself
      have hothers (other : String) (hne : other ≠ ticker) :
          (callsOf trace other).filterMap (·.counted?) = (own other).map (·.amount) := by
        rw [← hown other, callsOf_cons_of_ne hne.symm]
      cases hx : x.counted? with
      | none =>
          rw [List.filterMap_cons_none hx] at hself
          have hrest (other : String) :
              (callsOf trace other).filterMap (·.counted?) = (own other).map (·.amount) := by
            by_cases hother : other = ticker
            · exact hother ▸ hself
            · exact hothers other hother
          obtain ⟨counted, hcounted, heach⟩ := ih hrest hticker
          refine ⟨counted, ?_, heach⟩
          rw [List.map_cons, List.filterMap_cons_none hx, hcounted]
      | some amount =>
          -- The next fill of this ticker is the one that is counted.
          rw [List.filterMap_cons_some hx, eq_comm, List.map_eq_cons_iff] at hself
          obtain ⟨e, rest, hnext, rfl, hrest⟩ := hself
          obtain ⟨rfl, hlater⟩ := List.forall_mem_cons.mp (hnext ▸ hticker ticker)
          have howns := (Function.forall_update_iff own fun other events =>
            (callsOf trace other).filterMap (·.counted?) = events.map (·.amount)).mpr
              ⟨hrest.symm, hothers⟩
          have htickers := (Function.forall_update_iff own fun other events =>
            ∀ e ∈ events, e.ticker = other).mpr ⟨hlater, fun other _ => hticker other⟩
          obtain ⟨counted, hcounted, heach⟩ := ih howns htickers
          refine ⟨e :: counted, ?_, filter_cons_of_update hnext heach⟩
          rw [List.map_cons, List.filterMap_cons_some hx, hcounted, List.map_cons]

/-- Fills in the order in which they were counted while something was done. -/
structure Serving.Counts (s : Serving) (counted : List FillEvent) : Prop where
  amounts : s.calls.filterMap (·.counted?) = counted.map (·.amount)
  /-- Every fill was counted once, and nothing else. -/
  all : counted.Perm s.news
  /-- The fills of one ticker were counted in their order. -/
  each : ∀ ticker, counted.filter (·.ticker == ticker) = s.news.filter (·.ticker == ticker)
  /-- Unless the passes of a tick have taken turns, all were. -/
  serial : s.Serial → counted = s.news

/-- **Every fill is counted once**, and those of one ticker in their order. -/
theorem Serving.Done.counts {s : Serving} (h : s.Done scale) (hf : s.before.Orderly scale)
    (hsound : s.before.Sound) : ∃ counted, s.Counts counted := by
  by_cases hserial : s.Serial
  · have hamounts : s.calls.filterMap (·.counted?) = s.news.map (·.amount) := by
      refine ((h.echoes reads_counted).2 hserial).trans ?_
      unfold news newsOf
      rw [List.map_map]
      rfl
    exact ⟨s.news, hamounts, .refl _, fun _ => rfl, fun _ => rfl⟩
  · cases h with
    | operation => exact absurd nofun hserial
    | find => exact absurd nofun hserial
    | @tick f g fan r hticks =>
        have htags := (hticks.trail hf hsound).2
        cases hticks with
        | idle hopen =>
            refine absurd (fun fan r hsome => ?_) hserial
            cases hsome
            exact ⟨[], .nil, rfl⟩
        | @fanned _ tickers v w _ _ hopen hnodup hactive hfan hclose =>
            obtain ⟨_, -, hbefore⟩ := openTick_makes.of_ended (r := .ok _) hopen
            have hafter := (closeTick_makes _).of_ended hclose
            -- Only the passes fill anything.
            obtain ⟨hfills, hcounted⟩ :=
              hbefore.posts.around hafter.posts (fan.trace.map (·.2))
            rw [← hfan.since_between hopen.log hclose.log] at hfills hcounted
            have hnews : newsOf (f.since g) = newsOf (fan.trace.map (·.2)) :=
              congrArg (List.map _) hfills
            have hown (ticker : String) : (callsOf fan.trace ticker).filterMap (·.counted?) =
                (newsOf (callsOf fan.trace ticker)).map (·.amount) := by
              refine (reads_counted.rule.passes hfan ticker).trans ?_
              unfold newsOf
              rw [List.map_map]
              rfl
            obtain ⟨counted, hamounts, heach⟩ := exists_counted hown fun ticker e he => by
              rw [← newsOf_callsOf htags] at he
              exact beq_iff_eq.mp (List.mem_filter.mp he).2
            have heach (ticker : String) : counted.filter (·.ticker == ticker) =
                (newsOf (f.since g)).filter (·.ticker == ticker) := by
              rw [heach, hnews, newsOf_callsOf htags]
            exact ⟨counted, hcounted.trans hamounts, perm_of_filter heach, heach,
              fun h => absurd h hserial⟩

/-! ### All of it -/

namespace Floor

variable {f : Floor} {servings : List Serving}

/-- The counters of a service that has made the calls of a floor, see `Exchange.perform_metrics`. -/
def metrics (f : Floor) : Metrics := Metrics.zero.after f.log

/-- A counter that is raised from zero shows how often. -/
theorem reading_metrics (f : Floor) (k : Counter) :
    f.metrics.reading k = UInt64.ofNat (f.log.countP (·.raises k)) := by
  unfold metrics
  rw [Metrics.reading_after]
  cases k <;> exact UInt64.zero_add _

namespace Served

theorem ticksCounted (h : f.Served scale servings) :
    ticksCounted f.log = servings.countP (·.ticked) := by
  induction h with
  | opened => rfl
  | @next _ s _ hdone ih =>
      rw [Floor.log_eq hdone.log, ticksCounted_append, ih, List.countP_append,
        List.countP_singleton]
      exact congrArg _ hdone.ticksCounted

theorem squared (h : f.Served scale servings) (hstore : ∀ x ∈ f.log, x.unstored = false) :
    Squared f.log := by
  induction h with
  | opened => rfl
  | next _ hdone ih =>
      rw [Floor.log_eq hdone.log, List.forall_mem_append] at hstore
      rw [Floor.log_eq hdone.log]
      exact (ih hstore.1).append (hdone.squared hstore.2)

/-- **The fills in the order in which they were counted**, one thing after the other. -/
theorem counted (h : f.Served scale servings) : ∃ counted : Serving → List FillEvent,
    (∀ s ∈ servings, s.Counts (counted s)) ∧
      f.log.filterMap (·.counted?) = (servings.flatMap counted).map (·.amount) := by
  have hcounts : ∀ s : Serving, ∃ counted, s ∈ servings → s.Counts counted := by
    intro s
    by_cases hs : s ∈ servings
    · obtain ⟨hdone, earlier, hbefore⟩ := h.each s hs
      obtain ⟨counted, hcounted⟩ := hdone.counts hbefore.orderly hbefore.sound
      exact ⟨counted, fun _ => hcounted⟩
    · exact ⟨[], fun hin => absurd hin hs⟩
  choose counted hcounted using hcounts
  refine ⟨counted, hcounted, ?_⟩
  rw [h.log_eq, List.filterMap_flatMap, List.map_flatMap]
  exact List.flatMap_congr fun s hs => (hcounted s hs).amounts

end Served

/-- How the counters agree with the store, and with what was done. -/
structure Accords (f : Floor) (servings : List Serving) : Prop where
  /-- There were half as many fills as there are entries in the ledger. -/
  fills : ∃ n, f.store.executions.length = 2 * n ∧ f.metrics.fills = UInt64.ofNat n
  filled : f.metrics.ordersFilled = UInt64.ofNat (f.store.orders.countP (·.status == .filled))
  /-- What was submitted and not cancelled is on record and not cancelled. -/
  standing : f.metrics.ordersSubmitted - f.metrics.ordersCancelled =
    UInt64.ofNat (f.store.orders.countP (·.status != .cancelled))
  /-- The ledger has the fills as they were committed, one thing that was done after the other, -/
  ledger : fillAmounts f.store.executions = (servings.flatMap (·.news)).map (·.amount)
  /-- and the volume is the saturating sum of their amounts as they were counted. -/
  volume : ∃ counted : Serving → List FillEvent, (∀ s ∈ servings, s.Counts (counted s)) ∧
    f.metrics.executedVolume =
      ((servings.flatMap counted).map (·.amount)).foldl saturatingAdd .zero
  /-- If no passes have taken turns, it is the sum in the order of the ledger. -/
  serial : (∀ s ∈ servings, s.Serial) →
    f.metrics.executedVolume = (fillAmounts f.store.executions).foldl saturatingAdd .zero
  /-- On a grid with room for it, it is the exact sum. -/
  exact : ∀ k ≤ 28, (∀ o ∈ f.store.orders, OnGrid k o.amount.units) →
    OnGrid k ((fillAmounts f.store.executions).map units).sum →
      f.metrics.executedVolume.units = ((fillAmounts f.store.executions).map units).sum
  ticks : f.metrics.ticksRun + f.metrics.ticksMarketClosed + f.metrics.ticksOverlapped +
    f.metrics.ticksIndexUnavailable = UInt64.ofNat (servings.countP (·.ticked))
  /-- A tick that was not completed has left the orders, the ledger and the index alone. -/
  idle : ∀ s ∈ servings, ∀ fan outcome, s.tick? = some (fan, .ok outcome) →
    (∀ report, outcome ≠ .completed report) →
      s.after.store = s.before.store ∧ s.after.index = s.before.index

/-- The volume is what was counted, and so the same whatever the order, if it is exact. -/
theorem Served.volume_exact {k : Nat} (h : f.Served scale servings) (hk : k ≤ 28)
    (hgrid : ∀ o ∈ f.store.orders, OnGrid k o.amount.units)
    (hroom : OnGrid k ((fillAmounts f.store.executions).map units).sum) :
    f.metrics.executedVolume.units = ((fillAmounts f.store.executions).map units).sum := by
  have hledger : fillAmounts f.store.executions = (newsOf f.log).map (·.amount) := by
    rw [h.chronicle.executions_eq, fillAmounts_writtenOut]
  have hperm : (f.log.filterMap (·.counted?)).Perm (fillAmounts f.store.executions) := by
    rw [hledger]
    unfold newsOf
    rw [List.map_map]
    exact h.echoes reads_counted
  have hwhole : ∀ a ∈ f.log.filterMap (·.counted?), Whole k a.units := by
    intro a ha
    obtain ⟨e, he, rfl⟩ := mem_fillAmounts _ (hperm.mem_iff.mp ha)
    exact h.orderly.history.whole_amounts hk (List.forall_mem_map.mpr hgrid) e he
  have hsum := (hperm.map units).sum_eq
  rw [← hsum] at hroom ⊢
  obtain ⟨c, hc, hunits⟩ := sum?_exact hk hwhole hroom
  unfold metrics
  rw [(Metrics.zero.after_counted f.log).2]
  exact (congrArg units (foldl_saturatingAdd hc)).trans hunits

/--
**The counters agree with the books**, whatever has failed but the store, and in whatever way
the passes of ticks have taken turns.  As words of 64 bits, which start again at zero when
they are full, they show how many fills the ledger tells of, how many orders are filled, how
many are not cancelled and how many ticks have returned; and the volume is the saturating sum
of the amounts that the ledger tells of, in the order in which they were counted.
-/
theorem Served.accords (h : f.Served scale servings)
    (hstore : ∀ x ∈ f.log, x.unstored = false) : f.Accords servings := by
  have hexecutions := h.chronicle.executions_eq
  have hcensus := h.census
  obtain ⟨hfilled, hvolume⟩ := Metrics.zero.after_counted f.log
  obtain ⟨counted, hcounts, hcounted⟩ := h.counted
  have hledger : fillAmounts f.store.executions = (servings.flatMap (·.news)).map (·.amount) := by
    rw [hexecutions, fillAmounts_writtenOut, h.news_eq]
  have hvolume : f.metrics.executedVolume =
      ((servings.flatMap counted).map (·.amount)).foldl saturatingAdd .zero := hcounted ▸ hvolume
  refine ⟨⟨(newsOf f.log).length, ?_, ?_⟩, ?_, ?_, hledger, ⟨counted, hcounts, hvolume⟩,
    fun hserial => ?_, fun k hk hgrid hroom => h.volume_exact hk hgrid hroom, ?_,
    fun s hs fan outcome htick hother => ?_⟩
  · rw [hexecutions, FillEvent.length_writtenOut]
  · have hfills := Metrics.zero.fills_after f.log
    rw [(h.echoes reads_counted).length_eq] at hfills
    unfold newsOf
    rw [List.length_map] at hfills ⊢
    exact hfills.trans (UInt64.zero_add _)
  · have hcount := hcensus.filled
    rw [Store.census_eq, Nat.cast_inj] at hcount
    rw [hcount, ← sum_completed, ← (h.echoes reads_completed).sum_eq]
    exact hfilled.trans (UInt64.zero_add _)
  · have hsquared := h.squared hstore
    have hcount := hcensus.standing
    rw [Store.census_eq, hsquared] at hcount
    have hsum : f.log.countP (·.raises .submitted) =
        f.store.orders.countP (·.status != .cancelled) + f.log.countP (·.raises .cancelled) := by
      omega
    show f.metrics.reading .submitted - f.metrics.reading .cancelled = _
    rw [reading_metrics, reading_metrics, hsum, UInt64.ofNat_add, UInt64.add_sub_cancel]
  · rw [hvolume, hledger]
    have hsame : servings.flatMap counted = servings.flatMap (·.news) :=
      List.flatMap_congr fun s hs => (hcounts s hs).serial (hserial s hs)
    rw [hsame]
  · show f.metrics.reading .ticksRun + f.metrics.reading .ticksMarketClosed +
      f.metrics.reading .ticksOverlapped + f.metrics.reading .ticksIndexUnavailable = _
    rw [← h.ticksCounted]
    unfold Bourse.ticksCounted
    simp only [reading_metrics, UInt64.ofNat_add]
  · obtain ⟨hdone, -⟩ := h.each s hs
    cases hdone with
    | operation | find => cases htick
    | tick hticks =>
        cases htick
        exact hticks.same hother

/-- Of three orders, two trade and one of these is cancelled; the third one is not indexed. -/
def threeOrders : Floor :=
  let placed := session 2 .epoch [.order .sell (.ofDigits 1 0) (.ofDigits 1 0),
    .order .buy (.ofDigits 1 0) (.ofDigits 15 1)]
  let refused := (placed.answering full
    ((Operation.order .sell (.ofDigits 1 0) (.ofDigits 7 0)).work 2)).2
  let ticked := (refused.perform .epoch (Operation.tick.work 2)).2
  (ticked.perform .epoch ((Operation.cancel 2).work 2)).2

theorem reached_threeOrders : threeOrders.Reached 2 := by
  have hended (r : Except Failure Unit) : (ended r).Ended := by cases r <;> trivial
  have hplaced := reached_session 2 .epoch [.order .sell (.ofDigits 1 0) (.ofDigits 1 0),
    .order .buy (.ofDigits 1 0) (.ofDigits 15 1)]
  have hrefused := hplaced.after (.order .sell (.ofDigits 1 0) (.ofDigits 7 0))
    (leads_answering may_full _ _) (hended _)
  have hticked := hrefused.after .tick (leads_perform _ .epoch _) (hended _)
  exact hticked.after (.cancel 2) (leads_perform _ .epoch _) (hended _)

theorem accords_threeOrders : (∀ x ∈ threeOrders.log, x.unstored = false) ∧
    threeOrders.store.orders.map (·.status) = [.filled, .cancelled, .cancelled] ∧
    threeOrders.metrics.ordersSubmitted = 2 ∧ threeOrders.metrics.ordersCancelled = 1 ∧
    ∃ servings, threeOrders.Served 2 servings ∧ threeOrders.Accords servings := by
  have hstore : ∀ x ∈ threeOrders.log, x.unstored = false := by decide +kernel
  obtain ⟨servings, hserved, -⟩ := reached_threeOrders.served
  exact ⟨hstore, by decide +kernel, by decide +kernel, by decide +kernel, servings, hserved,
    Served.accords hserved hstore⟩

/-- **The volume need not be the sum in the order of the ledger**, though no call has failed. -/
theorem volume_not_in_order : ¬ ∀ (scale : Nat) (servings : List Serving) (f : Floor),
    f.Served scale servings → (∀ x ∈ f.log, x.unstored = false) →
      f.metrics.executedVolume = (fillAmounts f.store.executions).foldl saturatingAdd .zero := by
  intro hall
  obtain ⟨servings, hserved⟩ := served_overtaken
  have hstore : ∀ x ∈ overtaken.log, x.unstored = false := by decide +kernel
  have hdiffer : overtaken.metrics.executedVolume ≠
      (fillAmounts overtaken.store.executions).foldl saturatingAdd .zero := by decide +kernel
  exact hdiffer (hall 2 servings overtaken hserved hstore)

end Floor

end Bourse
