/-
Rules that the calls of all work obey.

Most calls have nothing to do with each other: what is true of the calls of one piece of
work and of those of another is then true of all of them.  The exception is a fill, which
is counted right after it is committed and told of once the entry of the waiting order was
dropped.  A `Rule` is a property of calls that puts up with this: it is kept where calls
are put together, by a single call that has to do with no fill, and by all the calls of a
fill from its commit to its event.

Which calls a piece of work makes is followed here once.  All that is read off the calls
later on, of events or of counters, is a rule.
-/
import Bourse.Proofs.Tally

namespace Bourse

/-- What a call is made for. -/
inductive CallKind
  /-- To commit a fill, to count it or to tell of it. -/
  | fill
  /-- To place or cancel an order for its owner, or to count that. -/
  | owner
  /-- To begin, end or count a tick. -/
  | tick
  | plain
deriving DecidableEq

/-- What the call is made for. -/
def Call.kind : Call → CallKind
  | store (.commit _) | recordFill .. | notify _ => .fill
  | store (.insert ..) | store (.cancel ..) | count .submitted | count .cancelled => .owner
  | marketOpen _ | beginTick | endTick | count .ticksRun | count .ticksMarketClosed
  | count .ticksOverlapped | count .ticksIndexUnavailable => .tick
  | store (.load _) | store (.loadMany _) | store (.executions _) | store .live | index _ | now
  | count .processed | count .failed => .plain

/-- A property of calls that is kept call by call, and fill by fill. -/
structure Rule (P : List Answered → Prop) : Prop where
  nil : P []
  append : ∀ {calls later}, P calls → P later → P (calls ++ later)
  plain : ∀ {c : Call} (a : c.Answer), c.kind = .plain → P [⟨c, a⟩]
  /-- A commit that does not go through. -/
  missed : ∀ {fill : FillCommit} {a : (Call.store (.commit fill)).Answer},
    Answered.fill? ⟨.store (.commit fill), a⟩ = none → P [⟨.store (.commit fill), a⟩]
  /-- A fill, from its commit to its event. -/
  settled : ∀ (fill : FillCommit) (receipt : FillReceipt) (told : Bool) {drops : List Answered},
    (∀ x ∈ drops, x.call.kind = .plain) →
      P (⟨.store (.commit fill), .ok (.committed receipt)⟩ ::
        ⟨.recordFill fill.amount fill.completed, ()⟩ :: (drops ++ [⟨.notify fill.event, told⟩]))

/-- The property is kept by calls of a kind. -/
def CallKind.Keeps (kind : CallKind) (P : List Answered → Prop) : Prop :=
  ∀ {c : Call} (a : c.Answer), c.kind = kind → P [⟨c, a⟩]

/-- A property of lists that every call has which is not an owner's or a tick's is a rule. -/
theorem Rule.of_single {P : List Answered → Prop} (nil : P [])
    (append : ∀ {calls later}, P calls → P later → P (calls ++ later))
    (single : ∀ {c : Call} (a : c.Answer), c.kind = .plain ∨ c.kind = .fill → P [⟨c, a⟩]) :
    Rule P where
  nil := nil
  append := append
  plain a hc := single a (.inl hc)
  missed _ := single _ (.inr rfl)
  settled fill receipt told drops hdrops := by
    have hplain : P drops := by
      induction drops with
      | nil => exact nil
      | cons x drops ih =>
          obtain ⟨hx, hdrops⟩ := List.forall_mem_cons.mp hdrops
          exact append (single x.answer (.inl hx)) (ih hdrops)
    have hcommit : P [⟨.store (.commit fill), .ok (.committed receipt)⟩] := single _ (.inr rfl)
    have hcount : P [⟨.recordFill fill.amount fill.completed, ()⟩] := single _ (.inr rfl)
    exact append hcommit (append hcount (append hplain (single _ (.inr rfl))))

/-! ### The calls of work -/

namespace Action

variable {α β : Type} {P : List Answered → Prop}

/-- However it ends, the work makes calls of which the property is true. -/
def Upholds (P : List Answered → Prop) (work : Action α) : Prop := work.Makes fun _ calls => P calls

theorem Makes.attemptError {goal : List Answered → Prop} {work : Action α}
    (h : work.Makes fun _ calls => goal calls) :
    work.attemptError.Makes fun _ calls => goal calls := by
  induction work generalizing goal with
  | done a => exact h
  | fail e => cases e <;> exact h
  | call c rest ih => exact fun a => ih a (h a)

theorem Upholds.bind {work : Action α} {next : α → Action β} (h : work.Upholds P) (hP : Rule P)
    (hnext : ∀ a, (next a).Upholds P) : (work >>= next).Upholds P :=
  Makes.bind h (fun a _ hcalls => (hnext a).mono fun _ _ hlater => hP.append hcalls hlater)
    fun _ _ hcalls => hcalls

theorem Upholds.attempt {work : Action α} (h : work.Upholds P) : work.attempt.Upholds P := by
  refine (Makes.attempt h).mono fun r calls hcalls => ?_
  obtain ⟨_, -, hcalls⟩ := hcalls
  exact hcalls

theorem Upholds.attemptError {work : Action α} (h : work.Upholds P) :
    work.attemptError.Upholds P := Makes.attemptError h

end Action

namespace Rule

open Bourse.Action

variable {α : Type} {P : List Answered → Prop} (hP : Rule P)

include hP

theorem done (a : α) : (done a).Upholds P := hP.nil

theorem fail (e : Failure) : (fail e : Action α).Upholds P := hP.nil

theorem ofExcept (r : Except Error α) : (ofExcept r).Upholds P := by
  cases r <;> exact hP.nil

theorem total (o : Overflow) (a : Option α) : (total o a).Upholds P := by
  cases a <;> exact hP.nil

theorem cons {x : Answered} {calls : List Answered} (hx : P [x]) (h : P calls) : P (x :: calls) :=
  hP.append hx h

theorem call {c : Call} (hc : ∀ a : c.Answer, P [⟨c, a⟩]) {rest : c.Answer → Action α}
    (h : ∀ a, (rest a).Upholds P) : (call c rest).Upholds P :=
  fun a => (h a).mono fun _ _ hcalls => hP.cons (hc a) hcalls

theorem store {c : StoreCall} (hc : ∀ a : (Call.store c).Answer, P [⟨.store c, a⟩]) :
    (store c).Upholds P := by
  refine hP.call hc fun a => ?_
  cases a <;> exact hP.nil

theorem index (c : IndexCall) : (index c).Upholds P := by
  refine hP.call (fun a => hP.plain a rfl) fun a => ?_
  cases a <;> exact hP.nil

/-! ### Matching -/

theorem dropFilled (o : Order) (ticker : String) : (o.dropFilled ticker).Upholds P := by
  unfold Order.dropFilled
  split
  · exact (hP.index _).attempt.bind hP fun _ => hP.done ()
  · exact hP.done ()

omit hP in
/-- An entry is dropped by a call on the index, if it is dropped at all. -/
theorem dropFilled_plain (o : Order) (ticker : String) :
    (o.dropFilled ticker).Yields fun _ calls => ∀ x ∈ calls, x.call.kind = .plain := by
  unfold Order.dropFilled
  split
  · intro a
    cases a <;> exact ⟨(), rfl, by simp [Call.kind]⟩
  · exact ⟨(), rfl, by simp⟩

/-- Once a fill is committed, all its calls are made. -/
theorem settle (fill : FillCommit) (receipt : FillReceipt) (ticker : String) :
    (fill.settle ticker).Yields fun _ calls =>
      P (⟨.store (.commit fill), .ok (.committed receipt)⟩ :: calls) := by
  intro _
  refine (dropFilled_plain fill.counter ticker).bind fun _ drops hdrops told => ?_
  exact ⟨(), rfl, hP.settled fill receipt told hdrops⟩

variable (scale : Nat)

theorem walk (ticker : String) (counters : List Order) (o : Order) :
    (walk scale ticker counters o).Upholds P := by
  induction counters generalizing o with
  | nil => exact hP.done _
  | cons p counters ih =>
      unfold Bourse.walk
      split
      · exact hP.done _
      · refine hP.call (fun a => hP.plain a rfl) fun time =>
          (hP.ofExcept _).bind hP fun fill answer => ?_
        cases answer with
        | error e => exact hP.missed rfl
        | ok outcome =>
            cases outcome with
            | committed receipt =>
                show (fill.settle ticker >>= _).Makes _
                refine (hP.settle fill receipt ticker).bind fun _ calls hcalls => ?_
                refine ((ih fill.incoming).bind hP fun _ => hP.done _).mono
                  fun r later hlater => ?_
                exact hP.append hcalls hlater
            | counterUnavailable =>
                exact (ih o).mono fun _ _ hlater => hP.cons (hP.missed rfl) hlater
            | incomingUnavailable => exact hP.missed rfl

theorem nominated (o : Order) (loaded : List Order) (ids : List OrderId) :
    (o.nominated loaded ids).Upholds P := by
  induction ids with
  | nil => exact hP.done _
  | cons id ids ih =>
      have hdrop : (o.dropStale id (o.nominated loaded ids)).Upholds P :=
        (hP.index _).bind hP fun _ => ih.bind hP fun _ => hP.done _
      unfold Order.nominated
      split
      · split
        · exact ih.bind hP fun _ => hP.done _
        · exact hdrop
      · exact hdrop

theorem candidates (o : Order) : o.candidates.Upholds P := by
  unfold Order.candidates
  refine (hP.index _).bind hP fun ids => ?_
  dsimp only
  split
  · exact hP.done _
  · exact (hP.store fun a => hP.plain a rfl).bind hP fun loaded =>
      (hP.nominated o loaded ids).bind hP fun _ => hP.done _

theorem processOrder (id : OrderId) (ticker : String) :
    (processOrder scale id ticker).Upholds P := by
  unfold Bourse.processOrder
  refine (hP.store fun a => hP.plain a rfl).bind hP fun found => ?_
  cases found with
  | none => exact hP.done _
  | some o =>
      dsimp only
      split
      · exact hP.fail _
      · split
        · exact (hP.index _).bind hP fun _ => hP.done _
        · refine (hP.candidates o).bind hP fun found => ?_
          refine (hP.walk scale ticker found.1 o).bind hP fun walked => ?_
          exact (hP.dropFilled walked.1 ticker).bind hP fun _ => hP.done _

/-! ### Passes -/

theorem drainOrders (ticker : String) (ids : List OrderId) (r : TickReport) :
    (drainOrders scale ticker ids r).Upholds P := by
  induction ids generalizing r with
  | nil => exact hP.done r
  | cons id ids ih =>
      unfold Bourse.drainOrders
      refine hP.call (fun a => hP.plain a rfl) fun _ =>
        (hP.processOrder scale id ticker).attemptError.bind hP fun turn => ?_
      cases turn with
      | ok report =>
          exact (hP.total _ _).bind hP fun filled => (hP.total _ _).bind hP fun amount => ih _
      | error e => exact hP.call (fun a => hP.plain a rfl) fun _ => ih _

theorem drainSide (ticker : String) (side : Side) (r : TickReport) :
    (drainSide scale ticker side r).Upholds P := by
  unfold Bourse.drainSide
  refine (hP.index _).attemptError.bind hP fun listed => ?_
  cases listed with
  | ok ids => exact hP.drainOrders scale ticker ids r
  | error e => exact hP.done _

theorem drainTicker (ticker : String) : (drainTicker scale ticker).Upholds P :=
  (hP.drainSide scale ticker .buy _).bind hP fun r => hP.drainSide scale ticker .sell r

/-! ### Owners and reconciling -/

theorem submit (howner : CallKind.owner.Keeps P) (tradable : List String) (request : OrderRequest) :
    (submit tradable request).Upholds P := by
  unfold Bourse.submit
  refine (hP.ofExcept _).bind hP fun _ => hP.call (fun a => hP.plain a rfl) fun createdAt =>
    (hP.store fun a => howner a rfl).bind hP fun o =>
      (hP.index _).attemptError.bind hP fun put => ?_
  cases put with
  | ok => exact hP.call (fun a => howner a rfl) fun _ => hP.done o
  | error e =>
      exact hP.call (fun a => hP.plain a rfl) fun time =>
        (hP.store fun a => howner a rfl).attempt.bind hP fun _ => hP.fail _

theorem cancel (howner : CallKind.owner.Keeps P) (id : OrderId) : (cancel id).Upholds P := by
  unfold Bourse.cancel
  refine hP.call (fun a => hP.plain a rfl) fun time =>
    (hP.store fun a => howner a rfl).bind hP fun found => ?_
  cases found with
  | some o =>
      exact (hP.index _).attempt.bind hP fun _ =>
        hP.call (fun a => howner a rfl) fun _ => hP.done o
  | none =>
      refine (hP.store fun a => hP.plain a rfl).bind hP fun found => ?_
      cases found with
      | none => exact hP.fail _
      | some o => exact (hP.ofExcept _).bind hP fun _ => hP.fail _

theorem findOrder (id : OrderId) : (findOrder id).Upholds P := by
  unfold Bourse.findOrder
  refine (hP.store fun a => hP.plain a rfl).bind hP fun found => ?_
  cases found with
  | none => exact hP.fail _
  | some o => exact hP.done o

open Reconciliation in
theorem reconcile : reconcile.Upholds P := by
  have henqueue (side : Side) (ticker : String) (os : List Order) :
      (enqueueAll side ticker os).Upholds P := by
    induction os with
    | nil => exact hP.done ()
    | cons o os ih => exact (hP.index _).bind hP fun _ => ih
  have hremove (side : Side) (ticker : String) (ids : List OrderId) :
      (removeAll side ticker ids).Upholds P := by
    induction ids with
    | nil => exact hP.done 0
    | cons id ids ih => exact (hP.index _).bind hP fun _ => ih.bind hP fun _ => hP.done _
  have hbook (belonging : List Order) (side : Side) (ticker : String) :
      (mendBook belonging side ticker).Upholds P :=
    (hP.index _).bind hP fun _ => (henqueue side ticker _).bind hP fun _ =>
      (hremove side ticker _).bind hP fun _ => hP.done _
  have htickers (belonging : List Order) (tickers : List String) :
      (mendTickers belonging tickers).Upholds P := by
    induction tickers with
    | nil => exact hP.done _
    | cons ticker tickers ih =>
        exact (hbook belonging .buy ticker).bind hP fun _ =>
          (hbook belonging .sell ticker).bind hP fun _ => ih.bind hP fun _ => hP.done _
  unfold Bourse.reconcile
  exact (hP.store fun a => hP.plain a rfl).bind hP fun live => (hP.total _ _).bind hP fun survey =>
    (hP.index _).bind hP fun tickers => (htickers _ _).bind hP fun _ => hP.done _

/-- **A rule that owners keep is upheld by every operation**, other than a tick. -/
theorem work (howner : CallKind.owner.Keeps P) {op : Operation} (hop : op ≠ .tick) :
    (op.work scale).Upholds P := by
  cases op with
  | submit tradable request =>
      exact (hP.submit howner tradable request).bind hP fun _ => hP.done ()
  | cancel id => exact (hP.cancel howner id).bind hP fun _ => hP.done ()
  | tick => exact absurd rfl hop
  | recover => exact hP.reconcile.bind hP fun _ => hP.done ()
  | process id ticker => exact (hP.processOrder scale id ticker).bind hP fun _ => hP.done ()

end Rule

/-! ### Rules of what a fill is followed by -/

/-- What is read off the calls is what was to be read of each of the fills they have committed. -/
def Echoes {β : Type} (read : Answered → Option β) (of : FillCommit → β) (calls : List Answered) :
    Prop :=
  calls.filterMap read = (calls.filterMap (·.fill?)).map of

/-- Something is read once of every fill, where it is counted or where it is told of. -/
structure FillCommit.Reads {β : Type} (read : Answered → Option β) (of : FillCommit → β) :
    Prop where
  other : ∀ {c : Call} (a : c.Answer), c.kind ≠ .fill → read ⟨c, a⟩ = none
  commit : ∀ (fill : FillCommit) (a : (Call.store (.commit fill)).Answer),
    read ⟨.store (.commit fill), a⟩ = none
  once : ∀ (fill : FillCommit) (told : Bool),
    [(⟨.recordFill fill.amount fill.completed, ()⟩ : Answered),
      ⟨.notify fill.event, told⟩].filterMap read = [of fill]

theorem Answered.fill?_of_kind {c : Call} (hc : c.kind ≠ .fill) (a : c.Answer) :
    Answered.fill? ⟨c, a⟩ = none := by
  cases c with
  | store c =>
      cases c with
      | commit fill => exact absurd rfl hc
      | _ => rfl
  | _ => rfl

namespace FillCommit.Reads

variable {β : Type} {read : Answered → Option β} {of : FillCommit → β} (h : Reads read of)

include h

theorem keeps {kind : CallKind} (hkind : kind ≠ .fill) : kind.Keeps (Echoes read of) := by
  intro c a hc
  have hne : c.kind ≠ .fill := hc ▸ hkind
  unfold Echoes
  rw [List.filterMap_cons_none (h.other a hne),
    List.filterMap_cons_none (Answered.fill?_of_kind hne a)]
  rfl

/-- Dropping an entry is neither committing a fill nor to be read anything off. -/
theorem drops {calls : List Answered} (hplain : ∀ x ∈ calls, x.call.kind = .plain) :
    calls.filterMap read = [] ∧ calls.filterMap (·.fill?) = [] := by
  have hne : ∀ x ∈ calls, x.call.kind ≠ .fill := fun x hx => by rw [hplain x hx]; decide
  exact ⟨List.filterMap_eq_nil_iff.mpr fun x hx => h.other x.answer (hne x hx),
    List.filterMap_eq_nil_iff.mpr fun x hx => Answered.fill?_of_kind (hne x hx) x.answer⟩

theorem rule : Rule (Echoes read of) where
  nil := rfl
  append hcalls hlater := by
    unfold Echoes at hcalls hlater ⊢
    rw [List.filterMap_append, List.filterMap_append, List.map_append, hcalls, hlater]
  plain a hc := h.keeps (show CallKind.plain ≠ .fill by decide) a hc
  missed {fill a} hmissed := by
    unfold Echoes
    rw [List.filterMap_cons_none (h.commit fill a), List.filterMap_cons_none hmissed]
    rfl
  settled fill receipt told {calls} hplain := by
    obtain ⟨hread, hfill⟩ := h.drops hplain
    have honce := h.once fill told
    rw [List.filterMap_cons, List.filterMap_cons, List.filterMap_nil] at honce
    unfold Echoes
    rw [List.filterMap_cons_none (h.commit fill _), List.filterMap_cons, List.filterMap_append,
      List.filterMap_cons, List.filterMap_nil, hread, List.nil_append, honce]
    show [of fill] = (fill :: (calls ++ _).filterMap (·.fill?)).map of
    rw [List.filterMap_append, hfill]
    rfl

end FillCommit.Reads

end Bourse
