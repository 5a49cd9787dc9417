/-
What a reconciliation does to the books.

It reads the orders that are live, once, and goes by them from then on.  An order on
record agrees with itself, since its amounts and its status were last moved together by a
fill, so what it takes to belong in the index are just the orders that can be matched
(`History.survey_live`).

The rest is told by its calls.  It puts in nothing but what belongs, it takes out nothing
but what it has seen listed and what does not belong, and unless a call fails it has taken
out all of that and seen or put in all of this when it is done (`mendTickers_traced`).
-/
import Bourse.Proofs.Overfill
import Bourse.Proofs.Trace

namespace Bourse

open Decimal

/-! ### Orders agree with themselves -/

/-- Unless it was cancelled, what remains and the status are what the amounts say. -/
def Order.Agrees (o : Order) : Prop := o.status ≠ .cancelled →
  o.amount.sub o.executedAmount = some o.remainingAmount ∧ o.derivedStatus = o.status

namespace Order

variable {o after : Order}

theorem derivedStatus_eq (h : o.status ≠ .cancelled) : o.derivedStatus =
    if o.remainingAmount.isZero then .filled
      else if o.executedAmount.isZero then .live else .partlyFilled := by
  simp [derivedStatus, h]

theorem agrees_ofRequest {request : OrderRequest} (hpositive : request.amount.positive = true)
    (id : OrderId) (time : Instant) : (Order.ofRequest id request time).Agrees := by
  intro hlive
  have hunits := positive_iff.mp hpositive
  have hleft : (Order.ofRequest id request time).remainingAmount.isZero = false := by
    rw [← Bool.not_eq_true, isZero_iff]
    exact Int.ne_of_gt hunits
  refine ⟨sub_zero hunits, ?_⟩
  rw [derivedStatus_eq hlive, hleft]
  rfl

theorem FilledTo.agrees {amount price : Decimal} {scale : Nat} {time : Instant}
    (h : o.FilledTo amount price scale time after) (hlive : o.status ≠ .cancelled) :
    after.Agrees := by
  intro hafter
  refine ⟨by rw [h.terms.amount]; exact h.remaining, ?_⟩
  rw [derivedStatus_eq hafter, h.status]
  exact (derivedStatus_eq (o := { after with status := o.status }) hlive).symm

theorem Agrees.consistent (h : o.Agrees) (hlive : o.status.terminal = false) :
    o.consistent? = some (!o.remainingAmount.negative) := by
  have hne : o.status ≠ .cancelled := by
    intro hc
    simp [hc, OrderStatus.terminal] at hlive
  obtain ⟨hsub, hstatus⟩ := h hne
  unfold consistent?
  by_cases hneg : o.remainingAmount.negative = true
  · simp [hneg]
  · simp [hneg, hsub, hstatus, Decimal.same]

end Order

namespace Store

variable {scale : Nat} {s : Store}

theorem History.agrees (h : s.History scale) : ∀ o ∈ s.orders, o.Agrees := by
  induction h with
  | empty => exact List.forall_mem_nil _
  | place _ request time hamount _ ih =>
      intro o ho
      rcases List.mem_append.mp ho with hin | hnew
      · exact ih o hin
      · rw [List.mem_singleton.mp hnew]
        exact Order.agrees_ofRequest hamount _ time
  | cancel _ hfind _ time ih =>
      intro p hp
      rcases mem_orders_replace hp with rfl | hin
      · exact fun hc => absurd rfl hc
      · exact ih p hin
  | trade _ t ih =>
      intro o ho
      rcases t.mem_orders_commit ho with rfl | rfl | ⟨hin, -, -⟩
      · exact t.incomingFilled.agrees (Order.ne_cancelled_of_matchable t.matchable)
      · exact t.counterFilled.agrees (Order.ne_cancelled_of_matchable t.counter_matchable)
      · exact ih o hin

end Store

namespace Reconciliation

/-- Unless a difference has no room, those belong that agree and can be matched. -/
theorem survey_eq {live : List Order} (h : ∀ o ∈ live, ∃ b, o.consistent? = some b) :
    ∃ n, survey live =
      some (live.filter fun o => o.consistent? == some true && o.matchable, n) := by
  induction live with
  | nil => exact ⟨0, rfl⟩
  | cons p live ih =>
      obtain ⟨⟨b, hp⟩, hrest⟩ := List.forall_mem_cons.mp h
      obtain ⟨n, hsurvey⟩ := ih hrest
      unfold survey
      rw [hp, hsurvey]
      cases b with
      | false => exact ⟨n + 1, by simp [hp]⟩
      | true => exact ⟨n, by by_cases hmatch : p.matchable = true <;> simp [hp, hmatch]⟩

/-- Among orders that agree with themselves, those belong that can be matched. -/
theorem survey_of_agrees {live : List Order}
    (h : ∀ o ∈ live, o.Agrees ∧ o.status.terminal = false) :
    ∃ belonging n, survey live = some (belonging, n) ∧
      ∀ o, o ∈ belonging ↔ o ∈ live ∧ o.matchable = true := by
  have hconsistent (o : Order) (ho : o ∈ live) := (h o ho).1.consistent (h o ho).2
  obtain ⟨n, hsurvey⟩ := survey_eq fun o ho => ⟨_, hconsistent o ho⟩
  refine ⟨_, n, hsurvey, fun o => ?_⟩
  rw [List.mem_filter, Bool.and_eq_true, beq_iff_eq]
  refine and_congr_right fun ho => ⟨And.right, fun hmatch => ⟨?_, hmatch⟩⟩
  obtain ⟨-, hpositive⟩ := Bool.and_eq_true_iff.mp hmatch
  have hneg : o.remainingAmount.negative = false := by
    simpa [negative] using Int.le_of_lt (of_decide_eq_true hpositive)
  rw [hconsistent o ho, hneg]
  rfl

end Reconciliation

/-- **What belongs in the index are the orders on record that can be matched.** -/
theorem Store.History.survey_live {scale : Nat} {s : Store} (h : s.History scale) :
    ∃ belonging n, Reconciliation.survey s.live = some (belonging, n) ∧
      ∀ o, o ∈ belonging ↔ o ∈ s.orders ∧ o.matchable = true := by
  have hlive (o : Order) : o ∈ s.live ↔ o ∈ s.orders ∧ o.status.terminal = false := by
    simp [Store.live]
  obtain ⟨belonging, n, hsurvey, hmem⟩ := Reconciliation.survey_of_agrees fun o ho =>
    ⟨h.agrees o ((hlive o).mp ho).1, ((hlive o).mp ho).2⟩
  refine ⟨belonging, n, hsurvey, fun o => ?_⟩
  rw [hmem, hlive]
  refine ⟨fun ⟨ho, hmatch⟩ => ⟨ho.1, hmatch⟩, fun ⟨ho, hmatch⟩ => ⟨⟨ho, ?_⟩, hmatch⟩⟩
  exact (Order.matchable_iff.mp hmatch).1

/-! ### Its calls -/

namespace Reconciliation

/-- Is there an order with this identifier that belongs in the book? -/
def Belongs (belonging : List Order) (side : Side) (ticker : String) (id : OrderId) : Prop :=
  ∃ o ∈ belonging, o.side = side ∧ o.ticker = ticker ∧ o.id = id

/-- Was the book answered with a list that has this entry? -/
def Listed (side : Side) (ticker : String) (id : OrderId) (calls : List Answered) : Prop :=
  ∃ ids, (⟨.index (.list side ticker), .ok ids⟩ : Answered) ∈ calls ∧ id ∈ ids

/-- Was the order to be put into its book? -/
def Enqueued (side : Side) (ticker : String) (id : OrderId) (calls : List Answered) : Prop :=
  ∃ price a, (⟨.index (.enqueue side ticker id price), a⟩ : Answered) ∈ calls

/-- Which calls come after which, while the books are mended. -/
def Mends (belonging : List Order) (calls : List Answered) : Call → Prop
  | .index (.enqueue side ticker id _) => Belongs belonging side ticker id
  | .index (.remove side ticker id) =>
      Listed side ticker id calls ∧ ¬ Belongs belonging side ticker id
  | .index _ => True
  | _ => False

theorem Mends.quiet {belonging : List Order} {calls : List Answered} {c : Call}
    (h : Mends belonging calls c) : c.quiet = true := by
  cases c with
  | index => rfl
  | _ => exact h.elim

/-- All that was seen and does not belong was to be taken out. -/
def Cleared (belonging : List Order) (calls : List Answered) : Prop :=
  ∀ side ticker id, Listed side ticker id calls → ¬ Belongs belonging side ticker id →
    Removed side ticker id calls

/-- The order was seen, or it was to be put in. -/
def Shown (calls : List Answered) (o : Order) : Prop :=
  Listed o.side o.ticker o.id calls ∨ Enqueued o.side o.ticker o.id calls

/-- A call of the work has failed. -/
def Balked (calls : List Answered) : Prop := ∃ e ∈ calls, e.refused = true

variable {belonging : List Order} {side : Side} {ticker : String} {id : OrderId}
  {calls later : List Answered}

theorem Listed.mono (h : Listed side ticker id calls) (hsub : calls ⊆ later) :
    Listed side ticker id later :=
  h.imp fun _ ⟨hin, hid⟩ => ⟨hsub hin, hid⟩

theorem Shown.mono {o : Order} (h : Shown calls o) (hsub : calls ⊆ later) : Shown later o :=
  h.imp (·.mono hsub) fun ⟨price, a, hin⟩ => ⟨price, a, hsub hin⟩

theorem balked_index {c : IndexCall} {e : Error} :
    Balked (calls ++ [⟨.index c, .error e⟩]) := ⟨_, List.mem_append_right _ List.mem_cons_self, rfl⟩

theorem Belongs.of_mem {o : Order} (ho : o ∈ belonging) : Belongs belonging o.side o.ticker o.id :=
  ⟨o, ho, rfl, rfl, rfl⟩

/-- Nothing was listed that had not been listed before. -/
def NoneListed (calls later : List Answered) : Prop :=
  ∀ side ticker id, Listed side ticker id later → Listed side ticker id calls

theorem NoneListed.call {c : IndexCall} {a : (Call.index c).Answer}
    (h : NoneListed (calls ++ [⟨.index c, a⟩]) later) (hc : ∀ side ticker, c ≠ .list side ticker) :
    NoneListed calls later := by
  intro side ticker id hlisted
  obtain ⟨ids, hin, hid⟩ := h side ticker id hlisted
  refine ⟨ids, (List.mem_append.mp hin).resolve_right fun hnew => ?_, hid⟩
  rw [List.mem_singleton, Answered.mk.injEq] at hnew
  exact hc side ticker (Call.index.inj hnew.1).symm

theorem enqueueAll_traced {os : List Order}
    (hos : ∀ o ∈ os, o ∈ belonging ∧ o.side = side ∧ o.ticker = ticker) :
    (enqueueAll side ticker os).Traced (Mends belonging) (fun r later => match r with
      | .ok _ => NoneListed calls later ∧ ∀ o ∈ os, Enqueued side ticker o.id later
      | .error _ => Balked later) calls := by
  induction os generalizing calls with
  | nil => exact ⟨fun _ _ _ h => h, List.forall_mem_nil _⟩
  | cons o os ih =>
      obtain ⟨⟨ho, rfl, rfl⟩, hrest⟩ := List.forall_mem_cons.mp hos
      refine ⟨.of_mem ho, fun a => ?_⟩
      cases a with
      | error e => exact balked_index
      | ok a =>
          refine (ih hrest).grows.mono (fun _ _ h => h) fun r later h => ?_
          cases r with
          | error e => exact h.1
          | ok b =>
              obtain ⟨⟨hnone, hput⟩, hsub⟩ := h
              refine ⟨hnone.call fun _ _ => nofun, List.forall_mem_cons.mpr ⟨?_, hput⟩⟩
              exact ⟨o.price, .ok a, hsub (by simp)⟩

theorem removeAll_traced {ids : List OrderId}
    (hids : ∀ id ∈ ids, Listed side ticker id calls ∧ ¬ Belongs belonging side ticker id) :
    (removeAll side ticker ids).Traced (Mends belonging) (fun r later => match r with
      | .ok _ => NoneListed calls later ∧ ∀ id ∈ ids, Removed side ticker id later
      | .error _ => Balked later) calls := by
  induction ids generalizing calls with
  | nil => exact ⟨fun _ _ _ h => h, List.forall_mem_nil _⟩
  | cons id ids ih =>
      obtain ⟨hid, hrest⟩ := List.forall_mem_cons.mp hids
      refine ⟨hid, fun a => ?_⟩
      cases a with
      | error e => exact balked_index
      | ok a =>
          have hrest' : ∀ id' ∈ ids, Listed side ticker id'
              (calls ++ [⟨.index (.remove side ticker id), .ok a⟩]) ∧
                ¬ Belongs belonging side ticker id' :=
            fun id' hid' => (hrest id' hid').imp_left (·.mono (List.subset_append_left _ _))
          refine (ih hrest').grows.bind (fun n later h => ?_) fun e later h => h.1
          obtain ⟨⟨hnone, hremoved⟩, hsub⟩ := h
          refine ⟨hnone.call fun _ _ => nofun, List.forall_mem_cons.mpr ⟨?_, hremoved⟩⟩
          exact ⟨.ok a, hsub (by simp)⟩

/-- A book that is mended: what is amiss has been taken out, and what belongs is shown. -/
theorem mendBook_traced (hcleared : Cleared belonging calls) (side : Side) (ticker : String) :
    (mendBook belonging side ticker).Traced (Mends belonging) (fun r later => match r with
      | .ok _ => Cleared belonging later ∧
        ∀ o ∈ belonging, o.side = side → o.ticker = ticker → Shown later o
      | .error _ => Balked later) calls := by
  refine ⟨trivial, fun answer => ?_⟩
  cases answer with
  | error e => exact balked_index
  | ok indexed =>
      -- Of what is listed now, that is taken out which does not belong.
      have hnow {id : OrderId} (hid : id ∈ indexed) : Listed side ticker id
          (calls ++ [⟨.index (.list side ticker), .ok indexed⟩]) := ⟨indexed, by simp, hid⟩
      have hmem (o : Order) : o ∈ belonging.filter (fun o => o.side == side && o.ticker == ticker) ↔
          o ∈ belonging ∧ o.side = side ∧ o.ticker = ticker := by
        simp
      show (enqueueAll side ticker _ >>= _).Traced _ _ _
      refine (enqueueAll_traced fun o ho => (hmem o).mp (List.mem_filter.mp ho).1).grows.bind
        (fun _ put h => ?_) fun _ _ h => h.1
      obtain ⟨⟨hnone, hput⟩, hsub⟩ := h
      refine (removeAll_traced fun id hid => ?_).grows.bind (fun n later h => ?_) fun _ _ h => h.1
      · obtain ⟨hin, hstale⟩ := List.mem_filter.mp hid
        refine ⟨(hnow hin).mono hsub, ?_⟩
        rintro ⟨o, ho, rfl, rfl, rfl⟩
        simp at hstale
        exact hstale o ho rfl rfl rfl
      · obtain ⟨⟨hnone', hremoved⟩, hsub'⟩ := h
        refine ⟨fun side' ticker' id hlisted habsent => ?_, fun o ho hside hticker => ?_⟩
        · obtain ⟨ids, hin, hid⟩ := hnone _ _ _ (hnone' _ _ _ hlisted)
          rcases List.mem_append.mp hin with hin | hnew
          · refine (hcleared side' ticker' id ⟨ids, hin, hid⟩ habsent).mono fun e he => ?_
            exact hsub' (hsub (List.mem_append_left _ he))
          · cases List.mem_singleton.mp hnew
            refine hremoved id (List.mem_filter.mpr ⟨hid, ?_⟩)
            by_contra hlive
            simp at hlive
            exact habsent hlive
        · subst hside hticker
          by_cases hin : o.id ∈ indexed
          · exact Or.inl (((hnow hin).mono hsub).mono hsub')
          · obtain ⟨price, a, hin⟩ := hput o (List.mem_filter.mpr
              ⟨(hmem o).mpr ⟨ho, rfl, rfl⟩, by simp [hin]⟩)
            exact Or.inr ⟨price, a, hsub' hin⟩

/-- **Unless a call fails, all books are mended in the end.** -/
theorem mendTickers_traced (hcleared : Cleared belonging calls) (tickers : List String) :
    (mendTickers belonging tickers).Traced (Mends belonging) (fun r later => match r with
      | .ok _ => Cleared belonging later ∧ ∀ o ∈ belonging, o.ticker ∈ tickers → Shown later o
      | .error _ => Balked later) calls := by
  induction tickers generalizing calls with
  | nil => exact ⟨hcleared, fun _ _ h => nomatch h⟩
  | cons ticker tickers ih =>
      unfold mendTickers
      refine (mendBook_traced hcleared .buy ticker).bind (fun _ bought h => ?_) fun _ _ h => h
      obtain ⟨hcleared, hbuys⟩ := h
      refine (mendBook_traced hcleared .sell ticker).grows.bind (fun _ sold h => ?_)
        fun _ _ h => h.1
      obtain ⟨⟨hcleared, hsells⟩, hsub⟩ := h
      refine (ih hcleared).grows.bind (fun _ later h => ?_) fun _ _ h => h.1
      obtain ⟨⟨hcleared, hshown⟩, hsub'⟩ := h
      refine ⟨hcleared, fun o ho hticker => ?_⟩
      rcases List.mem_cons.mp hticker with hhere | hlater
      · cases hside : o.side with
        | buy => exact ((hbuys o ho hside hhere).mono hsub).mono hsub'
        | sell => exact (hsells o ho hside hhere).mono hsub'
      · exact hshown o ho hlater

/-- What is done once the live orders have been read. -/
def mend (live : List Order) : Action Reconciliation := do
  let (belonging, discrepancies) ← Action.total .subtraction (survey live)
  let indexed ← Action.index .tickers
  let tickers := belonging.foldl (fun ts o => WaitingIndex.insertTicker o.ticker ts)
    (indexed.foldl (fun ts t => WaitingIndex.insertTicker t ts) [])
  let (enqueued, staleRemoved) ← mendTickers belonging tickers
  return { liveOrders := live.length, enqueued, staleRemoved, discrepancies }

theorem reconcile_eq : reconcile = Action.store .live >>= mend := rfl

/-- **How the index is mended**, going by the live orders that were read. -/
theorem mend_traced {live : List Order} {n : Nat} (hsurvey : survey live = some (belonging, n))
    (hcleared : Cleared belonging calls) :
    (mend live).Traced (Mends belonging) (fun r later => match r with
      | .ok _ => Cleared belonging later ∧ ∀ o ∈ belonging, Shown later o
      | .error _ => Balked later) calls := by
  unfold mend
  rw [hsurvey]
  refine ⟨trivial, fun answer => ?_⟩
  cases answer with
  | error e => exact balked_index
  | ok indexed =>
      have hcleared' : Cleared belonging (calls ++ [⟨.index .tickers, .ok indexed⟩]) := by
        intro side ticker id ⟨ids, hin, hid⟩ habsent
        have hin := (List.mem_append.mp hin).resolve_right (by simp)
        exact (hcleared side ticker id ⟨ids, hin, hid⟩ habsent).mono (List.subset_append_left _ _)
      show (mendTickers belonging _ >>= _).Traced _ _ _
      refine (mendTickers_traced hcleared' _).bind (fun _ later h => ?_) fun _ _ h => h
      refine ⟨h.1, fun o ho => h.2 o ho ?_⟩
      rw [WaitingIndex.mem_foldl_insertTicker (fun o : Order => o.ticker)]
      exact Or.inr ⟨o, ho, rfl⟩

end Reconciliation

end Bourse
