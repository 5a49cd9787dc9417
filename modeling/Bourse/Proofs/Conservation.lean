/-
No amount is lost or made.

Amounts are decimals and sums of decimals are rounded, so nothing is conserved in
general.  But if all the amounts that were asked for lie on one grid, multiples of a
power of ten with room for each in a mantissa, then so does every amount that ever comes
up: a fill is the smaller of two remaining amounts, and what is executed or remains of an
order is a whole number of steps between nothing and its amount.  Such sums are exact
whatever the scales they are written with, and the books balance to the last digit.

`Exact` is the invariant of one order, `Exact.fill` what a fill makes of it.
-/
import Bourse.Proofs.Seen

namespace Bourse

open Decimal

/-- An order whose amounts lie on a grid and add up, with the status they imply. -/
structure Order.Exact (k : Nat) (o : Order) : Prop where
  positive : 0 < o.amount.units
  grid : OnGrid k o.amount.units
  steps : (tenTo (28 - k) : Int) ∣ o.executedAmount.units
  split : o.executedAmount.units = o.amount.units - o.remainingAmount.units
  executed : 0 ≤ o.executedAmount.units
  remaining : 0 ≤ o.remainingAmount.units
  filled : o.status = .filled ↔ o.remainingAmount.units = 0
  live : o.status = .live → o.executedAmount.units = 0
  partlyFilled : o.status = .partlyFilled → 0 < o.executedAmount.units

namespace Order.Exact

variable {k : Nat} {o p after : Order}

theorem remaining_steps (h : o.Exact k) : (tenTo (28 - k) : Int) ∣ o.remainingAmount.units := by
  have : o.remainingAmount.units = o.amount.units - o.executedAmount.units := by
    have := h.split
    omega
  rw [this]
  exact Int.dvd_sub h.grid.dvd h.steps

/-- What two exact orders are to trade is a whole number of steps. -/
theorem least_steps (h : o.Exact k) (h' : p.Exact k) :
    (tenTo (28 - k) : Int) ∣ (o.remainingAmount.least p.remainingAmount).units := by
  rw [units_least]
  rcases min_choice o.remainingAmount.units p.remainingAmount.units with hmin | hmin <;> rw [hmin]
  · exact h.remaining_steps
  · exact h'.remaining_steps

theorem ofRequest {id : OrderId} {request : OrderRequest} {time : Instant}
    (hpositive : request.amount.positive = true) (hgrid : OnGrid k request.amount.units) :
    (Order.ofRequest id request time).Exact k := by
  have hpos := positive_iff.mp hpositive
  have hzero : (Order.ofRequest id request time).executedAmount.units = 0 := units_zero
  refine ⟨hpos, hgrid, ?_, ?_, ?_, Int.le_of_lt hpos, ?_, fun _ => hzero,
    fun hc => nomatch hc⟩
  · rw [hzero]
    exact Int.dvd_zero _
  · rw [hzero]
    exact (Int.sub_self _).symm
  · rw [hzero]
  · exact ⟨fun hc => (nomatch hc), fun hc => absurd hc (Int.ne_of_gt hpos)⟩

theorem cancelled (h : o.Exact k) (hlive : o.status.terminal = false) (time : Instant) :
    (Store.cancelled o time).Exact k := by
  refine ⟨h.positive, h.grid, h.steps, h.split, h.executed, h.remaining, ?_,
    fun hc => (nomatch hc), fun hc => (nomatch hc)⟩
  refine ⟨fun hc => (nomatch hc), fun hc => ?_⟩
  rw [h.filled.mpr hc] at hlive
  cases hlive

/-- There is room for the amounts that a fill by a whole number of steps leaves. -/
theorem sums (hk : k ≤ 28) (h : o.Exact k) {amount : Decimal} (hpos : 0 < amount.units)
    (hwithin : amount.units ≤ o.remainingAmount.units)
    (hsteps : (tenTo (28 - k) : Int) ∣ amount.units) :
    ∃ executed remaining, o.executedAmount.add amount = some executed ∧
      o.amount.sub executed = some remaining ∧
      executed.units = o.executedAmount.units + amount.units ∧
      remaining.units = o.remainingAmount.units - amount.units := by
  have hsplit := h.split
  have hnonneg := h.executed
  have hdvd := Int.dvd_add h.steps hsteps
  obtain ⟨executed, hadd, hexecuted⟩ := add_exact hk (h.grid.of_dvd hdvd (by omega))
  have hgrid : OnGrid k (o.amount.units - executed.units) :=
    h.grid.of_dvd (Int.dvd_sub h.grid.dvd (hexecuted ▸ hdvd)) (by omega)
  obtain ⟨remaining, hsub, hremaining⟩ := sub_exact hk hgrid
  exact ⟨executed, remaining, hadd, hsub, hexecuted, by omega⟩

/-- **A fill by a whole number of steps moves the amounts by exactly that much.** -/
theorem fill (hk : k ≤ 28) (h : o.Exact k) {amount price : Decimal} {scale : Nat} {time : Instant}
    (hfill : o.FilledTo amount price scale time after) (hlive : o.status ≠ .cancelled)
    (hsteps : (tenTo (28 - k) : Int) ∣ amount.units) :
    after.Exact k ∧ after.executedAmount.units = o.executedAmount.units + amount.units ∧
      after.remainingAmount.units = o.remainingAmount.units - amount.units := by
  have hpos := hfill.positive
  have hwithin := hfill.within
  have hsplit := h.split
  have hnonneg := h.executed
  have hamount : after.amount.units = o.amount.units := by rw [hfill.terms.amount]
  obtain ⟨executed, remaining, hadd, hsub, hexecuted, hremaining⟩ := h.sums hk hpos hwithin hsteps
  obtain rfl : after.executedAmount = executed := Option.some.inj (hfill.executed.symm.trans hadd)
  obtain rfl : after.remainingAmount = remaining :=
    Option.some.inj (hfill.remaining.symm.trans hsub)
  refine ⟨⟨by omega, hamount ▸ h.grid, ?_, by omega, by omega, by omega, ?_, ?_, ?_⟩,
    hexecuted, hremaining⟩
  · rw [hexecuted]
    exact Int.dvd_add h.steps hsteps
  all_goals rw [hfill.status_eq hlive]
  · by_cases hzero : after.remainingAmount.units = 0
    · simp [hzero]
    · simp only [if_neg hzero, iff_false_right hzero]
      split <;> simp
  · intro hc
    split at hc
    · cases hc
    · split at hc
      · assumption
      · cases hc
  · omega

/-- An order that can no longer be matched was filled, unless it was cancelled. -/
theorem filled_of_not_matchable (h : o.Exact k) (hlive : o.status ≠ .cancelled)
    (hmatch : o.matchable = false) : o.status = .filled := by
  have hremaining := h.remaining
  by_contra hstatus
  have hpos : 0 < o.remainingAmount.units := by
    have := mt h.filled.mpr hstatus
    omega
  have hterminal : o.status.terminal = false := by
    cases hs : o.status with
    | filled => exact absurd hs hstatus
    | cancelled => exact absurd hs hlive
    | live | partlyFilled => rfl
  rw [Order.matchable_iff.mpr ⟨hterminal, hpos⟩] at hmatch
  cases hmatch

end Order.Exact

namespace Store

variable {scale k : Nat} {s : Store}

/-- Amounts that are written with few places, and have room for more, lie on a grid. -/
theorem onGrid_of_places (hk : k ≤ 28) (h : ∀ o ∈ s.orders, o.amount.scale ≤ k ∧
    o.amount.magnitude * tenTo (k - o.amount.scale) < limit) :
    ∀ o ∈ s.orders, OnGrid k o.amount.units :=
  fun o ho => .of_scale (h o ho).1 hk (h o ho).2

/-- What all orders on one side of a ticker have executed. -/
def executedOn (s : Store) (side : Side) (ticker : String) : Int :=
  (s.orders.map fun o =>
    if o.side = side ∧ o.ticker = ticker then o.executedAmount.units else 0).sum

theorem executedOn_eq (side : Side) (ticker : String) :
    s.executedOn side ticker = s.sumOn (·.executedAmount.units) side ticker := rfl

/-- Every order on record is exact, and its executions add up to what it has executed. -/
def Conserves (k : Nat) (s : Store) : Prop :=
  ∀ o ∈ s.orders, o.Exact k ∧
    ((s.executionsOf o.id).map (·.amount.units)).sum = o.executedAmount.units

theorem Conserves.trade (hk : k ≤ 28) (h : s.Conserves k) {incoming counter : Order}
    {fill : FillCommit} (t : Trade s scale incoming counter fill) :
    fill.incoming.Exact k ∧ fill.counter.Exact k ∧
      fill.incoming.executedAmount.units = incoming.executedAmount.units + fill.amount.units ∧
      fill.incoming.remainingAmount.units = incoming.remainingAmount.units - fill.amount.units ∧
      fill.counter.executedAmount.units = counter.executedAmount.units + fill.amount.units ∧
      fill.counter.remainingAmount.units =
        counter.remainingAmount.units - fill.amount.units := by
  have hincoming := (h incoming (mem_of_find? t.incomingFound).1).1
  have hcounter := (h counter (mem_of_find? t.counterFound).1).1
  have hsteps : (tenTo (28 - k) : Int) ∣ fill.amount.units := by
    rw [t.meeting.amount]
    exact hincoming.least_steps hcounter
  obtain ⟨hi, hie, hir⟩ := hincoming.fill hk t.incomingFilled
    (Order.ne_cancelled_of_matchable t.matchable) hsteps
  obtain ⟨hc, hce, hcr⟩ := hcounter.fill hk t.counterFilled
    (Order.ne_cancelled_of_matchable t.counter_matchable) hsteps
  exact ⟨hi, hc, hie, hir, hce, hcr⟩

/-- **On a grid, every order is exact and adds up, after whatever was done.** -/
theorem History.conserves (hk : k ≤ 28) (h : History scale s)
    (hgrid : ∀ a ∈ s.orders.map (·.amount), OnGrid k a.units) : s.Conserves k := by
  induction h with
  | empty => exact List.forall_mem_nil _
  | @place s h request time hamount _ ih =>
      rw [orders_insert, List.map_append, List.forall_mem_append] at hgrid
      intro o ho
      rcases List.mem_append.mp ho with hin | hnew
      · exact ih hgrid.1 o hin
      · rw [List.mem_singleton.mp hnew]
        refine ⟨.ofRequest hamount (hgrid.2 _ (List.mem_singleton.mpr rfl)), ?_⟩
        show ((s.executionsOf s.nextOrderId).map _).sum = Decimal.zero.units
        rw [h.executionsOf_next, units_zero]
        rfl
  | @cancel s p _ hfind hlive time ih =>
      rw [map_cancelled _ hfind rfl] at hgrid
      intro o ho
      rcases mem_orders_replace ho with rfl | hin
      · obtain ⟨hp, hsum⟩ := ih hgrid p (mem_of_find? hfind).1
        exact ⟨hp.cancelled hlive time, hsum⟩
      · exact ih hgrid o hin
  | @trade s incoming counter fill _ t ih =>
      rw [t.map_commit _ t.incomingFilled.terms.amount t.counterFilled.terms.amount] at hgrid
      obtain ⟨hi, hc, hie, -, hce, -⟩ := (ih hgrid).trade hk t
      intro o ho
      have hexecutions := t.executionsOf_commit o.id
      rcases t.mem_orders_commit ho with rfl | rfl | ⟨hin, hincoming, hcounter⟩
      · have hsum := (ih hgrid incoming (mem_of_find? t.incomingFound).1).2
        rw [t.incoming_id, if_pos rfl] at hexecutions
        refine ⟨hi, ?_⟩
        rw [t.incoming_id, hexecutions, List.map_append, List.sum_append, hsum, hie]
        exact congrArg _ (List.sum_singleton)
      · have hsum := (ih hgrid counter (mem_of_find? t.counterFound).1).2
        rw [t.counter_id, if_neg t.ids_ne.symm, if_pos rfl] at hexecutions
        refine ⟨hc, ?_⟩
        rw [t.counter_id, hexecutions, List.map_append, List.sum_append, hsum, hce]
        exact congrArg _ (List.sum_singleton)
      · rw [if_neg hincoming, if_neg hcounter, List.append_nil] at hexecutions
        rw [hexecutions]
        exact ih hgrid o hin

/-- **On a grid, as much is bought as is sold.** -/
theorem History.bought_eq_sold (hk : k ≤ 28) (h : History scale s)
    (hgrid : ∀ a ∈ s.orders.map (·.amount), OnGrid k a.units) (ticker : String) :
    s.executedOn .buy ticker = s.executedOn .sell ticker := by
  induction h with
  | empty => rfl
  | @place s _ request time _ _ ih =>
      rw [orders_insert, List.map_append, List.forall_mem_append] at hgrid
      have hnothing (side : Side) :=
        sumOn_insert (s := s) (x := (·.executedAmount.units)) side ticker request time units_zero
      simp only [executedOn_eq] at ih ⊢
      rw [hnothing, hnothing]
      exact ih hgrid.1
  | @cancel s p _ hfind _ time ih =>
      rw [map_cancelled _ hfind rfl] at hgrid
      simp only [executedOn_eq] at ih ⊢
      rw [sumOn_cancelled _ _ hfind rfl, sumOn_cancelled _ _ hfind rfl]
      exact ih hgrid
  | @trade s incoming counter fill h t ih =>
      rw [t.map_commit _ t.incomingFilled.terms.amount t.counterFilled.terms.amount] at hgrid
      obtain ⟨-, -, hie, -, hce, -⟩ := (h.conserves hk hgrid).trade hk t
      simp only [executedOn_eq] at ih ⊢
      rw [t.sumOn_commit _ _ hie hce, t.sumOn_commit _ _ hie hce, ih hgrid]

end Store

/-- What an order has executed is what its executions add up to and what no longer remains. -/
structure Store.Balanced (s : Store) (o : Order) : Prop where
  executions : ((s.executionsOf o.id).map (·.amount.units)).sum = o.executedAmount.units
  split : o.executedAmount.units = o.amount.units - o.remainingAmount.units
  nonneg : 0 ≤ o.remainingAmount.units
  within : o.remainingAmount.units ≤ o.amount.units
  filled : o.status = .filled ↔ o.remainingAmount.units = 0
  live : o.status = .live → o.executedAmount.units = 0
  partlyFilled : o.status = .partlyFilled →
    0 < o.executedAmount.units ∧ o.executedAmount.units < o.amount.units

/--
**Amounts on a grid are conserved.**  If every amount on record is a whole number of
`10 ^ -k` with room for it in a mantissa, then every order on record is balanced, and on
every ticker as much was bought as was sold.
-/
theorem Floor.Seen.conserved {scale k : Nat} {f : Floor} (h : f.Seen scale) (hk : k ≤ 28)
    (hgrid : ∀ o ∈ f.store.orders, OnGrid k o.amount.units) :
    (∀ o ∈ f.store.orders, f.store.Balanced o) ∧
      ∀ ticker, f.store.executedOn .buy ticker = f.store.executedOn .sell ticker := by
  have hhistory := h.orderly.history
  have hamounts : ∀ a ∈ f.store.orders.map (·.amount), OnGrid k a.units :=
    List.forall_mem_map.mpr hgrid
  refine ⟨fun o ho => ?_, hhistory.bought_eq_sold hk hamounts⟩
  obtain ⟨hexact, hsum⟩ := hhistory.conserves hk hamounts o ho
  have hsplit := hexact.split
  have hexecuted := hexact.executed
  refine ⟨hsum, hsplit, hexact.remaining, by omega, hexact.filled, hexact.live, fun hpartly => ?_⟩
  have hremaining := hexact.remaining
  have hleft : o.remainingAmount.units ≠ 0 := by
    intro hzero
    rw [hexact.filled.mpr hzero] at hpartly
    cases hpartly
  exact ⟨hexact.partlyFilled hpartly, by omega⟩

/-- Fills of 1 and 1.50 of an order for 3.5: the amounts are written with different places. -/
def Floor.halves : Floor :=
  session 2 .epoch [.order .buy (.ofDigits 1 0) (.ofDigits 35 1),
    .order .sell (.ofDigits 1 0) (.ofDigits 1 0),
    .order .sell (.ofDigits 97 2) (.ofDigits 150 2), .tick]

theorem Floor.conserved_halves :
    halves.Seen 2 ∧ (∀ o ∈ halves.store.orders, OnGrid 2 o.amount.units) ∧
      halves.store.executions.length = 4 ∧ (∀ o ∈ halves.store.orders, halves.store.Balanced o) ∧
      halves.store.executedOn .buy "X" = halves.store.executedOn .sell "X" := by
  have hseen : halves.Seen 2 := (reached_session _ _ _).seen
  have hgrid : ∀ o ∈ halves.store.orders, OnGrid 2 o.amount.units :=
    Store.onGrid_of_places (by decide) (by decide +kernel)
  obtain ⟨hbalanced, hsides⟩ := Floor.Seen.conserved hseen (by decide) hgrid
  exact ⟨hseen, hgrid, by decide +kernel, hbalanced, hsides "X"⟩

end Bourse
