/-
Values, on prices and amounts of a realistic size.

Products and sums of decimals are rounded in general and find no room at times.  But let
every price be a whole number of 10⁻ᵖ and every amount one of 10⁻ᵏ, with p + k at most 28,
and let there be room for the product of any price with any amount.  Then the value of a
fill is exact, and so are all sums of values, because what an order has executed is worth no
more than its amount at the highest price there is.  The average is that value spread over
what was executed, and as it never passes a decimal of so many places, it keeps to the
order's limit as every fill of it did.

`Moderate` says this of the terms of an order, `Valued` is the invariant of one order, and
`Valued.fill` is what a fill makes of it.
-/
import Bourse.Proofs.Average
import Bourse.Proofs.Conservation
import Bourse.Proofs.Decimal.Product
import Bourse.Proofs.Faults
import Mathlib.Data.Finset.Max

namespace Bourse

open Decimal

variable {scale p k : Nat} {most : Int}

theorem Decimal.units_le_greatest (a : Decimal) :
    a.units ≤ ((limit - 1 : Nat) : Int) * tenTo 28 := by
  have habs := a.natAbs_units
  have hle : a.magnitude * tenTo (28 - a.scale) ≤ (limit - 1) * tenTo 28 :=
    Nat.mul_le_mul (Nat.le_sub_one_of_lt a.mantissa_lt) (tenTo_le (by omega))
  have hcast : ((a.magnitude * tenTo (28 - a.scale) : Nat) : Int) ≤
      ((limit - 1 : Nat) : Int) * tenTo 28 := by exact_mod_cast hle
  omega

/-- What is a whole number of steps and not too large is on the grid. -/
theorem Decimal.Whole.onGrid_of_lt {k : Nat} {u : Int} (h : Whole k u)
    (hlt : u < limit * tenTo (28 - k)) : OnGrid k u := by
  obtain ⟨hnonneg, j, rfl⟩ := h
  have hpos : (0 : Int) < tenTo (28 - k) := by exact_mod_cast tenTo_pos _
  rw [Int.mul_comm] at hnonneg hlt
  have hj : 0 ≤ j := Int.nonneg_of_mul_nonneg_left hnonneg hpos
  have hj' : j < limit := Int.lt_of_mul_lt_mul_right hlt hpos.le
  exact ⟨j, by omega, Int.mul_comm _ _⟩

/-! ### Moderate terms -/

/--
A price is a whole number of `10 ^ -p` and an amount one of `10 ^ -k`, and there is room for
the amount at any price up to the highest one.
-/
structure Moderate (p k : Nat) (most : Int) (price amount : Decimal) : Prop where
  priceSteps : (tenTo (28 - p) : Int) ∣ price.units
  priceMost : price.units ≤ most
  amountSteps : (tenTo (28 - k) : Int) ∣ amount.units
  room : most * amount.units < limit * tenTo (56 - (p + k))

namespace Moderate

variable {price amount : Decimal}

/-- As the price is at least one step, there is room for the amount by itself. -/
theorem amount_onGrid (h : Moderate p k most price amount) (hpk : p + k ≤ 28)
    (hprice : 0 < price.units) (hamount : 0 < amount.units) : OnGrid k amount.units := by
  have hstep : (tenTo (28 - p) : Int) ≤ most :=
    (Int.le_of_dvd hprice h.priceSteps).trans h.priceMost
  have hpos : (0 : Int) < tenTo (28 - p) := by exact_mod_cast tenTo_pos _
  refine Whole.onGrid_of_lt ⟨hamount.le, h.amountSteps⟩ ?_
  refine Int.lt_of_mul_lt_mul_left (a := tenTo (28 - p)) ?_ hpos.le
  calc (tenTo (28 - p) : Int) * amount.units ≤ most * amount.units :=
        Int.mul_le_mul_of_nonneg_right hstep hamount.le
    _ < limit * tenTo (56 - (p + k)) := h.room
    _ = tenTo (28 - p) * (limit * tenTo (28 - k)) := by rw [(tenTo_room hpk).2]; ring

end Moderate

/-! ### One order -/

namespace Order

/-- No more was paid, or no less was received, than the limit of the order allows. -/
def KeptLimit (o : Order) : Prop :=
  match o.side with
  | .buy => o.executedValue.units * tenTo 28 ≤ o.price.units * o.executedAmount.units
  | .sell => o.price.units * o.executedAmount.units ≤ o.executedValue.units * tenTo 28

/-- An order of moderate terms whose amounts are exact, with an executed value that is in bounds. -/
structure Valued (p k : Nat) (most : Int) (scale : Nat) (o : Order) : Prop where
  exact : o.Exact k
  terms : Moderate p k most o.price o.amount
  price_pos : 0 < o.price.units
  whole : Whole (p + k) o.executedValue.units
  most : o.executedValue.units * tenTo 28 ≤ most * o.executedAmount.units
  kept : o.KeptLimit
  average : ∀ a, o.averagePrice = some a → 0 < o.executedAmount.units ∧
    Bourse.averagePrice o.executedValue o.executedAmount scale = some a

theorem accepts_self (o : Order) : o.accepts o.price = true := by
  unfold accepts
  cases o.side <;> exact decide_eq_true (Int.le_refl _)

/-- A fill at a price that the order accepts keeps its limit. -/
theorem KeptLimit.fill {o after : Order} (h : o.KeptLimit) {amount price : Decimal}
    (hterms : o.SameTerms after) (haccepts : o.accepts price = true) (hpos : 0 ≤ amount.units)
    (hexecuted : after.executedAmount.units = o.executedAmount.units + amount.units)
    (hvalue : after.executedValue.units * tenTo 28 =
      o.executedValue.units * tenTo 28 + price.units * amount.units) : after.KeptLimit := by
  unfold KeptLimit at h ⊢
  unfold accepts at haccepts
  rw [hterms.side, hterms.price, hexecuted, hvalue, Int.mul_add]
  cases hside : o.side <;> simp only [hside] at h haccepts ⊢
  · exact Int.add_le_add h
      (Int.mul_le_mul_of_nonneg_right (le_iff.mp (of_decide_eq_true haccepts)) hpos)
  · exact Int.add_le_add h
      (Int.mul_le_mul_of_nonneg_right (le_iff.mp (of_decide_eq_true haccepts)) hpos)

namespace Valued

variable {o after : Order} {amount price : Decimal} {time : Instant}

theorem ofRequest {id : OrderId} {request : OrderRequest}
    (hamount : request.amount.positive = true) (hprice : request.price.positive = true)
    (hpk : p + k ≤ 28) (hterms : Moderate p k most request.price request.amount) :
    (Order.ofRequest id request time).Valued p k most scale := by
  have hprice' := positive_iff.mp hprice
  have hgrid := hterms.amount_onGrid hpk hprice' (positive_iff.mp hamount)
  have hvalue : (Order.ofRequest id request time).executedValue.units = 0 := units_zero
  have hexecuted : (Order.ofRequest id request time).executedAmount.units = 0 := units_zero
  refine ⟨.ofRequest hamount hgrid, hterms, hprice', ?_, ?_, ?_, fun _ h => nomatch h⟩
  · rw [hvalue]
    exact .zero _
  · rw [hvalue, hexecuted]
    simp
  · unfold KeptLimit
    rw [hvalue, hexecuted]
    cases (Order.ofRequest id request time).side <;> simp

theorem cancelled (h : o.Valued p k most scale) (hlive : o.status.terminal = false)
    (time : Instant) : (Store.cancelled o time).Valued p k most scale :=
  ⟨h.exact.cancelled hlive time, h.terms, h.price_pos, h.whole, h.most, h.kept, h.average⟩

section

variable (hpk : p + k ≤ 28) (h : o.Valued p k most scale) (hpos : 0 < amount.units)
  (hwithin : amount.units ≤ o.remainingAmount.units)
  (hsteps : (tenTo (28 - k) : Int) ∣ amount.units) (hprice : 0 < price.units)
  (hpriceSteps : (tenTo (28 - p) : Int) ∣ price.units) (hpriceMost : price.units ≤ most)

include hpk h hpos hwithin hsteps hprice hpriceSteps hpriceMost

/-- **There is room for the value of a fill, and for the sum of all values, and both are exact.** -/
theorem sums : ∃ value total, price.mul amount = some value ∧
    o.executedValue.add value = some total ∧ Whole (p + k) total.units ∧
      total.units * tenTo 28 = o.executedValue.units * tenTo 28 + price.units * amount.units ∧
      total.units * tenTo 28 ≤ most * (o.executedAmount.units + amount.units) := by
  have hsplit := h.exact.split
  have hroom := h.terms.room
  have hmost : 0 < most := by omega
  have hvalueMost : price.units * amount.units ≤ most * amount.units :=
    Int.mul_le_mul_of_nonneg_right hpriceMost hpos.le
  -- What was executed, this fill included, is no more than the amount of the order.
  have hworth : most * (o.executedAmount.units + amount.units) ≤ most * o.amount.units :=
    Int.mul_le_mul_of_nonneg_left (by omega) hmost.le
  have hbefore : 0 ≤ o.executedValue.units * tenTo 28 :=
    Int.mul_nonneg h.whole.nonneg (Int.natCast_nonneg _)
  have hafter := Int.add_le_add h.most hvalueMost
  rw [← Int.mul_add] at hafter
  have hproduct : 0 < price.units * amount.units := Int.mul_pos hprice hpos
  obtain ⟨value, hmul, hgrid, hvalue⟩ := mul_exact hpk hpriceSteps hsteps (by omega)
  have hvaluePos : 0 ≤ value.units := by
    by_contra hneg
    have : (0 : Int) < tenTo 28 := by decide
    have := Int.mul_neg_of_neg_of_pos (Int.not_le.mp hneg) this
    omega
  have hwhole : Whole (p + k) (o.executedValue.units + value.units) :=
    h.whole.add ⟨hvaluePos, hgrid.dvd⟩
  have hsum : (o.executedValue.units + value.units) * tenTo 28 =
      o.executedValue.units * tenTo 28 + price.units * amount.units := by
    rw [Int.add_mul, hvalue]
  have hlt : o.executedValue.units + value.units < limit * tenTo (28 - (p + k)) := by
    have h28 : (0 : Int) ≤ tenTo 28 := Int.natCast_nonneg _
    refine Int.lt_of_mul_lt_mul_right (a := tenTo 28) ?_ h28
    rw [hsum, Int.mul_assoc, ← (tenTo_room hpk).1]
    omega
  obtain ⟨total, hadd, htotal⟩ := add_exact hpk (hwhole.onGrid_of_lt hlt)
  rw [← htotal] at hwhole hsum
  exact ⟨value, total, hmul, hadd, hwhole, hsum, by omega⟩

/-- **A leg of a fill is worked out for an order of moderate terms.** -/
theorem leg_isOk (hmost : most ≤ ((limit - 1 : Nat) : Int) * tenTo 28) :
    ∃ after, o.leg amount price scale time = .ok after := by
  obtain ⟨executed, remaining, hexecuted, hremaining, hexecutedUnits, -⟩ :=
    h.exact.sums (by omega) hpos hwithin hsteps
  obtain ⟨value, total, hvalue, htotal, hwhole, -, hbound⟩ :=
    h.sums hpk hpos hwithin hsteps hprice hpriceSteps hpriceMost
  have hnonneg := h.exact.executed
  have hpos' : 0 < executed.units := by omega
  obtain ⟨average, haverage⟩ : ∃ a, Bourse.averagePrice total executed scale = some a := by
    refine averagePrice_isSome scale hwhole.nonneg hpos' ?_
    refine Int.le_of_mul_le_mul_right (a := tenTo 28) ?_ (by decide)
    rw [← hexecutedUnits] at hbound
    calc total.units * tenTo 28 ≤ most * executed.units := hbound
      _ ≤ ((limit - 1 : Nat) : Int) * tenTo 28 * executed.units :=
        Int.mul_le_mul_of_nonneg_right hmost hpos'.le
      _ = ((limit - 1 : Nat) : Int) * executed.units * tenTo 28 := by ring
  have hover : ¬ o.remainingAmount < amount := fun hlt => by
    rw [lt_iff] at hlt
    omega
  unfold Order.leg Order.fill
  simp only [positive_iff.mpr hpos, hover, Bool.not_true, Bool.false_eq_true, if_false, hexecuted,
    hremaining, hvalue, htotal, haverage, FillFault.orElse, bind, Except.bind]
  exact ⟨_, rfl⟩

/-- **A fill moves the executed value by exactly what it is worth.** -/
theorem fill (hfill : o.FilledTo amount price scale time after) (hlive : o.status ≠ .cancelled)
    (haccepts : o.accepts price = true) : after.Valued p k most scale ∧
      after.executedAmount.units = o.executedAmount.units + amount.units ∧
      after.executedValue.units * tenTo 28 =
        o.executedValue.units * tenTo 28 + price.units * amount.units := by
  obtain ⟨hexact, hexecuted, -⟩ := h.exact.fill (by omega) hfill hlive hsteps
  obtain ⟨value, total, hvalue, htotal, hwhole, hunits, hbound⟩ :=
    h.sums hpk hpos hwithin hsteps hprice hpriceSteps hpriceMost
  obtain ⟨value', hvalue', htotal'⟩ := hfill.value
  obtain rfl : value' = value := Option.some.inj (hvalue'.symm.trans hvalue)
  obtain rfl : after.executedValue = total := Option.some.inj (htotal'.symm.trans htotal)
  have hterms := hfill.terms
  have hnonneg := h.exact.executed
  refine ⟨⟨hexact, ?_, ?_, hwhole, ?_, ?_, fun a ha => ⟨by omega, ?_⟩⟩, hexecuted, hunits⟩
  · rw [hterms.price, hterms.amount]
    exact h.terms
  · rw [hterms.price]
    exact h.price_pos
  · rw [hexecuted]
    exact hbound
  · exact h.kept.fill hterms haccepts hpos.le hexecuted hunits
  · obtain ⟨b, hb, hafter⟩ := hfill.average
    rw [ha, Option.some.injEq] at hafter
    rw [hafter]
    exact hb

end

/-- **The average keeps to the limit as the fills did**, if it is kept to as many places. -/
theorem accepts_average (h : o.Valued p k most scale) (hp : p ≤ scale) (hscale : scale ≤ 28)
    {a : Decimal} (ha : o.averagePrice = some a) : o.accepts a = true := by
  obtain ⟨hexecuted, haverage⟩ := h.average a ha
  have hkept := h.kept
  have hplaces : tenTo (28 - scale) ∣ o.price.units.natAbs :=
    (tenTo_dvd (by omega)).trans (Int.natCast_dvd.mp h.terms.priceSteps)
  unfold KeptLimit at hkept
  unfold accepts
  cases hside : o.side <;> simp only [hside] at hkept ⊢ <;> refine decide_eq_true (le_iff.mpr ?_)
  · exact averagePrice_le h.whole.nonneg hexecuted hscale haverage h.price_pos.le hplaces hkept
  · exact le_averagePrice h.whole.nonneg hexecuted hscale haverage h.price_pos.le hplaces hkept

end Valued

end Order

/-! ### A store -/

namespace Store

variable {s : Store}

/-- The terms of all orders on record are moderate. -/
def Moderate (p k : Nat) (most : Int) (s : Store) : Prop :=
  ∀ t ∈ s.orders.map fun o => (o.price, o.amount), Bourse.Moderate p k most t.1 t.2

namespace Moderate

theorem place {request : OrderRequest} {time : Instant} :
    (s.insert request time).2.Moderate p k most ↔
      s.Moderate p k most ∧ Bourse.Moderate p k most request.price request.amount := by
  unfold Moderate
  rw [orders_insert, List.map_append, List.forall_mem_append, List.map_singleton,
    List.forall_mem_singleton]
  rfl

theorem cancel {o : Order} {time : Instant} (hfind : s.find? o.id = some o) :
    (s.replace (cancelled o time)).Moderate p k most ↔ s.Moderate p k most := by
  unfold Moderate
  rw [map_cancelled _ hfind rfl]

theorem trade {incoming counter : Order} {fill : FillCommit}
    (t : Trade s scale incoming counter fill) :
    (s.commit fill).2.Moderate p k most ↔ s.Moderate p k most := by
  have hterms := t.incomingFilled.terms
  have hterms' := t.counterFilled.terms
  unfold Moderate
  rw [t.map_commit _ (by rw [hterms.price, hterms.amount]) (by rw [hterms'.price, hterms'.amount])]

end Moderate

/-- What the executions of an order are worth, in units of units. -/
def worthOf (s : Store) (id : OrderId) : Int :=
  ((s.executionsOf id).map fun e => e.price.units * e.amount.units).sum

/-- A trade adds what it is worth to the executions of both orders. -/
theorem Trade.worthOf_commit {incoming counter : Order} {fill : FillCommit}
    (t : Trade s scale incoming counter fill) (id : OrderId) :
    (s.commit fill).2.worthOf id = s.worthOf id +
      if id = incoming.id ∨ id = counter.id then fill.price.units * fill.amount.units else 0 := by
  unfold worthOf
  rw [t.executionsOf_commit, List.map_append, List.sum_append]
  congr 1
  by_cases hincoming : id = incoming.id
  · rw [if_pos hincoming, if_pos (.inl hincoming)]
    exact List.sum_singleton
  · by_cases hcounter : id = counter.id
    · rw [if_neg hincoming, if_pos hcounter, if_pos (.inr hcounter)]
      exact List.sum_singleton
    · rw [if_neg hincoming, if_neg hcounter, if_neg (not_or.mpr ⟨hincoming, hcounter⟩)]
      rfl

/-- What all orders on one side of a ticker have executed is worth. -/
def valueOn (s : Store) : Side → String → Int := s.sumOn (·.executedValue.units)

/-- Every order on record is moderate, and its executed value is what its executions are worth. -/
def Values (p k : Nat) (most : Int) (scale : Nat) (s : Store) : Prop :=
  ∀ o ∈ s.orders, o.Valued p k most scale ∧ o.executedValue.units * tenTo 28 = s.worthOf o.id

/-- A trade adds what it is worth to the value of both orders. -/
theorem Values.trade (hpk : p + k ≤ 28) (h : s.Values p k most scale) {incoming counter : Order}
    {fill : FillCommit} (t : Trade s scale incoming counter fill) :
    fill.incoming.Valued p k most scale ∧ fill.counter.Valued p k most scale ∧
      fill.incoming.executedValue.units * tenTo 28 =
        incoming.executedValue.units * tenTo 28 + fill.price.units * fill.amount.units ∧
      fill.counter.executedValue.units * tenTo 28 =
        counter.executedValue.units * tenTo 28 + fill.price.units * fill.amount.units := by
  have hi := (h incoming (mem_of_find? t.incomingFound).1).1
  have hc := (h counter (mem_of_find? t.counterFound).1).1
  have hsteps : (tenTo (28 - k) : Int) ∣ fill.amount.units := by
    rw [t.meeting.amount]
    exact hi.exact.least_steps hc.exact
  have hpos := t.incomingFilled.positive
  have hwithin := t.incomingFilled.within
  have hwithin' := t.counterFilled.within
  -- The price is that of the counter order.
  have hprice : fill.price = counter.price := t.meeting.price
  obtain ⟨hi', -, hvalue⟩ := hi.fill hpk hpos hwithin hsteps (hprice ▸ hc.price_pos)
    (hprice ▸ hc.terms.priceSteps) (hprice ▸ hc.terms.priceMost) t.incomingFilled
    (Order.ne_cancelled_of_matchable t.matchable) (hprice ▸ t.accepts)
  obtain ⟨hc', -, hvalue'⟩ := hc.fill hpk hpos hwithin' hsteps (hprice ▸ hc.price_pos)
    (hprice ▸ hc.terms.priceSteps) (hprice ▸ hc.terms.priceMost) t.counterFilled
    (Order.ne_cancelled_of_matchable t.counter_matchable) (hprice ▸ counter.accepts_self)
  exact ⟨hi', hc', hvalue, hvalue'⟩

/-- **On moderate terms every value is exact**, after whatever was done. -/
theorem History.values (hpk : p + k ≤ 28) (h : History scale s) (hterms : s.Moderate p k most) :
    s.Values p k most scale := by
  induction h with
  | empty => exact List.forall_mem_nil _
  | @place s h request time hamount hprice ih =>
      obtain ⟨hbefore, hnew⟩ := Moderate.place.mp hterms
      intro o ho
      rcases List.mem_append.mp ho with hin | hin
      · exact ih hbefore o hin
      · rw [List.mem_singleton.mp hin]
        refine ⟨.ofRequest hamount hprice hpk hnew, ?_⟩
        show Decimal.zero.units * tenTo 28 =
          ((s.executionsOf s.nextOrderId).map fun e => e.price.units * e.amount.units).sum
        rw [h.executionsOf_next, units_zero]
        rfl
  | @cancel s q _ hfind hlive time ih =>
      have hbefore := (Moderate.cancel hfind).mp hterms
      intro o ho
      rcases mem_orders_replace ho with rfl | hin
      · obtain ⟨hq, hsum⟩ := ih hbefore q (mem_of_find? hfind).1
        exact ⟨hq.cancelled hlive time, hsum⟩
      · exact ih hbefore o hin
  | @trade s incoming counter fill _ t ih =>
      have hbefore := ih ((Moderate.trade t).mp hterms)
      obtain ⟨hi, hc, hvalue, hvalue'⟩ := hbefore.trade hpk t
      intro o ho
      rw [t.worthOf_commit]
      rcases t.mem_orders_commit ho with rfl | rfl | ⟨hin, hincoming, hcounter⟩
      · have hsum := (hbefore incoming (mem_of_find? t.incomingFound).1).2
        refine ⟨hi, ?_⟩
        rw [t.incoming_id, if_pos (.inl rfl), hvalue, hsum]
      · have hsum := (hbefore counter (mem_of_find? t.counterFound).1).2
        refine ⟨hc, ?_⟩
        rw [t.counter_id, if_pos (.inr rfl), hvalue', hsum]
      · rw [if_neg (not_or.mpr ⟨hincoming, hcounter⟩), Int.add_zero]
        exact hbefore o hin

/-- **On moderate terms, what is bought is worth what is sold.** -/
theorem History.bought_value_eq_sold (hpk : p + k ≤ 28) (h : History scale s)
    (hterms : s.Moderate p k most) (ticker : String) :
    s.valueOn .buy ticker = s.valueOn .sell ticker := by
  induction h with
  | empty => rfl
  | @place s _ request time _ _ ih =>
      have hnothing (side : Side) :=
        sumOn_insert (s := s) (x := (·.executedValue.units)) side ticker request time units_zero
      unfold valueOn at ih ⊢
      rw [hnothing, hnothing]
      exact ih (Moderate.place.mp hterms).1
  | @cancel s q _ hfind _ time ih =>
      unfold valueOn at ih ⊢
      rw [sumOn_cancelled _ _ hfind rfl, sumOn_cancelled _ _ hfind rfl]
      exact ih ((Moderate.cancel hfind).mp hterms)
  | @trade s incoming counter fill h t ih =>
      have hbefore := (Moderate.trade t).mp hterms
      obtain ⟨-, -, hvalue, hvalue'⟩ := (h.values hpk hbefore).trade hpk t
      -- What one of them gains in value, the other one gains.
      have hgain : fill.counter.executedValue.units = counter.executedValue.units +
          (fill.incoming.executedValue.units - incoming.executedValue.units) := by
        refine Int.eq_of_mul_eq_mul_right (tenTo_cast_ne_zero 28) ?_
        rw [Int.add_mul, Int.sub_mul, hvalue, hvalue']
        omega
      have hmoved (side : Side) := t.sumOn_commit (x := (·.executedValue.units)) side ticker
        (add_sub_cancel _ _).symm hgain
      unfold valueOn at ih ⊢
      rw [hmoved, hmoved, ih hbefore]

/-- Between orders of moderate terms every fill is worked out. -/
theorem sustains_moderate (hpk : p + k ≤ 28)
    (hmost : most ≤ ((limit - 1 : Nat) : Int) * tenTo 28) :
    Store.Sustains scale (Moderate p k most) (fun _ => False) where
  trade hterms t := (Moderate.trade t).mpr hterms
  fault {s o c time e} hterms h ho hc hmatch hmay hfill := by
    have hvalues := h.values hpk hterms
    have hi := (hvalues o (mem_of_find? ho).1).1
    have hj := (hvalues c (mem_of_find? hc).1).1
    have hcmatch := (Order.mayMeet_iff.mp hmay).1
    have hopos := (Order.matchable_iff.mp hmatch).2
    have hcpos := (Order.matchable_iff.mp hcmatch).2
    have hleast := units_least o.remainingAmount c.remainingAmount
    have hworked {q : Order} (hq : q.Valued p k most scale)
        (hwithin : (o.remainingAmount.least c.remainingAmount).units ≤ q.remainingAmount.units) :
        q.leg (o.remainingAmount.least c.remainingAmount) c.price scale time ≠ .error e := by
      obtain ⟨after, hafter⟩ : ∃ after,
          q.leg (o.remainingAmount.least c.remainingAmount) c.price scale time = .ok after :=
        hq.leg_isOk hpk (by omega) hwithin (hi.exact.least_steps hj.exact) hj.price_pos
          hj.terms.priceSteps hj.terms.priceMost hmost
      rw [hafter]
      exact fun h => nomatch h
    rcases Order.fillWith_legs hmatch hcmatch hi.exact.executed hj.exact.executed hfill with h | h
    · exact hworked hi (by omega) h
    · exact hworked hj (by omega) h

/-- Prices and amounts between which there is room for all products are moderate. -/
theorem exists_moderate (hprices : ∀ o ∈ s.orders, (tenTo (28 - p) : Int) ∣ o.price.units)
    (hamounts : ∀ o ∈ s.orders, (tenTo (28 - k) : Int) ∣ o.amount.units)
    (hroom : ∀ o ∈ s.orders, ∀ q ∈ s.orders,
      o.price.units * q.amount.units < limit * tenTo (56 - (p + k))) :
    ∃ most : Int, most ≤ ((limit - 1 : Nat) : Int) * tenTo 28 ∧ s.Moderate p k most := by
  by_cases hnone : s.orders = []
  · refine ⟨0, by decide, ?_⟩
    unfold Moderate
    rw [hnone]
    exact List.forall_mem_nil _
  · obtain ⟨dearest, hdearest, hmost⟩ := s.orders.toFinset.exists_max_image (·.price.units)
      (List.toFinset_nonempty_iff _ |>.mpr hnone)
    rw [List.mem_toFinset] at hdearest
    refine ⟨dearest.price.units, dearest.price.units_le_greatest, List.forall_mem_map.mpr ?_⟩
    exact fun o ho => ⟨hprices o ho, hmost o (List.mem_toFinset.mpr ho), hamounts o ho,
      hroom dearest hdearest o ho⟩

end Store

/--
**On terms of a realistic size the arithmetic is safe and exact.**  Let every price on record
be a whole number of `10 ^ -p` and every amount one of `10 ^ -k`, and let any price times any
amount, as a whole number of `10 ^ -(p + k)`, have room in a mantissa.  Then no turn fails for
arithmetic, unless a call was refused with that very error; every executed value is what the
executions are worth; on each ticker as much in value was bought as was sold; and averages kept
to at least as many places as prices have keep to the limits.
-/
theorem Floor.Seen.valued {f : Floor} (h : f.Seen scale) (hpk : p + k ≤ 28)
    (hprices : ∀ o ∈ f.store.orders, (tenTo (28 - p) : Int) ∣ o.price.units)
    (hamounts : ∀ o ∈ f.store.orders, (tenTo (28 - k) : Int) ∣ o.amount.units)
    (hroom : ∀ o ∈ f.store.orders, ∀ q ∈ f.store.orders,
      o.price.units * q.amount.units < limit * tenTo (56 - (p + k))) :
    (∀ (id : OrderId) (ticker : String) (e : Error) (g : Floor),
      f.Leads (processOrder scale id ticker) (.fail (.error e)) g →
        f.Refuses g e ∨ ∀ id details, e ≠ .arithmetic id details) ∧
    (∀ o ∈ f.store.orders, o.executedValue.units * tenTo 28 = f.store.worthOf o.id) ∧
    (∀ ticker, f.store.valueOn .buy ticker = f.store.valueOn .sell ticker) ∧
    (p ≤ scale → scale ≤ 28 → ∀ o ∈ f.store.orders, ∀ a, o.averagePrice = some a →
      o.accepts a = true) := by
  obtain ⟨most, hmost, hterms⟩ := Store.exists_moderate hprices hamounts hroom
  have hhistory := h.orderly.history
  have hvalues := hhistory.values hpk hterms
  refine ⟨fun id ticker e g hlead => ?_, fun o ho => (hvalues o ho).2,
    hhistory.bought_value_eq_sold hpk hterms,
    fun hp hscale o ho a ha => (hvalues o ho).1.accepts_average hp hscale ha⟩
  obtain ⟨-, hblames⟩ := (processOrder_faults (Store.sustains_moderate hpk hmost) h.orderly hterms
    id ticker).of_leads hlead h.orderly
  obtain ⟨e', he, hcause⟩ := hblames.2 _ rfl
  cases he
  refine hcause.imp_right fun hown => ?_
  rcases hown with ⟨o, rfl⟩ | hnever
  · exact fun id details h => nomatch h
  · exact hnever.elim

theorem Floor.valued_halves :
    halves.Seen 2 ∧ (∀ o ∈ halves.store.orders, (tenTo (28 - 2) : Int) ∣ o.price.units) ∧
    (∀ o ∈ halves.store.orders, (tenTo (28 - 2) : Int) ∣ o.amount.units) ∧
    (∀ o ∈ halves.store.orders, ∀ q ∈ halves.store.orders,
      o.price.units * q.amount.units < limit * tenTo (56 - (2 + 2))) ∧
    halves.store.executions.length = 4 ∧
    (∀ (id : OrderId) (ticker : String) (e : Error) (g : Floor),
      halves.Leads (processOrder 2 id ticker) (.fail (.error e)) g →
        halves.Refuses g e ∨ ∀ id details, e ≠ .arithmetic id details) ∧
    (∀ o ∈ halves.store.orders, o.executedValue.units * tenTo 28 = halves.store.worthOf o.id) ∧
    halves.store.valueOn .buy "X" = halves.store.valueOn .sell "X" ∧
    (∀ o ∈ halves.store.orders, ∀ a, o.averagePrice = some a → o.accepts a = true) := by
  have hseen : halves.Seen 2 := (reached_session _ _ _).seen
  have hprices : ∀ o ∈ halves.store.orders, (tenTo (28 - 2) : Int) ∣ o.price.units := by
    decide +kernel
  have hamounts : ∀ o ∈ halves.store.orders, (tenTo (28 - 2) : Int) ∣ o.amount.units := by
    decide +kernel
  have hroom : ∀ o ∈ halves.store.orders, ∀ q ∈ halves.store.orders,
      o.price.units * q.amount.units < limit * tenTo (56 - (2 + 2)) := by decide +kernel
  obtain ⟨hturns, hvalues, hsides, haverages⟩ :=
    Floor.Seen.valued (p := 2) (k := 2) hseen (by decide) hprices hamounts hroom
  exact ⟨hseen, hprices, hamounts, hroom, by decide +kernel, hturns, hvalues, hsides "X",
    haverages (by decide) (by decide)⟩

end Bourse
