/-
What a fill makes of an order.

`Order.fill` is a chain of additions that may each find no room, and everything above
it needs only what holds when none of them fails.  `FilledTo` lists that, one field
of the order after the other, and `fill_ok` is the only place where the chain is
taken apart.  `fillWith_ok` does the same for the two legs of a fill between an
incoming order and its counter order.

What was asked for never changes: `SameTerms` holds between an order and whatever a
fill makes of it.
-/
import Bourse.Matching
import Bourse.Proofs.Decimal.Sum

namespace Bourse

open Decimal

/-- A result that goes on after another was one before. -/
theorem Except.bind_ok {ε α β : Type} {x : Except ε α} {f : α → Except ε β} {b : β}
    (h : (x >>= f) = .ok b) : ∃ a, x = .ok a ∧ f a = .ok b := by
  cases x with
  | error e => cases h
  | ok a => exact ⟨a, rfl, h⟩

theorem FillFault.orElse_ok {f : FillFault} {a : Option Decimal} {x : Decimal}
    (h : f.orElse a = .ok x) : a = some x := by
  cases a with
  | none => cases h
  | some y => cases h; rfl

namespace Order

/-- The parts of an order that are fixed when it is placed. -/
structure SameTerms (o p : Order) : Prop where
  id : p.id = o.id
  ticker : p.ticker = o.ticker
  side : p.side = o.side
  price : p.price = o.price
  amount : p.amount = o.amount
  createdAt : p.createdAt = o.createdAt

theorem SameTerms.refl (o : Order) : SameTerms o o := ⟨rfl, rfl, rfl, rfl, rfl, rfl⟩

theorem SameTerms.trans {o p q : Order} (h : SameTerms o p) (h' : SameTerms p q) :
    SameTerms o q :=
  ⟨h'.id.trans h.id, h'.ticker.trans h.ticker, h'.side.trans h.side, h'.price.trans h.price,
    h'.amount.trans h.amount, h'.createdAt.trans h.createdAt⟩

theorem SameTerms.symm {o p : Order} (h : SameTerms o p) : SameTerms p o :=
  ⟨h.id.symm, h.ticker.symm, h.side.symm, h.price.symm, h.amount.symm, h.createdAt.symm⟩

/-- `after` is what a fill makes of `o`. -/
structure FilledTo (o : Order) (amount price : Decimal) (scale : Nat) (time : Instant)
    (after : Order) : Prop where
  positive : 0 < amount.units
  within : amount.units ≤ o.remainingAmount.units
  executed : o.executedAmount.add amount = some after.executedAmount
  remaining : o.amount.sub after.executedAmount = some after.remainingAmount
  value : ∃ v, price.mul amount = some v ∧ o.executedValue.add v = some after.executedValue
  average : ∃ a, Bourse.averagePrice after.executedValue after.executedAmount scale = some a ∧
    after.averagePrice = some a
  status : after.status = ({ after with status := o.status } : Order).derivedStatus
  updatedAt : after.updatedAt = time
  terms : o.SameTerms after

theorem fill_ok {o after : Order} {amount price : Decimal} {scale : Nat} {time : Instant}
    (h : o.fill amount price scale time = .ok after) :
    o.FilledTo amount price scale time after := by
  unfold fill at h
  by_cases hpos : amount.positive = true
  · by_cases hover : o.remainingAmount < amount
    · simp [hpos, hover, bind, Except.bind, throw, throwThe, MonadExceptOf.throw] at h
    · simp only [hpos, Bool.not_true, Bool.false_eq_true, if_false, hover] at h
      obtain ⟨executed, hexecuted, h⟩ := Except.bind_ok h
      obtain ⟨remaining, hremaining, h⟩ := Except.bind_ok h
      obtain ⟨value, hvalue, h⟩ := Except.bind_ok h
      obtain ⟨total, htotal, h⟩ := Except.bind_ok h
      obtain ⟨average, haverage, h⟩ := Except.bind_ok h
      cases h
      exact {
        positive := positive_iff.mp hpos
        within := Int.not_lt.mp fun hc => hover (lt_iff.mpr hc)
        executed := FillFault.orElse_ok hexecuted
        remaining := FillFault.orElse_ok hremaining
        value := ⟨value, FillFault.orElse_ok hvalue, FillFault.orElse_ok htotal⟩
        average := ⟨average, FillFault.orElse_ok haverage, rfl⟩
        status := rfl
        updatedAt := rfl
        terms := ⟨rfl, rfl, rfl, rfl, rfl, rfl⟩ }
  · simp [hpos, bind, Except.bind, throw, throwThe, MonadExceptOf.throw] at h

namespace FilledTo

variable {o after : Order} {amount price : Decimal} {scale : Nat} {time : Instant}

/-- A fill tells the status from the amounts, unless the order was cancelled. -/
theorem status_eq (h : o.FilledTo amount price scale time after) (hc : o.status ≠ .cancelled) :
    after.status = if after.remainingAmount.units = 0 then .filled
      else if after.executedAmount.units = 0 then .live else .partlyFilled := by
  rw [h.status]
  unfold derivedStatus
  simp only [if_neg hc, isZero_iff]

theorem status_ne_cancelled (h : o.FilledTo amount price scale time after)
    (hc : o.status ≠ .cancelled) : after.status ≠ .cancelled := by
  rw [h.status_eq hc]
  split
  · simp
  · split <;> simp

end FilledTo

/-! ### Matchable orders -/

theorem matchable_iff {o : Order} :
    o.matchable = true ↔ o.status.terminal = false ∧ 0 < o.remainingAmount.units := by
  unfold matchable
  rw [Bool.and_eq_true, Bool.not_eq_true', positive_iff]

theorem ne_cancelled_of_matchable {o : Order} (h : o.matchable = true) :
    o.status ≠ .cancelled := by
  intro hc
  have := (matchable_iff.mp h).1
  rw [hc] at this
  cases this

theorem ne_filled_of_matchable {o : Order} (h : o.matchable = true) : o.status ≠ .filled := by
  intro hfilled
  have := (matchable_iff.mp h).1
  rw [hfilled] at this
  cases this

theorem opposes_iff {counter incoming : Order} :
    counter.opposes incoming = true ↔ counter.matchable = true ∧
      counter.side = incoming.side.opposite ∧ counter.ticker = incoming.ticker := by
  unfold opposes
  simp [and_assoc]

/-- Whether an order may be met depends on the terms of the other one only. -/
theorem opposes_congr {counter o p : Order} (h : o.SameTerms p) :
    counter.opposes p = counter.opposes o := by
  unfold opposes
  rw [h.side, h.ticker]

theorem accepts_congr {o p : Order} (h : o.SameTerms p) (price : Decimal) :
    p.accepts price = o.accepts price := by
  unfold accepts
  rw [h.side, h.price]

/-! ### A fill between two orders -/

theorem leg_ok {o after : Order} {amount price : Decimal} {scale : Nat} {time : Instant}
    (h : o.leg amount price scale time = .ok after) :
    o.fill amount price scale time = .ok after := by
  unfold leg at h
  split at h
  · rename_i after' hfill
    cases h
    exact hfill
  · cases h

theorem checkMove_ok {o : Order} {target : OrderStatus} (h : o.checkMove target = .ok ()) :
    o.status.canBecome target = true := by
  unfold checkMove at h
  split at h
  · assumption
  · cases h

/-- The fill that two orders are to be given, as it is worked out from what was read. -/
structure Meeting (incoming counter : Order) (scale : Nat) (time : Instant) (fill : FillCommit) :
    Prop where
  amount : fill.amount = incoming.remainingAmount.least counter.remainingAmount
  price : fill.price = counter.price
  executedAt : fill.executedAt = time
  incomingFill : incoming.fill fill.amount fill.price scale fill.executedAt = .ok fill.incoming
  counterFill : counter.fill fill.amount fill.price scale fill.executedAt = .ok fill.counter
  incomingExpected : fill.incomingExpected = incoming.remainingAmount
  counterExpected : fill.counterExpected = counter.remainingAmount
  incomingMove : incoming.status.canBecome fill.incoming.status = true
  counterMove : counter.status.canBecome fill.counter.status = true

theorem fillWith_ok {incoming counter : Order} {scale : Nat} {time : Instant} {fill : FillCommit}
    (h : incoming.fillWith counter scale time = .ok fill) :
    Meeting incoming counter scale time fill := by
  unfold fillWith at h
  dsimp only at h
  obtain ⟨incomingAfter, hincoming, h⟩ := Except.bind_ok h
  obtain ⟨counterAfter, hcounter, h⟩ := Except.bind_ok h
  obtain ⟨⟨⟩, hincomingMove, h⟩ := Except.bind_ok h
  obtain ⟨⟨⟩, hcounterMove, h⟩ := Except.bind_ok h
  cases h
  exact {
    amount := rfl
    price := rfl
    executedAt := rfl
    incomingFill := leg_ok hincoming
    counterFill := leg_ok hcounter
    incomingExpected := rfl
    counterExpected := rfl
    incomingMove := checkMove_ok hincomingMove
    counterMove := checkMove_ok hcounterMove }

theorem fillWith_ids_ne {incoming counter : Order} {scale : Nat} {time : Instant}
    {fill : FillCommit} (h : incoming.fillWith counter scale time = .ok fill)
    (hne : incoming.id ≠ counter.id) : fill.incoming.id ≠ fill.counter.id := by
  have hm := fillWith_ok h
  rw [(fill_ok hm.incomingFill).terms.id, (fill_ok hm.counterFill).terms.id]
  exact hne

end Order

end Bourse
