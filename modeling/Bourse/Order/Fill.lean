/-
Filling an order.

A fill moves the executed amount, the remaining amount, the executed value, the average
price and the status of an order in one step.  When any of them has no room for its
result, or the fill is not one the order can take, nothing moves.
-/
import Bourse.Order.Basic

namespace Bourse

/-- Why an order cannot take a fill. -/
inductive FillFault
  | notPositive
  | exceedsRemaining
  | executedAmountOverflow
  | remainingAmountOverflow
  | fillValueOverflow
  | executedValueOverflow
  | averagePriceOverflow
deriving DecidableEq, Inhabited

/-- The wording of a fault. -/
def FillFault.details : FillFault → String
  | notPositive => "fill amount must be positive"
  | exceedsRemaining => "fill exceeds remaining amount"
  | executedAmountOverflow => "executed amount overflow"
  | remainingAmountOverflow => "remaining amount overflow"
  | fillValueOverflow => "fill value overflow"
  | executedValueOverflow => "executed value overflow"
  | averagePriceOverflow => "average price overflow"

/-- The error of a fault on an order. -/
def FillFault.error (f : FillFault) (id : OrderId) : Error := .arithmetic id f.details

/-- A value spread over an amount, rounded half away from zero to a number of places. -/
def averagePrice (value amount : Decimal) (scale : Nat) : Option Decimal :=
  if amount.isZero then none else (value.div amount).map (·.roundAway scale)

/-- The value of a result, or the fault of there being none. -/
def FillFault.orElse (f : FillFault) (a : Option Decimal) : Except FillFault Decimal :=
  match a with
  | some a => .ok a
  | none => .error f

namespace Order

/-- The order after a fill of `amount` at `price`, its average kept to `scale` places. -/
def fill (o : Order) (amount price : Decimal) (scale : Nat) (time : Instant) :
    Except FillFault Order := do
  if !amount.positive then throw .notPositive
  if o.remainingAmount < amount then throw .exceedsRemaining
  let executedAmount ← FillFault.executedAmountOverflow.orElse (o.executedAmount.add amount)
  let remainingAmount ← FillFault.remainingAmountOverflow.orElse (o.amount.sub executedAmount)
  let value ← FillFault.fillValueOverflow.orElse (price.mul amount)
  let executedValue ← FillFault.executedValueOverflow.orElse (o.executedValue.add value)
  let average ← FillFault.averagePriceOverflow.orElse
    (Bourse.averagePrice executedValue executedAmount scale)
  let after := { o with
    executedAmount, remainingAmount, executedValue
    averagePrice := some average
    updatedAt := time }
  return { after with status := after.derivedStatus }

end Order

end Bourse
