/-
Limit orders, their executions and the events that tell of a fill.

The executed and remaining amounts, the executed value and the status of an order move
together; `Order/Fill.lean` holds the one operation that moves them.
-/
import Bourse.Decimal.Text
import Bourse.Time.Instant
import Bourse.Error

namespace Bourse

/-- Identifies an order; lower ones were issued earlier. -/
abbrev OrderId := Int

/-- Identifies an execution. -/
abbrev ExecutionId := Int

/-- The two sides of a market. -/
inductive Side
  | buy
  | sell
deriving DecidableEq, Inhabited

namespace Side

/-- The side an order trades against. -/
def opposite : Side → Side
  | buy => sell
  | sell => buy

/-- The word for a side. -/
def word : Side → String
  | buy => "BUY"
  | sell => "SELL"

/-- The side a word stands for. -/
def parse (word : String) : Except Error Side :=
  match [buy, sell].find? (·.word == word) with
  | some side => .ok side
  | none => .error (.invalidOrder s!"Invalid order side: {word}")

@[simp] theorem opposite_opposite (s : Side) : s.opposite.opposite = s := by cases s <;> rfl

theorem opposite_ne (s : Side) : s.opposite ≠ s := by cases s <;> simp [opposite]

theorem parse_word (s : Side) : parse s.word = .ok s := by cases s <;> rfl

end Side

/-- How far an order has come. -/
inductive OrderStatus
  | live
  | partlyFilled
  | filled
  | cancelled
deriving DecidableEq, Inhabited

namespace OrderStatus

/-- The word for a status. -/
def word : OrderStatus → String
  | live => "OPEN"
  | partlyFilled => "PARTIALLY_FILLED"
  | filled => "FILLED"
  | cancelled => "CANCELLED"

/-- All of them. -/
def all : List OrderStatus := [live, partlyFilled, filled, cancelled]

/-- The status a word stands for. -/
def parse (word : String) : Except Error OrderStatus :=
  match all.find? (·.word == word) with
  | some status => .ok status
  | none => .error (.invalidOrder s!"Invalid order status: {word}")

/-- Does an order with this status never change again? -/
def terminal : OrderStatus → Bool
  | filled | cancelled => true
  | live | partlyFilled => false

theorem parse_word (s : OrderStatus) : parse s.word = .ok s := by cases s <;> rfl

end OrderStatus

/-- What is asked for in a new limit order. -/
structure OrderRequest where
  ticker : String
  side : Side
  price : Decimal
  amount : Decimal
deriving DecidableEq, Inhabited

/-- A limit order. -/
structure Order where
  id : OrderId
  ticker : String
  side : Side
  /-- The limit price. -/
  price : Decimal
  /-- The amount asked for. -/
  amount : Decimal
  executedAmount : Decimal
  remainingAmount : Decimal
  /-- The sum of price times amount over the order's fills. -/
  executedValue : Decimal
  /-- The average price over the order's fills, weighted by amount. -/
  averagePrice : Option Decimal
  status : OrderStatus
  createdAt : Instant
  updatedAt : Instant
deriving DecidableEq, Inhabited

namespace Order

/-- A fresh order made of a request. -/
def ofRequest (id : OrderId) (request : OrderRequest) (createdAt : Instant) : Order where
  id := id
  ticker := request.ticker
  side := request.side
  price := request.price
  amount := request.amount
  executedAmount := .zero
  remainingAmount := request.amount
  executedValue := .zero
  averagePrice := none
  status := .live
  createdAt := createdAt
  updatedAt := createdAt

/-- Can the order take part in a fill? -/
def matchable (o : Order) : Bool := !o.status.terminal && o.remainingAmount.positive

/-- May the order execute at this price without breaking its limit? -/
def accepts (o : Order) (price : Decimal) : Bool :=
  match o.side with
  | .buy => decide (price ≤ o.price)
  | .sell => decide (o.price ≤ price)

/-- The status that the amounts imply. -/
def derivedStatus (o : Order) : OrderStatus :=
  if o.status = .cancelled then .cancelled
  else if o.remainingAmount.isZero then .filled
  else if o.executedAmount.isZero then .live
  else .partlyFilled

end Order

/-- One side of a fill, as it is recorded. -/
structure Execution where
  id : ExecutionId
  order : OrderId
  counterOrder : OrderId
  price : Decimal
  amount : Decimal
  executedAt : Instant
deriving DecidableEq, Inhabited

/-- What is told of a fill once it is recorded. -/
structure FillEvent where
  ticker : String
  buyOrder : OrderId
  sellOrder : OrderId
  /-- The order that was being processed. -/
  incomingOrder : OrderId
  /-- The order that was waiting, and whose price made the trade. -/
  restingOrder : OrderId
  price : Decimal
  amount : Decimal
  incomingStatus : OrderStatus
  restingStatus : OrderStatus
  executedAt : Instant
deriving DecidableEq, Inhabited

namespace FillEvent

/-- Did this fill complete the order? -/
def completes (e : FillEvent) (id : OrderId) : Bool :=
  (id == e.incomingOrder && e.incomingStatus == .filled) ||
    (id == e.restingOrder && e.restingStatus == .filled)

/-- The event of a fill between two orders, as they are after it. -/
def ofFill (incoming resting : Order) (price amount : Decimal) (executedAt : Instant) :
    FillEvent where
  ticker := incoming.ticker
  buyOrder := match incoming.side with
    | .buy => incoming.id
    | .sell => resting.id
  sellOrder := match incoming.side with
    | .buy => resting.id
    | .sell => incoming.id
  incomingOrder := incoming.id
  restingOrder := resting.id
  price := price
  amount := amount
  incomingStatus := incoming.status
  restingStatus := resting.status
  executedAt := executedAt

end FillEvent

end Bourse
