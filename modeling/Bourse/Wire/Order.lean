/-
Orders, requests, executions and fill events as they travel.

Identifiers travel as whole numbers of 64 bits, words as words, decimals and instants as
their texts, and an order without an average price has null for it.  A record may also be
given as the list of its fields in order.
-/
import Bourse.Json.Basic
import Bourse.Order.Basic

namespace Bourse

namespace Wire

/-- An identifier. -/
def id? (j : Json) : Option Int := j.int?.filter (inSignedWord 64)

/-- A decimal. -/
def decimal? (j : Json) : Option Decimal := j.text?.bind Decimal.ofText?

/-- An instant. -/
def instant? (j : Json) : Option Instant := j.text?.bind Instant.ofText?

/-- A date. -/
def date? (j : Json) : Option Date := j.text?.bind Date.ofText?

/-- A side. -/
def side? : Json → Option Side :=
  Json.choice? ([Side.buy, .sell].map fun s => (s.word, s))

/-- A status. -/
def status? : Json → Option OrderStatus :=
  Json.choice? (OrderStatus.all.map fun s => (s.word, s))

end Wire

open Wire

namespace OrderRequest

/-- The names of the fields, in order. -/
def fieldNames : List String := ["ticker", "side", "price", "amount"]

/-- The request that a value stands for. -/
def ofJson? (j : Json) : Option OrderRequest := do
  let r ← j.row? fieldNames
  return {
    ticker := ← r.need "ticker" Json.text?
    side := ← r.need "side" side?
    price := ← r.need "price" decimal?
    amount := ← r.need "amount" decimal? }

/-- The request as a value. -/
def toJson (r : OrderRequest) : Json :=
  .record [("ticker", .text r.ticker), ("side", .text r.side.word), ("price", .text r.price.text),
    ("amount", .text r.amount.text)]

end OrderRequest

namespace Order

/-- The names of the fields, in order. -/
def fieldNames : List String :=
  ["id", "ticker", "side", "price", "amount", "executed_amount", "remaining_amount",
    "executed_value", "avg_executed_price", "status", "created_at", "updated_at"]

/-- The order that a value stands for. -/
def ofJson? (j : Json) : Option Order := do
  let r ← j.row? fieldNames
  return {
    id := ← r.need "id" id?
    ticker := ← r.need "ticker" Json.text?
    side := ← r.need "side" side?
    price := ← r.need "price" decimal?
    amount := ← r.need "amount" decimal?
    executedAmount := ← r.need "executed_amount" decimal?
    remainingAmount := ← r.need "remaining_amount" decimal?
    executedValue := ← r.need "executed_value" decimal?
    averagePrice := ← r.optional "avg_executed_price" decimal?
    status := ← r.need "status" status?
    createdAt := ← r.need "created_at" instant?
    updatedAt := ← r.need "updated_at" instant? }

/-- The order as a record, its instants written by `instant`. -/
def toRecord (instant : Instant → Json) (o : Order) : List (String × Json) :=
  [("id", .int o.id), ("ticker", .text o.ticker), ("side", .text o.side.word),
    ("price", .text o.price.text), ("amount", .text o.amount.text),
    ("executed_amount", .text o.executedAmount.text),
    ("remaining_amount", .text o.remainingAmount.text),
    ("executed_value", .text o.executedValue.text),
    ("avg_executed_price", match o.averagePrice with
      | some a => .text a.text
      | none => .null),
    ("status", .text o.status.word), ("created_at", instant o.createdAt),
    ("updated_at", instant o.updatedAt)]

/-- The order as a value. -/
def toJson (o : Order) : Json := .record (o.toRecord fun t => .text t.text)

/-- The order with some of its fields overwritten. -/
def patched? (o : Order) : Json → Option Order
  | .record fields =>
    let kept := (o.toRecord fun t => .text t.text).filter fun f => !fields.any (·.1 == f.1)
    ofJson? (.record (kept ++ fields))
  | _ => none

end Order

namespace Execution

/-- The names of the fields, in order. -/
def fieldNames : List String :=
  ["id", "order_id", "counter_order_id", "executed_price", "executed_amount", "executed_at"]

/-- The execution that a value stands for. -/
def ofJson? (j : Json) : Option Execution := do
  let r ← j.row? fieldNames
  return {
    id := ← r.need "id" id?
    order := ← r.need "order_id" id?
    counterOrder := ← r.need "counter_order_id" id?
    price := ← r.need "executed_price" decimal?
    amount := ← r.need "executed_amount" decimal?
    executedAt := ← r.need "executed_at" instant? }

/-- The execution as a record, its instant written by `instant`. -/
def toRecord (instant : Instant → Json) (e : Execution) : List (String × Json) :=
  [("id", .int e.id), ("order_id", .int e.order), ("counter_order_id", .int e.counterOrder),
    ("executed_price", .text e.price.text), ("executed_amount", .text e.amount.text),
    ("executed_at", instant e.executedAt)]

/-- The execution as a value. -/
def toJson (e : Execution) : Json := .record (e.toRecord fun t => .text t.text)

end Execution

namespace FillEvent

/-- The names of the fields, in order. -/
def fieldNames : List String :=
  ["ticker", "buy_order_id", "sell_order_id", "incoming_order_id", "resting_order_id", "price",
    "amount", "incoming_status", "resting_status", "executed_at"]

/-- The event that a value stands for. -/
def ofJson? (j : Json) : Option FillEvent := do
  let r ← j.row? fieldNames
  return {
    ticker := ← r.need "ticker" Json.text?
    buyOrder := ← r.need "buy_order_id" id?
    sellOrder := ← r.need "sell_order_id" id?
    incomingOrder := ← r.need "incoming_order_id" id?
    restingOrder := ← r.need "resting_order_id" id?
    price := ← r.need "price" decimal?
    amount := ← r.need "amount" decimal?
    incomingStatus := ← r.need "incoming_status" status?
    restingStatus := ← r.need "resting_status" status?
    executedAt := ← r.need "executed_at" instant? }

/-- The event as a record, its instant written by `instant`. -/
def toRecord (instant : Instant → Json) (e : FillEvent) : List (String × Json) :=
  [("ticker", .text e.ticker), ("buy_order_id", .int e.buyOrder),
    ("sell_order_id", .int e.sellOrder), ("incoming_order_id", .int e.incomingOrder),
    ("resting_order_id", .int e.restingOrder), ("price", .text e.price.text),
    ("amount", .text e.amount.text), ("incoming_status", .text e.incomingStatus.word),
    ("resting_status", .text e.restingStatus.word), ("executed_at", instant e.executedAt)]

/-- The event as a value. -/
def toJson (e : FillEvent) : Json := .record (e.toRecord fun t => .text t.text)

end FillEvent

end Bourse
