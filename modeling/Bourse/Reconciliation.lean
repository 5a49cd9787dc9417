/-
Bringing the index back in line with the store.

Every live order whose amounts and status agree has to be in the index under its side
and ticker, and nothing else may be.  Orders that do not agree with themselves are
counted and left out.
-/
import Bourse.Action

namespace Bourse

/-- What a reconciliation found and did. -/
structure Reconciliation where
  /-- Orders that are not terminal. -/
  liveOrders : Nat
  /-- Orders that were missing from the index. -/
  enqueued : Nat
  /-- Entries of the index that were taken out. -/
  staleRemoved : Nat
  /-- Live orders whose amounts or status do not agree. -/
  discrepancies : Nat
deriving DecidableEq, Inhabited

/-- Do the amounts and the status of an order agree?  `none` if their difference has no room. -/
def Order.consistent? (o : Order) : Option Bool :=
  if o.remainingAmount.negative then some false
  else (o.amount.sub o.executedAmount).map fun remaining =>
    remaining.same o.remainingAmount && o.derivedStatus == o.status

namespace Reconciliation

/-- The orders that belong in the index, and the number of those that do not agree. -/
def survey : List Order → Option (List Order × Nat)
  | [] => some ([], 0)
  | o :: os => do
    let consistent ← o.consistent?
    let (belonging, discrepancies) ← survey os
    if !consistent then return (belonging, discrepancies + 1)
    else return (if o.matchable then o :: belonging else belonging, discrepancies)

/-- Enqueues orders. -/
def enqueueAll (side : Side) (ticker : String) : List Order → Action Unit
  | [] => return ()
  | o :: os => do
    Action.index (.enqueue side ticker o.id o.price)
    enqueueAll side ticker os

/-- Takes entries out, and counts those that were there. -/
def removeAll (side : Side) (ticker : String) : List OrderId → Action Nat
  | [] => return 0
  | id :: ids => do
    let removed ← Action.index (.remove side ticker id)
    let n ← removeAll side ticker ids
    return if removed then n + 1 else n

/-- Brings one book in line with the orders that belong in the index; counts what it did. -/
def mendBook (belonging : List Order) (side : Side) (ticker : String) : Action (Nat × Nat) := do
  let indexed ← Action.index (.list side ticker)
  let live := belonging.filter fun o => o.side == side && o.ticker == ticker
  let missing := live.filter fun o => !indexed.contains o.id
  let stale := indexed.filter fun id => !live.any (·.id == id)
  enqueueAll side ticker missing
  let removed ← removeAll side ticker stale
  return (missing.length, removed)

/-- Brings the books of some tickers in line, buys before sells. -/
def mendTickers (belonging : List Order) : List String → Action (Nat × Nat)
  | [] => return (0, 0)
  | ticker :: tickers => do
    let buys ← mendBook belonging .buy ticker
    let sells ← mendBook belonging .sell ticker
    let rest ← mendTickers belonging tickers
    return (buys.1 + sells.1 + rest.1, buys.2 + sells.2 + rest.2)

end Reconciliation

/-- Reconciles the index with the store. -/
def reconcile : Action Reconciliation := do
  let live ← Action.store .live
  let (belonging, discrepancies) ← Action.total .subtraction (Reconciliation.survey live)
  let indexed ← Action.index .tickers
  let tickers := belonging.foldl (fun ts o => WaitingIndex.insertTicker o.ticker ts)
    (indexed.foldl (fun ts t => WaitingIndex.insertTicker t ts) [])
  let (enqueued, staleRemoved) ← Reconciliation.mendTickers belonging tickers
  return { liveOrders := live.length, enqueued, staleRemoved, discrepancies }

end Bourse
