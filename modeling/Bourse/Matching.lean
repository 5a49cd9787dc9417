/-
Price-time priority matching of one waiting order.

The index only says which orders may be waiting on the other side.  They are read again
from the store, those that can no longer be matched are taken out of the index, and the
rest are met best price first, then oldest, then lowest identifier.  Each meeting is a
fill of the smaller of the two remaining amounts at the waiting order's price, committed
before the index is touched or anyone is told.
-/
import Bourse.Action
import Bourse.Order.Fill
import Bourse.Order.Lifecycle

namespace Bourse

/-- What came of processing an order. -/
structure MatchReport where
  order : OrderId
  /-- The order's status afterwards; nothing if there is no such order. -/
  status : Option OrderStatus
  /-- The committed fills, in order. -/
  fills : List FillEvent
  /-- The execution each fill left on the processed order. -/
  executions : List Execution
  /-- How many entries were taken out of the index because their orders cannot be matched. -/
  staleRemoved : Nat
deriving DecidableEq, Inhabited

namespace MatchReport

/-- The total amount filled, if there is room for it. -/
def executedAmount (r : MatchReport) : Option Decimal := Decimal.sum? (r.fills.map (·.amount))

/-- Was nothing filled? -/
def isNoop (r : MatchReport) : Bool := r.fills.isEmpty

end MatchReport

/-- Which of two counter orders an order on `side` meets first. -/
def Side.priority (side : Side) (a b : Order) : Ordering :=
  let byPrice := match side with
    | .buy => a.price.cmp b.price
    | .sell => b.price.cmp a.price
  (byPrice.then (a.createdAt.cmp b.createdAt)).then (compare a.id b.id)

/-- Puts an order in its place in a queue, ahead of the first that does not come before it. -/
def Side.place (side : Side) (o : Order) : List Order → List Order
  | [] => [o]
  | x :: xs => if side.priority o x = .gt then x :: side.place o xs else o :: x :: xs

/-- Orders as they queue for one on `side`. -/
def Side.queue (side : Side) (os : List Order) : List Order := os.foldr side.place []

namespace Order

/-- Can this order be met by `incoming`, prices apart? -/
def opposes (counter incoming : Order) : Bool :=
  counter.matchable && counter.side == incoming.side.opposite && counter.ticker == incoming.ticker

/-- Takes a stale entry out of the index and goes on with `rest`. -/
def dropStale (incoming : Order) (id : OrderId) (rest : Action (List Order × Nat)) :
    Action (List Order × Nat) := do
  let removed ← Action.index (.remove incoming.side.opposite incoming.ticker id)
  let (found, stale) ← rest
  return (found, if removed then stale + 1 else stale)

/--
The orders among `loaded` that the listed identifiers nominate and `incoming` may meet,
with the count of entries that were taken out of the index.
-/
def nominated (incoming : Order) (loaded : List Order) :
    List OrderId → Action (List Order × Nat)
  | [] => return ([], 0)
  | id :: ids =>
    match loaded.find? (·.id == id) with
    | some counter =>
      if counter.opposes incoming then do
        let (found, stale) ← nominated incoming loaded ids
        return (if incoming.accepts counter.price then counter :: found else found, stale)
      else incoming.dropStale id (nominated incoming loaded ids)
    | none => incoming.dropStale id (nominated incoming loaded ids)

/-- The counter orders of `incoming` in the order it meets them. -/
def candidates (incoming : Order) : Action (List Order × Nat) := do
  let ids ← Action.index (.list incoming.side.opposite incoming.ticker)
  if ids.isEmpty then return ([], 0)
  let loaded ← Action.store (.loadMany ids)
  let (found, stale) ← incoming.nominated loaded ids
  return (incoming.side.queue found, stale)

/-- The order after one leg of a fill, or the error of a leg that cannot be. -/
def leg (o : Order) (amount price : Decimal) (scale : Nat) (time : Instant) :
    Except Error Order :=
  match o.fill amount price scale time with
  | .ok after => .ok after
  | .error fault => .error (fault.error o.id)

/-- The fill between two orders as they were read, ready to be committed. -/
def fillWith (incoming counter : Order) (scale : Nat) (time : Instant) :
    Except Error FillCommit := do
  let amount := incoming.remainingAmount.least counter.remainingAmount
  let incomingAfter ← incoming.leg amount counter.price scale time
  let counterAfter ← counter.leg amount counter.price scale time
  incoming.checkMove incomingAfter.status
  counter.checkMove counterAfter.status
  return {
    incoming := incomingAfter
    counter := counterAfter
    incomingExpected := incoming.remainingAmount
    counterExpected := counter.remainingAmount
    price := counter.price
    amount
    executedAt := time }

/-- Takes a filled order out of the index; a failure is left for a later turn to mend. -/
def dropFilled (o : Order) (ticker : String) : Action Unit :=
  if o.status = .filled then do
    let _ ← (Action.index (.remove o.side ticker o.id)).attempt
    return ()
  else return ()

end Order

/-- The event of a committed fill. -/
def FillCommit.event (fill : FillCommit) : FillEvent :=
  .ofFill fill.incoming fill.counter fill.price fill.amount fill.executedAt

/-- How many of its two orders a fill completes. -/
def FillCommit.completed (fill : FillCommit) : UInt64 :=
  (if fill.incoming.status = .filled then 1 else 0) +
    (if fill.counter.status = .filled then 1 else 0)

/-- What happens once a fill is committed, apart from the incoming order's own entry. -/
def FillCommit.settle (fill : FillCommit) (ticker : String) : Action Unit := do
  Action.call (.recordFill fill.amount fill.completed) .done
  fill.counter.dropFilled ticker
  let _ ← Action.call (.notify fill.event) .done
  return ()

/--
Meets the counter orders one after the other while anything remains of `incoming`: the
order as it is then, the fills and the executions they left on it.
-/
def walk (scale : Nat) (ticker : String) :
    List Order → Order → Action (Order × List FillEvent × List Execution)
  | [], incoming => return (incoming, [], [])
  | counter :: counters, incoming =>
    if !incoming.matchable then return (incoming, [], [])
    else do
      let time ← Action.now
      let fill ← Action.ofExcept (incoming.fillWith counter scale time)
      match ← Action.store (.commit fill) with
      | .committed receipt =>
        fill.settle ticker
        let (last, fills, executions) ← walk scale ticker counters fill.incoming
        return (last, fill.event :: fills, receipt.incoming :: executions)
      | .counterUnavailable => walk scale ticker counters incoming
      | .incomingUnavailable => return (incoming, [], [])

/-- The error of an order that is indexed under a ticker it does not trade. -/
def misindexed (o : Order) (ticker : String) : Error :=
  .invalidOrder s!"order {o.id} is indexed under {ticker} but trades {o.ticker}"

/--
Matches a waiting order, indexed under a ticker, against the other side of it.  Averages
are kept to `scale` places.
-/
def processOrder (scale : Nat) (id : OrderId) (ticker : String) : Action MatchReport := do
  match ← Action.store (.load id) with
  | none => return ⟨id, none, [], [], 0⟩
  | some incoming =>
    if incoming.ticker != ticker then Action.refuse (misindexed incoming ticker)
    else if !incoming.matchable then
      let removed ← Action.index (.remove incoming.side ticker id)
      return ⟨id, some incoming.status, [], [], if removed then 1 else 0⟩
    else
      let (counters, stale) ← incoming.candidates
      let (last, fills, executions) ← walk scale ticker counters incoming
      last.dropFilled ticker
      return ⟨id, some last.status, fills, executions, stale⟩

end Bourse
