/-
One matching pass over every ticker.

A tick runs only while the market is open and no other tick runs.  Ticker by ticker it
hands every waiting order to the matching, buys before sells.  An order that fails spoils
nothing but its own turn, and a ticker whose totals overflow nothing but its own pass.

The passes over the tickers may go on side by side, and here they go one after the other.
That is one schedule of many: all of them are in `Proofs/Fanout.lean`, where `Leads.ticks`
says that this is one, and `Ticks.agrees` what does not depend on it.
-/
import Bourse.Matching

namespace Bourse

/-- The totals of a tick, or of one ticker's part in it. -/
structure TickReport where
  tickers : Nat
  /-- Tickers that were given up, or of which a side could not be listed. -/
  tickersFailed : Nat
  ordersProcessed : Nat
  ordersFailed : Nat
  fills : Nat
  /-- The amount filled, counted once per fill. -/
  executedAmount : Decimal
deriving DecidableEq, Inhabited

namespace TickReport

/-- Nothing visited. -/
def zero : TickReport := ⟨0, 0, 0, 0, 0, .zero⟩

/-- The totals of two reports, if there is room for the amount. -/
def absorb (r other : TickReport) : Option TickReport :=
  (r.executedAmount.add other.executedAmount).map fun amount =>
    { tickers := r.tickers + other.tickers
      tickersFailed := r.tickersFailed + other.tickersFailed
      ordersProcessed := r.ordersProcessed + other.ordersProcessed
      ordersFailed := r.ordersFailed + other.ordersFailed
      fills := r.fills + other.fills
      executedAmount := amount }

/-- The totals with one ticker's pass, which may have been given up. -/
def withPass (r : TickReport) : Except Failure TickReport → Option TickReport
  | .ok other => r.absorb other
  | .error _ => some { r with tickers := r.tickers + 1, tickersFailed := r.tickersFailed + 1 }

end TickReport

/-- What became of a tick. -/
inductive TickOutcome
  /-- The market was closed; nothing was read or written. -/
  | marketClosed
  /-- Another tick was running. -/
  | overlapped
  /-- The tickers could not be listed. -/
  | indexUnavailable
  | completed (report : TickReport)
deriving DecidableEq, Inhabited

/-- Gives each listed order its turn. -/
def drainOrders (scale : Nat) (ticker : String) : List OrderId → TickReport → Action TickReport
  | [], r => return r
  | id :: ids, r => do
    Action.count .processed
    let r := { r with ordersProcessed := r.ordersProcessed + 1 }
    match ← (processOrder scale id ticker).attemptError with
    | .ok report =>
      let filled ← Action.total .addition report.executedAmount
      let amount ← Action.total .addition (r.executedAmount.add filled)
      drainOrders scale ticker ids
        { r with fills := r.fills + report.fills.length, executedAmount := amount }
    | .error _ =>
      Action.count .failed
      drainOrders scale ticker ids { r with ordersFailed := r.ordersFailed + 1 }

/-- Drains one side of a ticker; a side that cannot be listed marks the ticker as failed. -/
def drainSide (scale : Nat) (ticker : String) (side : Side) (r : TickReport) :
    Action TickReport := do
  match ← (Action.index (.list side ticker)).attemptError with
  | .ok ids => drainOrders scale ticker ids r
  | .error _ => return { r with tickersFailed := 1 }

/-- Drains a ticker, buys before sells. -/
def drainTicker (scale : Nat) (ticker : String) : Action TickReport := do
  let r ← drainSide scale ticker .buy { TickReport.zero with tickers := 1 }
  drainSide scale ticker .sell r

/-- Drains the tickers, one after the other, and holds what came of each. -/
def drainTickers (scale : Nat) : List String → Action (List (Except Failure TickReport))
  | [] => return []
  | ticker :: tickers => do
    let r ← (drainTicker scale ticker).attempt
    let rs ← drainTickers scale tickers
    return r :: rs

/--
The pass itself, once the right to it is held.  The reports are added up when all tickers
are drained, in the order of the tickers.
-/
def tickPass (scale : Nat) : Action TickOutcome := do
  match ← (Action.index .tickers).attemptError with
  | .error _ =>
    Action.count .ticksIndexUnavailable
    return .indexUnavailable
  | .ok tickers =>
    let passes ← drainTickers scale tickers
    let report ← Action.total .addition (passes.foldlM TickReport.withPass .zero)
    Action.count .ticksRun
    return .completed report

/-- Runs one matching pass now, if it may run. -/
def tick (scale : Nat) : Action TickOutcome := do
  let time ← Action.now
  if !(← Action.call (.marketOpen time) .done) then
    Action.count .ticksMarketClosed
    return .marketClosed
  else if !(← Action.call .beginTick .done) then
    Action.count .ticksOverlapped
    return .overlapped
  else
    let outcome ← (tickPass scale).attempt
    Action.call .endTick .done
    match outcome with
    | .ok outcome => return outcome
    | .error f => Action.fail f

end Bourse
