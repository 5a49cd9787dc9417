/-
What the service tells about itself, as it travels: counters, reports and outcomes.
-/
import Bourse.Reconciliation
import Bourse.Tick
import Bourse.Wire.Config

namespace Bourse

open Wire

/-- A counter as a value. -/
def Wire.ofCounter (n : UInt64) : Json := ofNat n.toNat

/-- The counters as a value. -/
def Metrics.toJson (m : Metrics) : Json :=
  .record [("orders_submitted", ofCounter m.ordersSubmitted),
    ("orders_cancelled", ofCounter m.ordersCancelled), ("ticks_run", ofCounter m.ticksRun),
    ("ticks_market_closed", ofCounter m.ticksMarketClosed),
    ("ticks_overlapped", ofCounter m.ticksOverlapped),
    ("ticks_index_unavailable", ofCounter m.ticksIndexUnavailable),
    ("orders_processed", ofCounter m.ordersProcessed), ("orders_failed", ofCounter m.ordersFailed),
    ("fills", ofCounter m.fills), ("orders_filled", ofCounter m.ordersFilled),
    ("executed_volume", .text m.executedVolume.text)]

/-- The totals of a tick as a value. -/
def TickReport.toJson (r : TickReport) : Json :=
  .record [("tickers", ofNat r.tickers), ("tickers_failed", ofNat r.tickersFailed),
    ("orders_processed", ofNat r.ordersProcessed), ("orders_failed", ofNat r.ordersFailed),
    ("fills", ofNat r.fills), ("executed_amount", .text r.executedAmount.text)]

/-- The outcome of a tick as a value. -/
def TickOutcome.toJson : TickOutcome → Json
  | marketClosed => .text "MarketClosed"
  | overlapped => .text "Overlapped"
  | indexUnavailable => .text "IndexUnavailable"
  | completed report => report.toJson

/-- What a reconciliation did, as a value. -/
def Reconciliation.toJson (r : Reconciliation) : Json :=
  .record [("live_orders", ofNat r.liveOrders), ("orders_enqueued", ofNat r.enqueued),
    ("stale_removed", ofNat r.staleRemoved), ("discrepancies_found", ofNat r.discrepancies)]

/-- An error as a value. -/
def Error.toJson (e : Error) : Json :=
  .record [("error", .text e.kind), ("message", .text e.message)]

/-- A failure as a value; an overflow ends the work it happens in. -/
def Failure.toJson : Failure → Json
  | error e => e.toJson
  | overflow o => .record [("error", .text "Panic"), ("message", .text o.message)]

end Bourse
