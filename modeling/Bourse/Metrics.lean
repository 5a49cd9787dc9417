/-
Counters of what has been done.

Each counter is a 64-bit word and starts again at zero when it is full.  The executed
volume stops at the largest decimal instead.
-/
import Bourse.Decimal.Text

namespace Bourse

/-- The counters that go up one at a time. -/
inductive Counter
  | submitted
  | cancelled
  | ticksRun
  | ticksMarketClosed
  | ticksOverlapped
  | ticksIndexUnavailable
  | processed
  | failed
deriving DecidableEq, Inhabited

/-- What has been done so far. -/
structure Metrics where
  ordersSubmitted : UInt64
  ordersCancelled : UInt64
  ticksRun : UInt64
  ticksMarketClosed : UInt64
  ticksOverlapped : UInt64
  ticksIndexUnavailable : UInt64
  ordersProcessed : UInt64
  ordersFailed : UInt64
  fills : UInt64
  ordersFilled : UInt64
  executedVolume : Decimal
deriving DecidableEq

namespace Metrics

/-- Nothing done yet. -/
def zero : Metrics := ⟨0, 0, 0, 0, 0, 0, 0, 0, 0, 0, .zero⟩

instance : Inhabited Metrics := ⟨zero⟩

/-- One more of a kind. -/
def count (m : Metrics) : Counter → Metrics
  | .submitted => { m with ordersSubmitted := m.ordersSubmitted + 1 }
  | .cancelled => { m with ordersCancelled := m.ordersCancelled + 1 }
  | .ticksRun => { m with ticksRun := m.ticksRun + 1 }
  | .ticksMarketClosed => { m with ticksMarketClosed := m.ticksMarketClosed + 1 }
  | .ticksOverlapped => { m with ticksOverlapped := m.ticksOverlapped + 1 }
  | .ticksIndexUnavailable => { m with ticksIndexUnavailable := m.ticksIndexUnavailable + 1 }
  | .processed => { m with ordersProcessed := m.ordersProcessed + 1 }
  | .failed => { m with ordersFailed := m.ordersFailed + 1 }

/-- One more fill, which completed so many orders. -/
def recordFill (m : Metrics) (amount : Decimal) (completed : UInt64) : Metrics :=
  { m with
    fills := m.fills + 1
    ordersFilled := m.ordersFilled + completed
    executedVolume := m.executedVolume.saturatingAdd amount }

end Metrics

end Bourse
