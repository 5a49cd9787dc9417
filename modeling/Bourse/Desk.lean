/-
One who works with the store and the index.

A desk counts what it does, has an audience for its fill events, and runs at most one tick
at a time.
-/
import Bourse.Feed
import Bourse.Metrics

namespace Bourse

/-- The counters, the audience and the tick of one who works. -/
structure Desk where
  metrics : Metrics
  feed : Feed
  /-- Is a tick running? -/
  ticking : Bool
deriving Inhabited

namespace Desk

/-- A desk that has done nothing yet and keeps so many events for its audience. -/
def fresh (capacity : Nat) : Desk := ⟨.zero, .ofCapacity capacity, false⟩

/-- Tells the audience of a fill. -/
def send (d : Desk) (e : FillEvent) : Desk := { d with feed := d.feed.send e }

/-- Counts one more of a kind. -/
def count (d : Desk) (c : Counter) : Desk := { d with metrics := d.metrics.count c }

/-- Counts one more fill, which completed so many orders. -/
def recordFill (d : Desk) (amount : Decimal) (completed : UInt64) : Desk :=
  { d with metrics := d.metrics.recordFill amount completed }

end Desk

end Bourse
