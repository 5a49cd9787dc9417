/-
The feed of fill events that subscribers read.

Everything sent stays in order; a subscriber has a place in it.  Only the latest events
are kept for a subscriber that lags: as many as the capacity, rounded up to a power of
two.
-/
import Bourse.Order.Basic

namespace Bourse

/-- Events sent so far, and how many of them are kept. -/
structure Feed where
  capacity : Nat
  events : List FillEvent
deriving DecidableEq

namespace Feed

/-- A feed with room for at least `capacity` events, and for one in any case. -/
def ofCapacity (capacity : Nat) : Feed := ⟨(max capacity 1).nextPowerOfTwo, []⟩

instance : Inhabited Feed := ⟨ofCapacity 1⟩

/-- Sends an event. -/
def send (f : Feed) (e : FillEvent) : Feed := { f with events := f.events ++ [e] }

/-- The place after everything sent so far. -/
def tail (f : Feed) : Nat := f.events.length

/-- The number of events that a subscriber at a place has lost. -/
def lost (f : Feed) (place : Nat) : Nat := f.tail - f.capacity - place

/-- The events that a subscriber at a place can still read. -/
def since (f : Feed) (place : Nat) : List FillEvent := f.events.drop (place + f.lost place)

end Feed

end Bourse
