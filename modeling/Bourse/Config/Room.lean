/-
The room that a configuration asks for.

A service sets aside places for the events of its feed, and then permits for the tickers
that it works on side by side.  Neither can be had in any number, whatever else the
configuration says.
-/
import Bourse.Config.Basic
import Bourse.Error
import Bourse.Power

namespace Bourse

/-- The most permits that can be given out at one time. -/
def maxPermits : Nat := twoTo 61 - 1

/-- The most places that can be asked for. -/
def maxPlaces : Nat := twoTo 63 - 1

/-- The most bytes that anything may take in memory. -/
def maxBytes : Nat := twoTo 63 - 1

/-- The bytes that the place of an event takes. -/
def placeBytes : Nat := 128

/-- What there is no room for, if a configuration asks for such a thing. -/
def Config.overflow? (c : Config) : Option Overflow :=
  if maxPlaces < c.matching.eventCapacity then some .places
  else if maxBytes < c.matching.eventCapacity.nextPowerOfTwo * placeBytes then some .memory
  else if maxPermits < c.scheduler.maxConcurrentTickers then some .permits
  else none

end Bourse
