/-
A service at work, with its store and index in memory.

Every call is answered at once, and none fails.
-/
import Bourse.Action
import Bourse.Calendar
import Bourse.Config.Room
import Bourse.Desk

namespace Bourse

/-- A service with its store and index. -/
structure Exchange where
  store : Store
  index : WaitingIndex
  desk : Desk
  calendar : Calendar
  /-- What the clock shows. -/
  clock : Instant
deriving Inhabited

namespace Exchange

/-- A service that has done nothing yet, if there is room for what it is to have. -/
def start (config : Config) (clock : Instant) : Except Failure Exchange := do
  let calendar ← (Calendar.ofMarketHours config.marketHours).mapError .error
  if let some o := config.overflow? then throw (.overflow o)
  return ⟨.empty, .empty, .fresh config.matching.eventCapacity, calendar, clock⟩

/-- Answers a call. -/
def answer (c : Call) (x : Exchange) : c.Answer × Exchange :=
  match c with
  | .store c =>
    let (a, store) := x.store.perform c
    (.ok a, { x with store })
  | .index c =>
    let (a, index) := x.index.perform c
    (.ok a, { x with index })
  | .notify e => (true, { x with desk := x.desk.send e })
  | .now => (x.clock, x)
  | .marketOpen time => (x.calendar.isOpen time, x)
  | .beginTick =>
    if x.desk.ticking then (false, x)
    else (true, { x with desk := { x.desk with ticking := true } })
  | .endTick => ((), { x with desk := { x.desk with ticking := false } })
  | .count c => ((), { x with desk := x.desk.count c })
  | .recordFill amount completed => ((), { x with desk := x.desk.recordFill amount completed })

/-- Does work to its end. -/
def perform {α : Type} (x : Exchange) (work : Action α) : Except Failure α × Exchange :=
  work.run answer x

end Exchange

end Bourse
