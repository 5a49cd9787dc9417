/-
When the market is open: a weekly session in the exchange's own time, less holidays.
-/
import Bourse.Config.Basic
import Bourse.Decimal.Basic
import Bourse.Error
import Bourse.Time.Session

namespace Bourse

/-- A weekly session and the days it does not take place. -/
structure Calendar where
  /-- How many seconds the exchange's clock runs ahead of UTC. -/
  offset : Int
  opening : SessionTime
  closing : SessionTime
  days : List Weekday
  holidays : List Date
deriving DecidableEq, Inhabited

/-- The error of a configuration that says something wrong. -/
def badConfig {α : Type} (message : String) : Except Error α := .error (.configuration message)

/-- A session time out of a configuration. -/
def SessionTime.ofConfig (field text : String) : Except Error SessionTime :=
  match SessionTime.parse text with
  | .ok t => .ok t
  | .error f => badConfig s!"market_hours.{field} '{text}': {f.message}"

/-- A trading day out of a configuration. -/
def Weekday.ofConfig (text : String) : Except Error Weekday :=
  match Weekday.ofText? text with
  | some day => .ok day
  | none => badConfig s!"unknown trading day '{text}'"

namespace Calendar

/-- The calendar that market hours describe, unless they are incomplete or contradict themselves. -/
def ofMarketHours (hours : MarketHours) : Except Error Calendar := do
  let offset := hours.utcOffsetMinutes * 60
  if 86400 ≤ offset.natAbs then
    badConfig s!"market_hours.utc_offset_minutes {hours.utcOffsetMinutes} is out of range"
  let opening ← SessionTime.ofConfig "open" hours.opening
  let closing ← SessionTime.ofConfig "close" hours.closing
  if opening.cmp closing != .lt then
    badConfig s!"market_hours.open {opening.text} must be before close {closing.text}"
  if hours.tradingDays.isEmpty then badConfig "market_hours.trading_days is empty"
  let days ← hours.tradingDays.mapM Weekday.ofConfig
  return ⟨offset, opening, closing, days, hours.holidays⟩

/-- Is the market open at an instant? -/
def isOpen (c : Calendar) (now : Instant) : Bool :=
  let (day, second) := now.localTime c.offset
  let time : SessionTime := ⟨second, now.nanos⟩
  c.days.contains (Date.weekdayOfDayNumber day) &&
    !c.holidays.contains (Date.ofDayNumber day) &&
    c.opening.cmp time != .gt && time.cmp c.closing == .lt

/-- Is the market open at an instant whose day on the exchange's clock can be told? -/
def isOpen? (c : Calendar) (now : Instant) : Except Overflow Bool :=
  let (day, second) := now.localTime c.offset
  if (Instant.ofParts? day second 0).isSome then .ok (c.isOpen now) else .error .localTime

end Calendar

namespace Config

/-- Refuses a configuration that nothing can be started with. -/
def check (c : Config) : Except Error Unit := do
  if c.scheduler.tickIntervalMs = 0 then badConfig "scheduler.tick_interval_ms must be positive"
  if c.scheduler.maxConcurrentTickers = 0 then
    badConfig "scheduler.max_concurrent_tickers must be positive"
  if Decimal.maxScale < c.matching.priceScale then
    badConfig "matching.price_scale must be at most 28"
  if c.usesDatabase ∧ c.database.maxConnections = 0 then
    badConfig "database.max_connections must be positive"
  let _ ← Calendar.ofMarketHours c.marketHours
  return ()

end Config

end Bourse
