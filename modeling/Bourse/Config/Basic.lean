/-
What can be configured, with the values that hold when nothing is said.
-/
import Bourse.Time.Date

namespace Bourse

/-- Where orders are kept; without an address, in memory. -/
structure DatabaseConfig where
  url : Option String
  maxConnections : Nat
  acquireTimeoutSecs : Nat
  runMigrations : Bool
deriving DecidableEq

/-- When matching passes run. -/
structure SchedulerConfig where
  /-- The time between two passes, in milliseconds. -/
  tickIntervalMs : Nat
  maxConcurrentTickers : Nat
deriving DecidableEq

/-- When the market is open, in the exchange's own time. -/
structure MarketHours where
  utcOffsetMinutes : Int
  /-- The opening, which is part of the session. -/
  opening : String
  /-- The closing, which is not. -/
  closing : String
  tradingDays : List String
  holidays : List Date
deriving DecidableEq

/-- How orders are matched. -/
structure MatchingConfig where
  /-- The places that an average price is kept to. -/
  priceScale : Nat
  /-- The tickers that can be traded; none named means all. -/
  tradable : List String
  /-- How many events are kept for a subscriber that lags. -/
  eventCapacity : Nat
deriving DecidableEq

/-- A whole configuration. -/
structure Config where
  database : DatabaseConfig
  scheduler : SchedulerConfig
  marketHours : MarketHours
  matching : MatchingConfig
deriving DecidableEq

/-- Orders in memory. -/
def DatabaseConfig.standard : DatabaseConfig := ⟨none, 10, 5, true⟩

/-- A pass every second. -/
def SchedulerConfig.standard : SchedulerConfig := ⟨1000, 4⟩

/-- Weekdays from nine to half past three, nine hours ahead of UTC. -/
def MarketHours.standard : MarketHours :=
  ⟨540, "09:00", "15:30", ["Mon", "Tue", "Wed", "Thu", "Fri"], []⟩

/-- Averages to two places, any ticker. -/
def MatchingConfig.standard : MatchingConfig := ⟨2, [], 1024⟩

/-- The configuration that holds when nothing is said. -/
def Config.standard : Config := ⟨.standard, .standard, .standard, .standard⟩

instance : Inhabited Config := ⟨.standard⟩

/-- Are orders kept in a database? -/
def Config.usesDatabase (c : Config) : Bool := c.database.url.isSome

end Bourse
