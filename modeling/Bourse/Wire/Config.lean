/-
Configurations as they travel.

Every part but the market hours may be left out, and every field of the parts that may be
left out has a value of its own.
-/
import Bourse.Config.Basic
import Bourse.Wire.Order

namespace Bourse

namespace Wire

/-- An integer of 32 bits. -/
def signedWord32? (j : Json) : Option Int := j.int?.filter (inSignedWord 32)

/-- A natural of 32 bits. -/
def word32? (j : Json) : Option Nat := (j.int?.filter (inWord 32)).map Int.toNat

/-- A natural of 64 bits. -/
def word64? (j : Json) : Option Nat := (j.int?.filter (inWord 64)).map Int.toNat

/-- A natural as a value. -/
def ofNat (n : Nat) : Json := .int n

/-- Texts as a value. -/
def ofTexts (ts : List String) : Json := .list (ts.map .text)

end Wire

open Wire

namespace DatabaseConfig

/-- The part that a value stands for. -/
def ofJson? (j : Json) : Option DatabaseConfig := do
  let r ← j.row? ["url", "max_connections", "acquire_timeout_secs", "run_migrations"]
  return {
    url := ← r.optional "url" Json.text?
    maxConnections := ← r.orElse "max_connections" standard.maxConnections word32?
    acquireTimeoutSecs := ← r.orElse "acquire_timeout_secs" standard.acquireTimeoutSecs word64?
    runMigrations := ← r.orElse "run_migrations" standard.runMigrations Json.bool? }

/-- The part as a value. -/
def toJson (c : DatabaseConfig) : Json :=
  .record [("url", (c.url.map Json.text).getD .null), ("max_connections", ofNat c.maxConnections),
    ("acquire_timeout_secs", ofNat c.acquireTimeoutSecs), ("run_migrations", .bool c.runMigrations)]

end DatabaseConfig

namespace SchedulerConfig

/-- The part that a value stands for. -/
def ofJson? (j : Json) : Option SchedulerConfig := do
  let r ← j.row? ["tick_interval_ms", "max_concurrent_tickers"]
  return {
    tickIntervalMs := ← r.orElse "tick_interval_ms" standard.tickIntervalMs word64?
    maxConcurrentTickers :=
      ← r.orElse "max_concurrent_tickers" standard.maxConcurrentTickers word64? }

/-- The part as a value. -/
def toJson (c : SchedulerConfig) : Json :=
  .record [("tick_interval_ms", ofNat c.tickIntervalMs),
    ("max_concurrent_tickers", ofNat c.maxConcurrentTickers)]

end SchedulerConfig

namespace MarketHours

/-- The part that a value stands for. -/
def ofJson? (j : Json) : Option MarketHours := do
  let r ← j.row? ["utc_offset_minutes", "open", "close", "trading_days", "holidays"]
  return {
    utcOffsetMinutes := ← r.need "utc_offset_minutes" signedWord32?
    opening := ← r.need "open" Json.text?
    closing := ← r.need "close" Json.text?
    tradingDays := ← r.need "trading_days" (Json.listOf? Json.text?)
    holidays := ← r.orElse "holidays" [] (Json.listOf? date?) }

/-- The part as a value. -/
def toJson (h : MarketHours) : Json :=
  .record [("utc_offset_minutes", .int h.utcOffsetMinutes), ("open", .text h.opening),
    ("close", .text h.closing), ("trading_days", ofTexts h.tradingDays),
    ("holidays", ofTexts (h.holidays.map Date.text))]

end MarketHours

namespace MatchingConfig

/-- The part that a value stands for. -/
def ofJson? (j : Json) : Option MatchingConfig := do
  let r ← j.row? ["price_scale", "universe", "event_capacity"]
  return {
    priceScale := ← r.orElse "price_scale" standard.priceScale word32?
    tradable := ← r.orElse "universe" standard.tradable (Json.listOf? Json.text?)
    eventCapacity := ← r.orElse "event_capacity" standard.eventCapacity word64? }

/-- The part as a value. -/
def toJson (c : MatchingConfig) : Json :=
  .record [("price_scale", ofNat c.priceScale), ("universe", ofTexts c.tradable),
    ("event_capacity", ofNat c.eventCapacity)]

end MatchingConfig

namespace Config

/-- The names of the parts, in order. -/
def partNames : List String := ["database", "scheduler", "market_hours", "matching"]

/-- The configuration that a value stands for. -/
def ofJson? (j : Json) : Option Config := do
  let r ← j.row? partNames
  return {
    database := ← r.orElse "database" .standard DatabaseConfig.ofJson?
    scheduler := ← r.orElse "scheduler" .standard SchedulerConfig.ofJson?
    marketHours := ← r.need "market_hours" MarketHours.ofJson?
    matching := ← r.orElse "matching" .standard MatchingConfig.ofJson? }

/-- The configuration as a value. -/
def toJson (c : Config) : Json :=
  .record [("database", c.database.toJson), ("scheduler", c.scheduler.toJson),
    ("market_hours", c.marketHours.toJson), ("matching", c.matching.toJson)]

end Config

end Bourse
