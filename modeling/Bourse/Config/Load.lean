/-
Loading a configuration from a file and the environment.

The file may be left out.  It is looked up under its name as given and then with the
ending of each format added, and what it says is overridden by the environment.  A
configuration that is read is also checked.
-/
import Bourse.Calendar
import Bourse.Setting.Kind
import Bourse.Setting.Source

namespace Bourse

/-- Why a configuration could not be read. -/
inductive LoadFault
  | notFound (path : String)
  | unknownFormat (path : String)
  | malformed (path : String)
  | setting (f : Setting.Fault)
deriving DecidableEq, Inhabited

/-- The wording of a fault. -/
def LoadFault.message : LoadFault → String
  | notFound path => s!"configuration file \"{path}\" not found"
  | unknownFormat path => s!"configuration file \"{path}\" is not of a registered file format"
  | malformed path => s!"configuration file \"{path}\" is malformed"
  | setting f => f.message

open Setting

/-- The part on the database that a setting describes. -/
def DatabaseConfig.ofSetting (v : Setting) : Except Fault DatabaseConfig := do
  let r ← row "DatabaseConfig"
    ["url", "max_connections", "acquire_timeout_secs", "run_migrations"] v
  return {
    url := ← r.field "url" none (unlessAbsent words)
    maxConnections := ← r.field "max_connections" standard.maxConnections word32
    acquireTimeoutSecs := ← r.field "acquire_timeout_secs" standard.acquireTimeoutSecs word64
    runMigrations := ← r.field "run_migrations" standard.runMigrations truth }

/-- The part on the scheduler that a setting describes. -/
def SchedulerConfig.ofSetting (v : Setting) : Except Fault SchedulerConfig := do
  let r ← row "SchedulerConfig" ["tick_interval_ms", "max_concurrent_tickers"] v
  return {
    tickIntervalMs := ← r.field "tick_interval_ms" standard.tickIntervalMs word64
    maxConcurrentTickers :=
      ← r.field "max_concurrent_tickers" standard.maxConcurrentTickers word64 }

/-- The day that a setting names. -/
def Date.ofSetting (v : Setting) : Except Fault Date := do
  (Date.parse (← words v)).mapError .noDate

/-- The market hours that a setting describes; what is missing is told after all else. -/
def MarketHours.ofSetting (v : Setting) : Except Fault MarketHours := do
  let r ← row "MarketHoursConfig"
    ["utc_offset_minutes", "open", "close", "trading_days", "holidays"] v
  let utcOffsetMinutes ← r.field? "utc_offset_minutes" signedWord32
  let opening ← r.field? "open" words
  let closing ← r.field? "close" words
  let tradingDays ← r.field? "trading_days" (listOf words)
  let holidays ← r.field "holidays" [] (listOf Date.ofSetting)
  return {
    utcOffsetMinutes := ← r.need "utc_offset_minutes" utcOffsetMinutes
    opening := ← r.need "open" opening
    closing := ← r.need "close" closing
    tradingDays := ← r.need "trading_days" tradingDays
    holidays }

/-- The part on matching that a setting describes. -/
def MatchingConfig.ofSetting (v : Setting) : Except Fault MatchingConfig := do
  let r ← row "MatchingConfig" ["price_scale", "universe", "event_capacity"] v
  return {
    priceScale := ← r.field "price_scale" standard.priceScale word32
    tradable := ← r.field "universe" standard.tradable (listOf words)
    eventCapacity := ← r.field "event_capacity" standard.eventCapacity word64 }

namespace Config

/-- The configuration that a setting describes. -/
def ofSetting (v : Setting) : Except Fault Config := do
  let r ← row "MatcherConfig" ["database", "scheduler", "market_hours", "matching"] v
  let database ← r.field "database" .standard DatabaseConfig.ofSetting
  let scheduler ← r.field "scheduler" .standard SchedulerConfig.ofSetting
  let marketHours ← r.field? "market_hours" MarketHours.ofSetting
  let matching ← r.field "matching" .standard MatchingConfig.ofSetting
  return { database, scheduler, matching, marketHours := ← r.need "market_hours" marketHours }

/-! ### Files -/

/-- What follows the last slash of a path. -/
def fileName (path : List Char) : List Char := (path.reverse.takeWhile (· != '/')).reverse

/-- The ending of a file's name behind its last point, which is not the name's first character. -/
def fileEnding (path : List Char) : List Char :=
  let name := (fileName path).reverse
  let stem := (name.dropWhile (· != '.')).drop 1
  if stem.isEmpty then [] else (name.takeWhile (· != '.')).reverse

/-- A path, read backwards, without the slashes and single points that it ends in. -/
def dropStays : List Char → List Char
  | '/' :: cs => dropStays cs
  | '.' :: '/' :: cs => dropStays cs
  | ['.'] => []
  | cs => cs

/-- The path with an ending added to its last name, if it has one. -/
def withEnding? (ending path : String) : Option String :=
  let cs := (dropStays path.toList.reverse).reverse
  if cs.isEmpty || fileName cs == ['.', '.'] then none
  else some (String.ofList cs ++ "." ++ ending)

/-- The paths under which a document is looked up. -/
def documentPaths (path : String) : List String :=
  path :: Format.all.filterMap fun f => withEnding? f.ending path

/-- The document at a path, and its format. -/
def findDocument (files : String → Option String) (path : String) :
    Except LoadFault (Format × String) :=
  match files path with
  | some document =>
    match Format.all.find? fun f => f.ending.toList == fileEnding path.toList with
    | some format => .ok (format, document)
    | none => .error (.unknownFormat path)
  | none =>
    let found := Format.all.findSome? fun f =>
      ((withEnding? f.ending path).bind files).map fun document => (f, document)
    match found with
    | some d => .ok d
    | none => .error (.notFound path)

/-- A document without the mark that some editors put in front. -/
def unmarked (document : String) : String :=
  match document.toList with
  | c :: cs => if c.toNat = 0xFEFF then String.ofList cs else document
  | [] => document

/-- The entries of the file at a path; without a path there are none. -/
def fileEntries (files : String → Option String) :
    Option String → Except LoadFault (List (String × Setting))
  | none => .ok []
  | some path => do
    let (format, document) ← findDocument files path
    match format.read? (.document path) (unmarked document) with
    | some entries => return entries
    | none => throw (.malformed path)

/-- Loads a configuration, with `files` to look up the text of a file by its path. -/
def load (files : String → Option String) (environment : List (String × String))
    (path : Option String) : Except Failure Config := do
  let refuse := fun (f : LoadFault) => Failure.error (.configuration f.message)
  let entries := (← (fileEntries files path).mapError refuse) ++ ofEnvironment environment
  if entries.any fun e => leadsTooFar e.1 then throw (.overflow .memory)
  let config ← ((ofSetting (ofEntries entries)).mapError .setting).mapError refuse
  config.check.mapError .error
  return config

end Config

end Bourse
