/-
What the command does, from its arguments to its end.

A launch ends at once, with help, a mistake in the arguments or an error, or it leaves a
service running.  That service ticks until a signal stops it.
-/
import Bourse.CommandLine.Arguments
import Bourse.CommandLine.LogFilter
import Bourse.Config.Address
import Bourse.Config.Load
import Bourse.Exchange
import Bourse.Json.Printer
import Bourse.Reconciliation
import Bourse.Tick
import Bourse.Wire.Report

namespace Bourse.CommandLine

/-- What stops a running service. -/
inductive Signal
  | interrupt
  | terminate
deriving DecidableEq, Inhabited

/-- The name of a signal in messages. -/
def Signal.name : Signal → String
  | interrupt => "Ctrl+C"
  | terminate => "SIGTERM"

/-! ### The log -/

/-- A line of the log; each of them informs. -/
inductive LogLine
  | starting
  | configurationLoaded (config : Config)
  | initializing (config : Config)
  | matchingStarted (r : Reconciliation)
  | signalled (s : Signal)
  | stopped
  | finalMetrics (m : Metrics)
  | complete

/-- The version of the service. -/
def version : String := "0.1.0"

/-- What the lines of the log are about. -/
def logTarget : String := "order_matcher"

/-- Where orders are kept, in the words of the log. -/
def backendName (config : Config) : String :=
  if config.usesDatabase then "postgres" else "memory"

/-- The text of a line. -/
def LogLine.text : LogLine → String
  | starting => s!"Starting Order Matcher Service v{version}"
  | configurationLoaded c =>
    s!"Configuration loaded backend=\"{backendName c}\" " ++
      s!"tick_interval_ms={c.scheduler.tickIntervalMs} " ++
      s!"max_concurrent_tickers={c.scheduler.maxConcurrentTickers}"
  | initializing c =>
    "Initializing order matcher " ++ if c.usesDatabase then "on PostgreSQL" else "in memory"
  | matchingStarted r =>
    s!"Matching started live_orders={r.liveOrders} enqueued={r.enqueued} " ++
      s!"stale_removed={r.staleRemoved}"
  | signalled s => s!"Received {s.name}, initiating graceful shutdown"
  | stopped => "Order matcher stopped"
  | finalMetrics m => s!"Final metrics: {m.toJson.print}"
  | complete => "Order Matcher Service shutdown complete"

/-- The fields of a line. -/
def LogLine.fields : LogLine → List String
  | configurationLoaded _ => ["backend", "tick_interval_ms", "max_concurrent_tickers", "message"]
  | matchingStarted _ => ["live_orders", "enqueued", "stale_removed", "message"]
  | _ => ["message"]

/-- The filter of the log, out of the variable that holds it. -/
def logFilter (environment : List (String × String)) : LogFilter :=
  ((environment.lookup "RUST_LOG").bind LogFilter.ofText?).getD (.standard logTarget)

/-- The lines of the log that are let through. -/
def shown (environment : List (String × String)) (log : List LogLine) : List LogLine :=
  log.filter fun l => (logFilter environment).passes logTarget l.fields .info

/-! ### The end -/

/-- How the command ends: with a code and what it writes. -/
structure Exit where
  code : Nat
  output : String
  errors : String
deriving DecidableEq, Inhabited

namespace Exit

/-- An end without anything to complain about. -/
def success (output : String) : Exit := ⟨0, output, ""⟩

/-- The causes of an error, numbered if there are several. -/
def causes : List String → String
  | [] => ""
  | [cause] => "\n\nCaused by:\n    " ++ cause
  | many => "\n\nCaused by:" ++
    String.join (many.zipIdx.map fun (cause, n) => s!"\n    {n}: {cause}")

/-- An end with an error and its causes. -/
def failure (message : String) (because : List String) : Exit :=
  ⟨1, "", "Error: " ++ message ++ causes because ++ "\n"⟩

/-- An end because nothing is reached at a database's address. -/
def unreachable (config : Config) : Exit :=
  match config.addressFault? with
  | some f => failure f.error.message [f.context, f.message]
  | none => failure Error.storeTimedOut.message [Error.timeoutText]

/-- An end because work that was needed failed. -/
def ofFailure : Failure → Exit
  | .error e => failure e.message []
  | .overflow o => ⟨101, "", o.message ++ "\n"⟩

end Exit

/-! ### The run -/

/-- What a launch is given. -/
structure Invocation where
  arguments : List String
  environment : List (String × String)
  /-- The texts of files by their paths. -/
  files : String → Option String
  /-- What the clock shows. -/
  clock : Instant

/-- What comes of a launch, after the lines it logs. -/
inductive Launch
  | ended (log : List LogLine) (exit : Exit)
  | running (log : List LogLine) (config : Config) (service : Exchange)

/-- Starts a service in memory. -/
def start (config : Config) (clock : Instant) (log : List LogLine) : Launch :=
  match Exchange.start config clock with
  | .error f => .ended log (.ofFailure f)
  | .ok service =>
    match service.perform reconcile with
    | (.ok r, service) => .running (log ++ [.matchingStarted r]) config service
    | (.error f, _) => .ended log (.ofFailure f)

/-- Launches the command. -/
def launch (i : Invocation) : Launch :=
  match Request.ofArguments i.arguments with
  | .error f => .ended [] ⟨2, "", f.report⟩
  | .ok .help => .ended [] (.success helpText)
  | .ok (.run path) =>
    match Config.load i.files i.environment path with
    | .error (.error e) => .ended [.starting] (.failure ("Invalid configuration: " ++ e.message) [])
    | .error f => .ended [.starting] (.ofFailure f)
    | .ok config =>
      let log := [.starting, .configurationLoaded config, .initializing config]
      if config.usesDatabase then .ended log (.unreachable config)
      else start config i.clock log

/-- Lets a running service tick once. -/
def tickOnce (config : Config) (service : Exchange) : Exchange :=
  (service.perform (tick config.matching.priceScale)).2

/-- What a service logs when a signal stops it. -/
def shutdown (s : Signal) (service : Exchange) : List LogLine :=
  [.signalled s, .stopped, .finalMetrics service.desk.metrics, .complete]

end Bourse.CommandLine
