/-
The command: it looks at the world, launches the service and lets it tick until a signal
stops it.
-/
import Bourse.CommandLine.Program
import Std.Async.Signal
import Std.Internal.UV.System
import Std.Time

namespace Bourse.Main

open Bourse.CommandLine

/-- What the clock shows. -/
def now : IO Instant := do
  let time ← Std.Time.Timestamp.now
  return (Instant.ofNanoseconds? time.toNanosecondsSinceUnixEpoch.val).getD .epoch

/-- The text of a file, if it can be read. -/
def readFile? (path : String) : IO (Option String) := do
  try return some (← IO.FS.readFile path)
  catch _ => return none

/-- The texts of the files that the arguments may mean. -/
def readFiles (arguments : List String) : IO (List (String × String)) := do
  match Request.ofArguments arguments with
  | .ok (.run (some path)) =>
    let texts ← (Config.documentPaths path).mapM fun p => do return (p, ← readFile? p)
    return texts.filterMap fun (p, text) => text.map fun text => (p, text)
  | _ => return []

/-- What the command is given. -/
def invocation (arguments : List String) : IO Invocation := do
  let environment ← Std.Internal.UV.System.osEnviron
  let texts ← readFiles arguments
  return ⟨arguments, environment.toList, fun path => texts.lookup path, ← now⟩

/-- Writes lines of the log. -/
def write (log : List LogLine) : IO Unit := do
  for line in log do
    IO.println s!"INFO {logTarget}: {line.text}"

/-- Waits for a signal and ticks whenever a tick is due. -/
partial def serve (config : Config) (received : Signal → IO Bool) (due : Nat)
    (service : Exchange) : IO (Signal × Exchange) := do
  if ← received .interrupt then return (.interrupt, service)
  if ← received .terminate then return (.terminate, service)
  let time ← IO.monoMsNow
  if time < due then
    IO.sleep (min 20 (due - time)).toUInt32
    serve config received due service
  else
    let service := tickOnce config { service with clock := ← now }
    serve config received (due + config.scheduler.tickIntervalMs) service

/-- Launches the command and stays with it to its end. -/
def run (arguments : List String) : IO UInt32 := do
  let i ← invocation arguments
  let tell := fun log => write (shown i.environment log)
  match launch i with
  | .ended log exit =>
    tell log
    IO.print exit.output
    IO.eprint exit.errors
    return exit.code.toUInt32
  | .running log config service =>
    let interrupted ← (← Std.Async.Signal.Waiter.mk .sigint false).wait
    let terminated ← (← Std.Async.Signal.Waiter.mk .sigterm false).wait
    tell log
    let received : Signal → IO Bool
      | .interrupt => IO.hasFinished interrupted
      | .terminate => IO.hasFinished terminated
    let (signal, service) ← serve config received (← IO.monoMsNow) service
    tell (shutdown signal service)
    return 0

end Bourse.Main

/-- The command. -/
def main (arguments : List String) : IO UInt32 := Bourse.Main.run arguments
