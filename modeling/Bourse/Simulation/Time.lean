/-
Virtual time.

Time stands still while work is done and passes only when it is told to.  As it passes,
the matching loops that are running tick when they are due, and so does a loop that has
just been started.  A tick may have to wait in the middle for its listing of tickers to be
let go; the ticks that come due meanwhile find it running.
-/
import Bourse.Simulation.World
import Bourse.Tick

namespace Bourse.Simulation

/-- A matching loop. -/
structure Loop where
  /-- The service it belongs to. -/
  service : Nat
  /-- When it ticks next. -/
  due : Nat
  /-- The number of its last tick. -/
  last : Option Nat
deriving Inhabited

/-- A tick that was started in the background. -/
structure Task where
  number : Nat
  service : Nat
  /-- Was it asked for by itself, and not by a loop? -/
  spawned : Bool
  /-- Has waiting for it been given up?  It goes on all the same. -/
  forgotten : Bool
  progress : Action.Progress TickOutcome

/-- Is a task still to be asked after? -/
def Task.owed (t : Task) : Bool := t.spawned && !t.forgotten

/-- Has a task to wait? -/
def Task.waits (t : Task) : Bool :=
  match t.progress with
  | .waiting .. => true
  | .ended _ => false

/-- Everything there is to know between two commands. -/
structure State where
  config : Config
  world : World
  /-- The milliseconds that have passed. -/
  time : Nat
  loops : List Loop
  /-- Background ticks that are waiting, or are still to be asked after, the oldest first. -/
  tasks : List Task
  /-- The number of the next background tick. -/
  nextTask : Nat
  /-- The service that each subscription belongs to, and its place in the feed. -/
  subscriptions : List (Nat × Nat)
  /-- The place in the feed of the executor up to which it has been read. -/
  notified : Nat

namespace State

/-- How long a command waits before it is given up, in milliseconds. -/
def patience : Nat := 10000

/-- The service in charge. -/
def current (s : State) : Nat := s.world.services.length - 1

/-- The work of one tick. -/
def tickWork (s : State) : Action TickOutcome := tick s.config.matching.priceScale

/-- Starts a tick in the background; one of a loop is forgotten once it has ended. -/
def startTick (s : State) (service : Nat) (spawned : Bool) : State :=
  let (progress, world) := s.world.advance (.service service) s.tickWork
  let t : Task := ⟨s.nextTask, service, spawned, false, progress⟩
  { s with
    world
    tasks := if spawned || t.waits then s.tasks ++ [t] else s.tasks
    nextTask := s.nextTask + 1 }

/-- Is a service still in someone's hands? -/
def held (s : State) (service : Nat) : Bool :=
  service == s.current || s.tasks.any fun t => t.spawned && t.service == service && t.waits

/-- Ends the loops of services that nobody holds any more. -/
def endLoops (s : State) : State := { s with loops := s.loops.filter fun l => s.held l.service }

/-- Lets a loop tick at the time it is due. -/
def fire (s : State) (l : Loop) : State :=
  let after : Loop := { l with
    due := l.due + s.config.scheduler.tickIntervalMs, last := some s.nextTask }
  { s with
    time := max s.time l.due
    loops := s.loops.map fun (x : Loop) => if x.service = l.service then after else x }.startTick
      l.service false

/-- The loop that is due first, if one is by `target`. -/
def dueBy (s : State) (target : Nat) : Option Loop :=
  (s.loops.filter (·.due ≤ target)).foldl (fun best l => match best with
    | some b => if l.due < b.due then some l else some b
    | none => some l) none

/-- Lets everything happen that is due by `target`, at most `fuel` ticks of it. -/
def runDue (target : Nat) : Nat → State → State
  | 0, s => s
  | fuel + 1, s =>
    match s.dueBy target with
    | some l => runDue target fuel (s.fire l)
    | none => s

/-- Drops the ticks that have ended and that nobody will ask after. -/
def tidy (s : State) : State :=
  { s with tasks := s.tasks.filter fun t => t.waits || t.owed }

/--
Lets time pass.  A loop that is due ticks and is due again a millisecond later or more, so
each of them ticks at most once for every millisecond and once more.
-/
def elapse (s : State) (ms : Nat) : State :=
  let s := s.endLoops
  let target := s.time + ms
  let s := runDue target (s.loops.length * (ms + 1)) s
  { s.tidy with time := target }

/-- Lets the listing that has waited longest go on, or the next one if none waits. -/
def release (s : State) : State :=
  match s.tasks.find? Task.waits with
  | none =>
    let faults := { s.world.faults with released := true }
    { s with world := { s.world with faults } }
  | some t =>
    match t.progress with
    | .waiting (.index .tickers) rest =>
      let (a, world) := s.world.indexCall .tickers
      let (progress, world) := world.advance (.service t.service) (rest a)
      { s with
        world
        tasks := s.tasks.map fun x => if x.number = t.number then { t with progress } else x }
    | _ => s

end State

end Bourse.Simulation
