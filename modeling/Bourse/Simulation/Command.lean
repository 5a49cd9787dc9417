/-
What a simulation can be told to do, and what it answers.

Some commands go to the service in charge, as an owner of orders would; the others reach
behind it, to the store, the index, the executor and the faults.
-/
import Bourse.Config.Address
import Bourse.Config.Room
import Bourse.Reconciliation
import Bourse.Service
import Bourse.Simulation.Time

namespace Bourse.Simulation

/-- A fill between two orders on record, with what is to be changed about it. -/
structure FillCommand where
  incoming : OrderId
  counter : OrderId
  amount : Decimal
  price : Decimal
  time : Instant
  /-- Are the orders to be committed as they were loaded? -/
  raw : Bool
  /-- Changes the incoming order before it is committed. -/
  reviseIncoming : Order → Order
  /-- Changes the counter order before it is committed. -/
  reviseCounter : Order → Order
  incomingExpected : Option Decimal
  counterExpected : Option Decimal

/-- A command. -/
inductive Command
  | submit (request : OrderRequest)
  | cancel (id : OrderId)
  | get (id : OrderId)
  | executions (id : OrderId)
  | metrics
  | tick
  | recover
  | start
  | shutdown
  | sleep (ms : Nat)
  | subscribe
  | drain (subscription : Nat)
  | spawnTick
  | joinTick
  | restart
  | market (isOpen : Bool)
  | gate (on : Bool)
  | release
  | indexFail (labels : List String)
  | storeFail (labels : List String)
  | poison (ids : List OrderId)
  | beforeCommit (calls : List (List Interference))
  | indexCalls
  | notifyFail (on : Bool)
  | notified
  | store (c : StoreCall)
  | allExecutions
  | fill (c : FillCommand)
  | migrate
  | index (c : IndexCall)
  | process (id : OrderId) (ticker : String)
  | executorMetrics
  | state

/-- The orders waiting on both sides of a ticker. -/
structure WaitingIds where
  ticker : String
  buys : List OrderId
  sells : List OrderId
deriving Inhabited

/-- What a command is answered with. -/
inductive Reply
  | nothing
  | order (o : Order)
  | orders (os : List Order)
  | executions (es : List Execution)
  | metrics (m : Metrics)
  | outcome (o : TickOutcome)
  | reconciliation (r : Reconciliation)
  | number (n : Nat)
  | flag (b : Bool)
  | ids (ids : List OrderId)
  | texts (ts : List String)
  /-- The events a subscriber gets, after the number it lost, and whether it was the end. -/
  | events (lost : Nat) (es : List FillEvent) (ended : Bool)
  | fill (o : FillOutcome)
  | report (r : MatchReport) (executedAmount : Decimal)
  | state (orders : List Order) (executions : List Execution) (waiting : List WaitingIds)
  | failed (f : Failure)
  | timeout
  | unknown

namespace State

/-- The calendar of a service that is to have all its backends by itself. -/
def calendarFor (config : Config) : Except Error Calendar := do
  if let some f := config.addressFault? then throw f.error
  -- An address that could be used leads to no database.
  if config.usesDatabase then throw .storeTimedOut
  Calendar.ofMarketHours config.marketHours

/--
A simulation over empty backends of a kind, with a switch for the market, or else of a
service by itself.
-/
def start (config : Config) (backing : Option Backing) (clock : Instant) :
    Except Failure State := do
  config.check.mapError .error
  let calendar ← if backing.isSome then pure none
    else ((calendarFor config).mapError .error).map some
  if let some o := config.overflow? then throw (.overflow o)
  return {
    config := config
    world := {
      backing := backing.getD .memory
      store := .empty
      index := .empty
      faults := .none
      indexCalls := 0
      services := [.fresh config.matching.eventCapacity]
      executor := .fresh 1
      refuses := false
      calendar
      marketSwitch := true
      clock }
    time := 0
    loops := []
    tasks := []
    nextTask := 0
    subscriptions := []
    notified := 0 }

/-- The reply to a failure, or to a result by `f`. -/
def replyOf {α : Type} (f : α → Reply) : Except Failure α → Reply
  | .ok a => f a
  | .error e => .failed e

/--
Runs work at a site to its end and answers with its result.  Work that has to wait is
given up when patience ends, and the tick it had begun, if it had, ends with it.
-/
def perform {α : Type} (s : State) (site : Site) (work : Action α) (f : α → Reply) :
    Reply × State :=
  match s.world.advance site work with
  | (.ended result, world) => (replyOf f result, { s with world })
  | (.waiting .., world) =>
    let began := !(s.world.desk site).ticking && (world.desk site).ticking
    let s := { s with world }.elapse patience
    let world := if began then s.world.atDesk site fun d => { d with ticking := false } else s.world
    (.timeout, { s with world })

/-- Runs work at the service in charge. -/
def serve {α : Type} (s : State) (work : Action α) (f : α → Reply) : Reply × State :=
  s.perform (.service s.current) work f

/-- Changes the faults. -/
def withFaults (s : State) (f : Faults → Faults) : State :=
  { s with world := { s.world with faults := f s.world.faults } }

/-- The reply to a call on the store. -/
def storeReply : (c : StoreCall) → c.Answer → Reply
  | .insert .., o => .order o
  | .load _, some o => .order o
  | .load _, none => .nothing
  | .loadMany _, os => .orders os
  | .commit _, o => .fill o
  | .cancel .., some o => .order o
  | .cancel .., none => .nothing
  | .executions _, es => .executions es
  | .live, os => .orders os

/-- The reply to a call on the index. -/
def indexReply : (c : IndexCall) → c.Answer → Reply
  | .enqueue .., _ => .nothing
  | .list .., ids => .ids ids
  | .remove .., b => .flag b
  | .tickers, ts => .texts ts
  | .size .., n => .number n

/-! ### Commands of some length -/

/-- Reconciles, and starts the loop of the service in charge unless it has one. -/
def startLoop (s : State) : Reply × State :=
  match s.serve reconcile .reconciliation with
  | (.reconciliation r, s) =>
    if s.loops.any (·.service == s.current) then (.reconciliation r, s)
    else (.reconciliation r, { s with loops := s.loops ++ [⟨s.current, s.time, none⟩] })
  | other => other

/-- Ends the loop of the service in charge once its tick, and any other, has ended. -/
def shutdown (s : State) : Reply × State :=
  match s.loops.find? (·.service == s.current) with
  | none => (.nothing, s)
  | some l =>
    let s := { s with loops := s.loops.filter (·.service != l.service) }
    let waits := s.tasks.any fun t => some t.number == l.last && t.waits
    if waits || (s.world.desk (.service l.service)).ticking then (.timeout, s.elapse patience)
    else (.nothing, s)

/-- The events of a subscription since it was drained last. -/
def drain (s : State) (subscription : Nat) : Reply × State :=
  match s.subscriptions[subscription]? with
  | none => (.unknown, s)
  | some (service, place) =>
    let feed := (s.world.desk (.service service)).feed
    let ended := !s.held service && !s.loops.any (·.service == service) &&
      !s.tasks.any fun t => t.service == service && t.waits
    (.events (feed.lost place) (feed.since place) ended,
      { s with subscriptions := s.subscriptions.set subscription (service, feed.tail) })

/-- Waits for the oldest background tick that was asked for. -/
def joinTick (s : State) : Reply × State :=
  match s.tasks.find? Task.owed with
  | none => (.unknown, s)
  | some t =>
    match t.progress with
    | .ended result =>
      (replyOf .outcome result, { s with tasks := s.tasks.filter (·.number != t.number) })
    | .waiting .. =>
      let s := s.elapse patience
      (.timeout, { s with tasks := s.tasks.map fun x =>
        if x.number = t.number then { x with forgotten := true } else x })

/-- A new service takes charge. -/
def restart (s : State) : State :=
  let desk := Desk.fresh s.config.matching.eventCapacity
  { s with world := { s.world with services := s.world.services ++ [desk] } }

/-- Commits a fill between two orders, which are loaded past the faults. -/
def fillOrders (s : State) (c : FillCommand) : Reply × State :=
  let loaded := do return (← s.world.loadRaw c.incoming, ← s.world.loadRaw c.counter)
  let leg := fun (o : Order) =>
    if c.raw then Except.ok o
    else match o.fill c.amount c.price 2 c.time with
      | .ok o => .ok o
      | .error f => .error (f.error o.id)
  let prepared : Except Error FillCommit := do
    let (incoming, counter) ← loaded
    let incomingAfter ← leg incoming
    let counterAfter ← leg counter
    return {
      incoming := c.reviseIncoming incomingAfter
      counter := c.reviseCounter counterAfter
      incomingExpected := c.incomingExpected.getD incoming.remainingAmount
      counterExpected := c.counterExpected.getD counter.remainingAmount
      price := c.price
      amount := c.amount
      executedAt := c.time }
  match prepared with
  | .error e => (.failed (.error e), s)
  | .ok fill => s.perform .executor (Action.store (.commit fill)) .fill

/-- The store and the index as they are, past the faults. -/
def snapshot (s : State) : Reply :=
  let waiting := fun side ticker => match (s.world.indexCall (.list side ticker)).1 with
    | .ok ids => ids
    | .error _ => []
  match (s.world.indexCall .tickers).1 with
  | .error e => .failed (.error e)
  | .ok tickers =>
    .state s.world.store.orders s.world.store.executions
      (tickers.map fun t => ⟨t, waiting .buy t, waiting .sell t⟩)

/-- Carries out a command. -/
def obey (s : State) : Command → Reply × State
  | .submit request => s.serve (submit s.config.matching.tradable request) .order
  | .cancel id => s.serve (Bourse.cancel id) .order
  | .get id => s.serve (findOrder id) .order
  | .executions id => s.serve (executionsOf id) .executions
  | .metrics => (.metrics (s.world.desk (.service s.current)).metrics, s)
  | .tick => s.serve s.tickWork .outcome
  | .recover => s.serve reconcile .reconciliation
  | .start => s.startLoop
  | .shutdown => s.shutdown
  | .sleep ms => (.nothing, s.elapse ms)
  | .subscribe =>
    let place := (s.world.desk (.service s.current)).feed.tail
    (.number s.subscriptions.length,
      { s with subscriptions := s.subscriptions ++ [(s.current, place)] })
  | .drain subscription => s.drain subscription
  | .spawnTick =>
    (.number (s.tasks.filter Task.owed).length, (s.startTick s.current true).elapse 1)
  | .joinTick => s.joinTick
  | .restart => (.nothing, s.restart)
  | .market isOpen => (.nothing, { s with world := { s.world with marketSwitch := isOpen } })
  | .gate on => (.nothing, s.withFaults fun f => { f with gated := on })
  | .release => (.nothing, s.release.elapse 1)
  | .indexFail labels => (.nothing, s.withFaults fun f => { f with index := labels })
  | .storeFail labels => (.nothing, s.withFaults fun f => { f with store := labels })
  | .poison ids => (.nothing, s.withFaults fun f => { f with poisoned := ids })
  | .beforeCommit calls =>
    (.nothing, s.withFaults fun f => { f with beforeCommit := f.beforeCommit ++ calls })
  | .indexCalls => (.number s.world.indexCalls, s)
  | .notifyFail on => (.nothing, { s with world := { s.world with refuses := on } })
  | .notified =>
    let events := s.world.executor.feed.events
    (.events 0 (events.drop s.notified) false, { s with notified := events.length })
  | .store c => s.perform .executor (Action.store c) (storeReply c)
  | .allExecutions => (.executions s.world.store.executions, s)
  | .fill c => s.fillOrders c
  | .migrate =>
    match s.world.backing with
    | .closed => (.failed (.error (.store closedText)), s)
    | .memory => (.unknown, s)
  | .index c => s.perform .executor (Action.index c) (indexReply c)
  | .process id ticker =>
    s.perform .executor (do
      let report ← processOrder s.config.matching.priceScale id ticker
      let amount ← Action.total .addition report.executedAmount
      return (report, amount)) fun (report, amount) => .report report amount
  | .executorMetrics => (.metrics s.world.executor.metrics, s)
  | .state => (s.snapshot, s)

/-- Carries out commands one after the other. -/
def obeyAll : List Command → State → List Reply
  | [], _ => []
  | c :: cs, s =>
    let (reply, s) := s.obey c
    reply :: obeyAll cs s

end State

end Bourse.Simulation
