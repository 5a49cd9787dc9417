/-
A store, an index and those who work with them, with faults in between.

Several services may have come and gone over the same store and index, and a matching
executor of its own works over them too, each from a desk of its own.
-/
import Bourse.Action
import Bourse.Calendar
import Bourse.Desk
import Bourse.Order.Fill
import Bourse.Simulation.Faults

namespace Bourse.Simulation

/-- How the store and the index are kept. -/
inductive Backing
  | memory
  /-- In a database whose connection has been closed. -/
  | closed
deriving DecidableEq, Inhabited

/-- Everything but the passing of time. -/
structure World where
  backing : Backing
  store : Store
  index : WaitingIndex
  faults : Faults
  /-- How many index calls there were. -/
  indexCalls : Nat
  /-- The services, the one in charge last. -/
  services : List Desk
  executor : Desk
  /-- Does the executor's audience refuse events? -/
  refuses : Bool
  /-- Decides when the market is open, unless a switch does. -/
  calendar : Option Calendar
  marketSwitch : Bool
  /-- What the clock shows. -/
  clock : Instant
deriving Inhabited

/-- Whose work a call is part of. -/
inductive Site
  | service (n : Nat)
  | executor
deriving DecidableEq, Inhabited

namespace World

/-- The desk at a site. -/
def desk (w : World) : Site → Desk
  | .service n => w.services.getD n default
  | .executor => w.executor

/-- Changes the desk at a site. -/
def atDesk (w : World) (site : Site) (f : Desk → Desk) : World :=
  match site with
  | .service n => { w with services := w.services.modify n f }
  | .executor => { w with executor := f w.executor }

/-! ### The store and the index, without faults -/

/-- A call on the store as it is kept; a closed connection still loads no orders at all. -/
def storeCall (w : World) (c : StoreCall) : Except Error c.Answer × World :=
  match w.backing with
  | .memory =>
    let (a, store) := w.store.perform c
    (.ok a, { w with store })
  | .closed =>
    match c with
    | .loadMany [] => (.ok [], w)
    | _ => (.error (.store closedText), w)

/-- A call on the index as it is kept. -/
def indexCall (w : World) (c : IndexCall) : Except Error c.Answer × World :=
  match w.backing with
  | .memory =>
    let (a, index) := w.index.perform c
    (.ok a, { w with index })
  | .closed => (.error (.indexUnavailable closedText), w)

/-- The order of an identifier, past the faults. -/
def loadRaw (w : World) (id : OrderId) : Except Error Order :=
  match (w.storeCall (.load id)).1 with
  | .ok (some o) => .ok o
  | .ok none => .error (.orderNotFound id)
  | .error e => .error e

/-! ### Faults -/

/-- When interference takes place: at midnight of 2000-01-01. -/
def interferenceTime : Instant := { Instant.epoch with day := 10957, day_mem := by decide }

/-- One fill between two orders as they are on record. -/
def fillNow (w : World) (incoming counter : OrderId) (amount price : Decimal) (time : Instant) :
    Except Error FillCommit := do
  let incoming ← w.loadRaw incoming
  let counter ← w.loadRaw counter
  let leg := fun (o : Order) => match o.fill amount price 2 time with
    | .ok o => Except.ok o
    | .error f => .error (f.error o.id)
  let incomingAfter ← leg incoming
  let counterAfter ← leg counter
  return {
    incoming := incomingAfter
    counter := counterAfter
    incomingExpected := incoming.remainingAmount
    counterExpected := counter.remainingAmount
    price, amount
    executedAt := time }

/-- Lets something happen. -/
def interfere (w : World) : Interference → Except Error World
  | .fail => .error .storeTimedOut
  | .cancel id =>
    match w.storeCall (.cancel id interferenceTime) with
    | (.ok _, w) => .ok w
    | (.error e, _) => .error e
  | .fill incoming counter amount price => do
    let fill ← w.fillNow incoming counter amount price interferenceTime
    match w.storeCall (.commit fill) with
    | (.ok _, w) => .ok w
    | (.error e, _) => .error e

/-- Lets several things happen, up to one that fails; what happened before it stays. -/
def interfereAll (w : World) : List Interference → Option Error × World
  | [] => (none, w)
  | i :: is =>
    match w.interfere i with
    | .ok w => w.interfereAll is
    | .error e => (some e, w)

/-- A call on the store that faults may hit. -/
def faultyStoreCall (w : World) (c : StoreCall) : Except Error c.Answer × World :=
  if w.faults.hitsStore c then (.error .storeTimedOut, w)
  else match c with
    | .cancel id time =>
      if w.faults.store.contains "cancel_noop" then (.ok none, w)
      else w.storeCall (.cancel id time)
    | .commit fill =>
      let w' := { w with
        faults := { w.faults with beforeCommit := w.faults.beforeCommit.tail } }
      match w'.interfereAll (w.faults.beforeCommit.headD []) with
      | (some e, w) => (.error e, w)
      | (none, w) => w.storeCall (.commit fill)
    | c => w.storeCall c

/-- A call on the index that faults may hit; listing the tickers may get no answer yet. -/
def faultyIndexCall (w : World) (c : IndexCall) : Option (Except Error c.Answer) × World :=
  let w := { w with indexCalls := w.indexCalls + 1 }
  if w.faults.hitsIndex c then (some (.error indexOutage), w)
  else match c with
    | .tickers =>
      if w.faults.gated && !w.faults.released then (none, w)
      else
        let w := if w.faults.gated then { w with faults := { w.faults with released := false } }
          else w
        let (a, w) := w.indexCall .tickers
        (some a, w)
    | c =>
      let (a, w) := w.indexCall c
      (some a, w)

/-! ### Calls from a desk -/

/-- Is the market open? -/
def open? (w : World) (time : Instant) : Bool :=
  match w.calendar with
  | some c => c.isOpen time
  | none => w.marketSwitch

/-- Answers a call made from a desk, if it can be answered yet. -/
def answer (site : Site) (c : Call) (w : World) : Option c.Answer × World :=
  match c with
  | .store c =>
    let (a, w) := w.faultyStoreCall c
    (some a, w)
  | .index c => w.faultyIndexCall c
  | .notify e =>
    if site = .executor ∧ w.refuses then (some false, w)
    else (some true, w.atDesk site (·.send e))
  | .now => (some w.clock, w)
  | .marketOpen time => (some (w.open? time), w)
  | .beginTick =>
    if (w.desk site).ticking then (some false, w)
    else (some true, w.atDesk site fun d => { d with ticking := true })
  | .endTick => (some (), w.atDesk site fun d => { d with ticking := false })
  | .count c => (some (), w.atDesk site (·.count c))
  | .recordFill amount completed =>
    (some (), w.atDesk site (·.recordFill amount completed))

/-- Runs work from a desk until it ends or has to wait. -/
def advance {α : Type} (w : World) (site : Site) (work : Action α) : Action.Progress α × World :=
  work.advance (answer site) w

end World

end Bourse.Simulation
