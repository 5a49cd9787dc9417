/-
Calls that fail on purpose.

A call has labels, from the kind of call alone to the side and ticker it is about, and an
outage lists the labels of calls that fail.  Besides, an order can be made unreadable,
and something can be arranged to happen just before a fill is committed.
-/
import Bourse.Store.Basic
import Bourse.Index.Basic

namespace Bourse

/-- The labels of a call about one side of one ticker. -/
def bookLabels (kind : String) (side : Side) (ticker : String) : List String :=
  [kind, kind ++ ":" ++ side.word, kind ++ ":" ++ side.word ++ ":" ++ ticker]

/-- The labels by which an outage can name a call on the index. -/
def IndexCall.labels : IndexCall → List String
  | enqueue side ticker _ _ => bookLabels "enqueue" side ticker
  | list side ticker => bookLabels "list" side ticker
  | remove side ticker _ => bookLabels "remove" side ticker
  | tickers => ["tickers"]
  | size side ticker => bookLabels "len" side ticker

/-- The label by which an outage can name a call on the store. -/
def StoreCall.label : StoreCall → String
  | insert .. => "insert"
  | load _ => "load"
  | loadMany _ => "load_many"
  | commit _ => "commit"
  | cancel .. => "cancel"
  | executions _ => "executions"
  | live => "live"

namespace Simulation

/-- What can be arranged to happen just before a fill is committed. -/
inductive Interference
  | cancel (id : OrderId)
  | fill (incoming counter : OrderId) (amount price : Decimal)
  | fail
deriving Inhabited

/-- The faults that hold from now on. -/
structure Faults where
  /-- Labels of index calls that fail. -/
  index : List String
  /-- Labels of store calls that fail. -/
  store : List String
  /-- Orders that cannot be loaded singly. -/
  poisoned : List OrderId
  /-- What happens before each of the next commits. -/
  beforeCommit : List (List Interference)
  /-- Does listing the tickers wait to be let go? -/
  gated : Bool
  /-- Has one listing been let go before it came? -/
  released : Bool
deriving Inhabited

/-- No faults. -/
def Faults.none : Faults := ⟨[], [], [], [], false, false⟩

/-- The failure of an index that is out. -/
def indexOutage : Error := .indexUnavailable "injected outage"

/-- The wording of a connection that has been closed. -/
def closedText : String := "attempted to acquire a connection on a closed pool"

/-- Does the call fail by one of its labels? -/
def Faults.hitsIndex (f : Faults) (c : IndexCall) : Bool := c.labels.any f.index.contains

/-- Does the call fail by its label, or for the order it is about? -/
def Faults.hitsStore (f : Faults) (c : StoreCall) : Bool :=
  f.store.contains c.label || match c with
    | .load id => f.poisoned.contains id
    | _ => false

end Simulation

end Bourse
