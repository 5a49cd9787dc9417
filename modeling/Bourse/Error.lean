/-
What can go wrong, as causes, and the wording of each.

An error is an answer to whoever asked.  A fault in the arithmetic of a total is not: it
ends the piece of work it happens in, and `Failure` holds the two side by side.
-/

namespace Bourse

/-- Why an operation was refused or could not be carried out. -/
inductive Error
  | orderNotFound (id : Int)
  | invalidOrder (reason : String)
  | invalidTransition (id : Int) (source target : String)
  | arithmetic (id : Int) (details : String)
  | indexUnavailable (details : String)
  | store (details : String)
  | configuration (message : String)
deriving DecidableEq, Inhabited

namespace Error

/-- The name of the kind of error. -/
def kind : Error → String
  | orderNotFound _ => "OrderNotFound"
  | invalidOrder _ => "InvalidOrder"
  | invalidTransition _ _ _ => "InvalidTransition"
  | arithmetic _ _ => "Arithmetic"
  | indexUnavailable _ => "IndexUnavailable"
  | store _ => "Store"
  | configuration _ => "Configuration"

/-- The wording of an error. -/
def message : Error → String
  | orderNotFound id => s!"Order not found: {id}"
  | invalidOrder reason => s!"Invalid order: {reason}"
  | invalidTransition id source target => s!"Order {id} cannot move from {source} to {target}"
  | arithmetic id details => s!"Arithmetic error on order {id}: {details}"
  | indexUnavailable details => s!"Waiting-order index unavailable: {details}"
  | store details => s!"Store error: {details}"
  | configuration message => s!"Configuration error: {message}"

/-- Is it worth trying the same work again later? -/
def retryable : Error → Bool
  | indexUnavailable _ => true
  | store _ => true
  | _ => false

/-- The wording of a store that answers too late. -/
def timeoutText : String := "pool timed out while waiting for an open connection"

/-- The failure of a store that answers too late. -/
def storeTimedOut : Error := store timeoutText

end Error

/-- What found no room for its result. -/
inductive Overflow
  /-- An addition to a total. -/
  | addition
  /-- A subtraction from a total. -/
  | subtraction
  /-- A day on the exchange's clock, beyond the days that can be told. -/
  | localTime
  /-- The permits for tickers that are worked on side by side. -/
  | permits
  /-- The places for events, more than can be counted. -/
  | places
  /-- What is kept in memory, if it is more than any memory holds. -/
  | memory
deriving DecidableEq, Inhabited

/-- The wording of an overflow. -/
def Overflow.message : Overflow → String
  | addition => "Addition overflowed"
  | subtraction => "Subtraction overflowed"
  | localTime => "Local time out of range for `NaiveDateTime`"
  | permits => "a semaphore may not have more than MAX_PERMITS permits (2305843009213693951)"
  | places => "broadcast channel capacity exceeded `usize::MAX / 2`"
  | memory => "capacity overflow"

/-- Why a piece of work ended early. -/
inductive Failure
  | error (e : Error)
  | overflow (o : Overflow)
deriving DecidableEq, Inhabited

end Bourse
