/-
What an order may ask for, and how its status may move.
-/
import Bourse.Order.Basic

namespace Bourse

/-- May an order go from one status to the other?  A further partial fill keeps it partly filled. -/
def OrderStatus.canBecome : OrderStatus → OrderStatus → Bool
  | .live, .partlyFilled | .live, .filled | .live, .cancelled => true
  | .partlyFilled, .partlyFilled | .partlyFilled, .filled | .partlyFilled, .cancelled => true
  | _, _ => false

/-- Nothing leaves a terminal status. -/
theorem OrderStatus.canBecome_of_terminal {s t : OrderStatus} (h : s.terminal = true) :
    s.canBecome t = false := by
  cases s <;> simp_all [terminal, canBecome]

/-- The error of a move that is not allowed. -/
def Order.refusedMove (o : Order) (target : OrderStatus) : Error :=
  .invalidTransition o.id o.status.word target.word

/-- Allows an order's move to another status, or refuses it. -/
def Order.checkMove (o : Order) (target : OrderStatus) : Except Error Unit :=
  if o.status.canBecome target then .ok () else .error (o.refusedMove target)

/--
Allows a request, or refuses it.  An empty list of tradable tickers admits every
ticker.
-/
def OrderRequest.check (r : OrderRequest) (tradable : List String) : Except Error Unit :=
  if (Text.dropBlanks r.ticker.toList).isEmpty then .error (.invalidOrder "ticker is required")
  else if !tradable.isEmpty && !tradable.contains r.ticker then
    .error (.invalidOrder s!"ticker {r.ticker} is not tradable")
  else if !r.amount.positive then .error (.invalidOrder "order amount must be positive")
  else if !r.price.positive then .error (.invalidOrder "limit price must be positive")
  else .ok ()

end Bourse
