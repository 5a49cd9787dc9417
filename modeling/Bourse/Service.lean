/-
What an owner of orders can ask for: to place one, to cancel one, and to look.

An order is on record before it is indexed and is not matchable before it leaves the
index, so that no call in between can lose it.
-/
import Bourse.Action
import Bourse.Order.Lifecycle

namespace Bourse

/--
Accepts a new limit order and makes it visible to matching.  An order that cannot be
indexed would never be matched, so it is withdrawn.
-/
def submit (tradable : List String) (request : OrderRequest) : Action Order := do
  Action.ofExcept (request.check tradable)
  let createdAt ← Action.now
  let order ← Action.store (.insert request createdAt)
  match ← (Action.index (.enqueue order.side order.ticker order.id order.price)).attemptError with
  | .ok () =>
    Action.count .submitted
    return order
  | .error e =>
    let time ← Action.now
    let _ ← (Action.store (.cancel order.id time)).attempt
    Action.refuse e

/-- Cancels a live order.  An entry that cannot be taken out is left for matching to drop. -/
def cancel (id : OrderId) : Action Order := do
  let time ← Action.now
  match ← Action.store (.cancel id time) with
  | some order =>
    let _ ← (Action.index (.remove order.side order.ticker order.id)).attempt
    Action.count .cancelled
    return order
  | none =>
    match ← Action.store (.load id) with
    | none => Action.refuse (.orderNotFound id)
    | some current =>
      Action.ofExcept (current.checkMove .cancelled)
      -- It could have been cancelled when it was read, but not just before.
      Action.refuse (current.refusedMove .cancelled)

/-- An order as it is on record. -/
def findOrder (id : OrderId) : Action Order := do
  match ← Action.store (.load id) with
  | some order => return order
  | none => Action.refuse (.orderNotFound id)

/-- The executions of an order, oldest first. -/
def executionsOf (id : OrderId) : Action (List Execution) := Action.store (.executions id)

end Bourse
