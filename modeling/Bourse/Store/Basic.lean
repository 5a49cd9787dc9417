/-
The order store: every order and every execution on record.

The store alone decides quantities and statuses.  A fill is committed whole or not at
all: both orders must still be as they were when the fill was worked out, which their
remaining amounts tell, and then two executions are appended and both orders replaced.

Orders are kept in the order of their identifiers, which are issued increasing.
-/
import Bourse.Order.Basic

namespace Bourse

/-- A fill worked out between two orders, to be committed. -/
structure FillCommit where
  /-- The incoming order after the fill. -/
  incoming : Order
  /-- The counter order after the fill. -/
  counter : Order
  /-- What remained of the incoming order when it was read. -/
  incomingExpected : Decimal
  /-- What remained of the counter order when it was read. -/
  counterExpected : Decimal
  price : Decimal
  amount : Decimal
  executedAt : Instant
deriving DecidableEq

/-- The two executions of a committed fill. -/
structure FillReceipt where
  incoming : Execution
  counter : Execution
deriving DecidableEq, Inhabited

/-- What became of a fill that was to be committed. -/
inductive FillOutcome
  | committed (receipt : FillReceipt)
  /-- The incoming order changed, or can no longer be matched. -/
  | incomingUnavailable
  /-- The counter order changed, or can no longer be matched. -/
  | counterUnavailable
deriving DecidableEq, Inhabited

/-- Orders, executions, and the identifiers to issue next. -/
structure Store where
  orders : List Order
  executions : List Execution
  nextOrderId : OrderId
  nextExecutionId : ExecutionId
  sorted : (orders.map (·.id)).Pairwise (· < ·)
  fresh : ∀ o ∈ orders, o.id < nextOrderId

namespace Store

/-- Nothing on record. -/
def empty : Store := ⟨[], [], 1, 1, by simp, by simp⟩

instance : Inhabited Store := ⟨empty⟩

/-- The order of this identifier. -/
def find? (s : Store) (id : OrderId) : Option Order := s.orders.find? (·.id == id)

/-- A new open order made of a request, and the store with it. -/
def insert (s : Store) (request : OrderRequest) (createdAt : Instant) : Order × Store :=
  let order := Order.ofRequest s.nextOrderId request createdAt
  (order,
    { s with
      orders := s.orders ++ [order]
      nextOrderId := s.nextOrderId + 1
      sorted := by
        simp only [List.map_append, List.map_cons, List.map_nil]
        refine List.pairwise_append.2 ⟨s.sorted, by simp, ?_⟩
        intro a ha b hb
        obtain ⟨o, ho, rfl⟩ := List.mem_map.1 ha
        rw [List.mem_singleton.1 hb]
        exact s.fresh o ho
      fresh := by
        intro o ho
        rcases List.mem_append.1 ho with h | h
        · exact Int.lt_trans (s.fresh o h) (Int.lt_succ _)
        · rw [List.mem_singleton.1 h]
          exact Int.lt_succ _ })

theorem map_id_replace (orders : List Order) (o : Order) :
    (orders.map fun x => if x.id = o.id then o else x).map (·.id) = orders.map (·.id) := by
  induction orders with
  | nil => rfl
  | cons x xs ih =>
    simp only [List.map_cons, ih]
    by_cases h : x.id = o.id <;> simp [h]

/-- The store with `o` in place of the order of the same identifier. -/
def replace (s : Store) (o : Order) : Store :=
  { s with
    orders := s.orders.map fun x => if x.id = o.id then o else x
    sorted := by rw [map_id_replace]; exact s.sorted
    fresh := by
      intro x hx
      have hmem : x.id ∈ s.orders.map (·.id) := by
        rw [← map_id_replace s.orders o]
        exact List.mem_map_of_mem hx
      obtain ⟨y, hy, hxy⟩ := List.mem_map.1 hmem
      rw [← hxy]
      exact s.fresh y hy }

/-- The store with one more execution, and that execution. -/
def record (s : Store) (order counterOrder : OrderId) (price amount : Decimal)
    (executedAt : Instant) : Execution × Store :=
  let execution : Execution :=
    { id := s.nextExecutionId, order, counterOrder, price, amount, executedAt }
  (execution,
    { s with executions := s.executions ++ [execution], nextExecutionId := s.nextExecutionId + 1 })

/-- Is the order of this identifier still matchable with this amount remaining? -/
def current (s : Store) (id : OrderId) (remaining : Decimal) : Bool :=
  match s.find? id with
  | some o => o.matchable && o.remainingAmount.same remaining
  | none => false

/-- Commits a fill if both of its orders are as they were expected. -/
def commit (s : Store) (fill : FillCommit) : FillOutcome × Store :=
  if !s.current fill.incoming.id fill.incomingExpected then (.incomingUnavailable, s)
  else if !s.current fill.counter.id fill.counterExpected then (.counterUnavailable, s)
  else
    let (incoming, s) :=
      s.record fill.incoming.id fill.counter.id fill.price fill.amount fill.executedAt
    let (counter, s) :=
      s.record fill.counter.id fill.incoming.id fill.price fill.amount fill.executedAt
    (.committed ⟨incoming, counter⟩, (s.replace fill.incoming).replace fill.counter)

/-- Cancels an order that is not terminal, and gives it as it is then. -/
def cancel (s : Store) (id : OrderId) (time : Instant) : Option Order × Store :=
  match s.find? id with
  | some o =>
    if o.status.terminal then (none, s)
    else
      let o := { o with status := .cancelled, updatedAt := time }
      (some o, s.replace o)
  | none => (none, s)

/-- The executions of an order, oldest first. -/
def executionsOf (s : Store) (id : OrderId) : List Execution :=
  s.executions.filter (·.order == id)

/-- The orders that are not terminal. -/
def live (s : Store) : List Order := s.orders.filter (!·.status.terminal)

end Store

/-! ### Calls on a store -/

/-- One call on a store. -/
inductive StoreCall
  | insert (request : OrderRequest) (createdAt : Instant)
  | load (id : OrderId)
  | loadMany (ids : List OrderId)
  | commit (fill : FillCommit)
  | cancel (id : OrderId) (time : Instant)
  | executions (id : OrderId)
  | live

/-- What a call on a store is answered with. -/
abbrev StoreCall.Answer : StoreCall → Type
  | insert .. => Order
  | load _ => Option Order
  | loadMany _ => List Order
  | commit _ => FillOutcome
  | cancel .. => Option Order
  | executions _ => List Execution
  | live => List Order

/-- Carries out a call. -/
def Store.perform (s : Store) : (c : StoreCall) → c.Answer × Store
  | .insert request createdAt => s.insert request createdAt
  | .load id => (s.find? id, s)
  | .loadMany ids => (ids.filterMap s.find?, s)
  | .commit fill => s.commit fill
  | .cancel id time => s.cancel id time
  | .executions id => (s.executionsOf id, s)
  | .live => (s.live, s)

end Bourse
