/-
The waiting-order index: which orders are outstanding, book by book.

A book belongs to a side and a ticker.  It lists identifiers best price first, and of
equal prices the lowest identifier first.  The index nominates orders; what they ask for
is always read again from the store.

A book holds its keys twice, in order and by identifier, so that an identifier that is
enqueued again gives up its former key.
-/
import Bourse.Order.Basic

namespace Bourse

/-- The place of an order in a book; the score is lower the better the price. -/
structure IndexKey where
  score : Decimal
  order : OrderId
deriving DecidableEq, Inhabited

namespace IndexKey

/-- The key of an order with this limit price. -/
def ofPrice (side : Side) (price : Decimal) (order : OrderId) : IndexKey :=
  ⟨match side with
    | .buy => price.neg
    | .sell => price, order⟩

/-- Keys are ordered by the value of the score and then by the identifier. -/
def cmp (a b : IndexKey) : Ordering := (a.score.cmp b.score).then (compare a.order b.order)

/-- Adds a key to an ordered list that does not have one like it. -/
def insertInto (k : IndexKey) : List IndexKey → List IndexKey
  | [] => [k]
  | x :: xs =>
    match cmp k x with
    | .lt => k :: x :: xs
    | .eq => x :: xs
    | .gt => x :: insertInto k xs

/-- Takes a key out of a list. -/
def eraseFrom (k : IndexKey) (keys : List IndexKey) : List IndexKey :=
  keys.filter fun x => cmp k x != .eq

/-- Is there a key like this one in a list? -/
def isIn (k : IndexKey) (keys : List IndexKey) : Bool := keys.any fun x => cmp k x == .eq

end IndexKey

/-- The keys of one side of one ticker. -/
structure WaitingBook where
  /-- The keys, best first. -/
  ordered : List IndexKey
  /-- The key of each identifier. -/
  members : List IndexKey
deriving DecidableEq, Inhabited

namespace WaitingBook

/-- A book with no keys. -/
def empty : WaitingBook := ⟨[], []⟩

/-- The key of an identifier. -/
def key? (b : WaitingBook) (id : OrderId) : Option IndexKey := b.members.find? (·.order == id)

/-- The book with this key, and without the one its identifier had. -/
def enqueue (b : WaitingBook) (k : IndexKey) : WaitingBook :=
  let ordered := match b.key? k.order with
    | some previous => previous.eraseFrom b.ordered
    | none => b.ordered
  { ordered := k.insertInto ordered
    members := k :: b.members.filter (·.order != k.order) }

/-- The book without the key of an identifier, and whether there was one. -/
def remove (b : WaitingBook) (id : OrderId) : Bool × WaitingBook :=
  match b.key? id with
  | some k =>
    (k.isIn b.ordered,
      { ordered := k.eraseFrom b.ordered, members := b.members.filter (·.order != id) })
  | none => (false, b)

/-- The identifiers, best first. -/
def ids (b : WaitingBook) : List OrderId := b.ordered.map (·.order)

end WaitingBook

/-- The books that have an outstanding order. -/
structure WaitingIndex where
  books : List ((Side × String) × WaitingBook)
deriving DecidableEq, Inhabited

namespace WaitingIndex

/-- No book at all. -/
def empty : WaitingIndex := ⟨[]⟩

/-- The book of a side and a ticker. -/
def book? (i : WaitingIndex) (side : Side) (ticker : String) : Option WaitingBook :=
  i.books.lookup (side, ticker)

/-- The index without a book. -/
def dropBook (i : WaitingIndex) (side : Side) (ticker : String) : WaitingIndex :=
  ⟨i.books.filter (·.1 != (side, ticker))⟩

/-- The index with a book in place of the one there was. -/
def setBook (i : WaitingIndex) (side : Side) (ticker : String) (b : WaitingBook) : WaitingIndex :=
  ⟨((side, ticker), b) :: (i.dropBook side ticker).books⟩

/-- Adds an order with its limit price; one that was there before gets a new place. -/
def enqueue (i : WaitingIndex) (side : Side) (ticker : String) (id : OrderId) (price : Decimal) :
    WaitingIndex :=
  let b := (i.book? side ticker).getD .empty
  i.setBook side ticker (b.enqueue (.ofPrice side price id))

/-- The outstanding orders of a side and a ticker, best price first, then lowest identifier. -/
def waiting (i : WaitingIndex) (side : Side) (ticker : String) : List OrderId :=
  match i.book? side ticker with
  | some b => b.ids
  | none => []

/-- Takes an order out, and tells whether it was there; a book left empty goes with it. -/
def remove (i : WaitingIndex) (side : Side) (ticker : String) (id : OrderId) :
    Bool × WaitingIndex :=
  match i.book? side ticker with
  | none => (false, i)
  | some b =>
    let (removed, b) := b.remove id
    (removed, if b.ordered.isEmpty then i.dropBook side ticker else i.setBook side ticker b)

/-- Adds a text to a strictly increasing list, if it is not in it. -/
def insertTicker (t : String) : List String → List String
  | [] => [t]
  | u :: us => if t < u then t :: u :: us else if t = u then u :: us else u :: insertTicker t us

/-- The tickers with an outstanding order on either side, in increasing order. -/
def tickers (i : WaitingIndex) : List String :=
  i.books.foldl (fun ts b => insertTicker b.1.2 ts) []

/-- How many orders are outstanding on a side of a ticker. -/
def size (i : WaitingIndex) (side : Side) (ticker : String) : Nat :=
  match i.book? side ticker with
  | some b => b.ordered.length
  | none => 0

end WaitingIndex

/-! ### Calls on an index -/

/-- One call on an index. -/
inductive IndexCall
  | enqueue (side : Side) (ticker : String) (id : OrderId) (price : Decimal)
  | list (side : Side) (ticker : String)
  | remove (side : Side) (ticker : String) (id : OrderId)
  | tickers
  | size (side : Side) (ticker : String)

/-- What a call on an index is answered with. -/
abbrev IndexCall.Answer : IndexCall → Type
  | enqueue .. => Unit
  | list .. => List OrderId
  | remove .. => Bool
  | tickers => List String
  | size .. => Nat

/-- Carries out a call. -/
def WaitingIndex.perform (i : WaitingIndex) : (c : IndexCall) → c.Answer × WaitingIndex
  | .enqueue side ticker id price => ((), i.enqueue side ticker id price)
  | .list side ticker => (i.waiting side ticker, i)
  | .remove side ticker id => i.remove side ticker id
  | .tickers => (i.tickers, i)
  | .size side ticker => (i.size side ticker, i)

end Bourse
