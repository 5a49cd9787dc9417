/-
What the store shows after each thing that is done to it.

The store is looked at through `find?`, its executions and sums over its orders, and
this file says how each of the three moves.  Then `History` says once and for all what
can be done to a store by a service that runs one operation after the other: an order
is placed, an order is cancelled, or two orders trade.  A trade is between orders just
as they stand on record, and that is all the matching has to guarantee; whatever is
always true of orders and executions is proved by induction on a history, without a
further look at the matching.
-/
import Bourse.Proofs.Fill

namespace Bourse

namespace Store

/-! ### Finding an order -/

theorem mem_of_find? {s : Store} {id : OrderId} {o : Order} (h : s.find? id = some o) :
    o ∈ s.orders ∧ o.id = id :=
  ⟨List.mem_of_find?_eq_some h, by simpa using List.find?_some h⟩

theorem find?_list {orders : List Order} (h : (orders.map (·.id)).Pairwise (· < ·)) :
    ∀ o ∈ orders, orders.find? (·.id == o.id) = some o := by
  induction orders with
  | nil => intro o ho; simp at ho
  | cons x xs ih =>
      intro o ho
      rw [List.map_cons, List.pairwise_cons] at h
      rcases List.mem_cons.mp ho with rfl | hin
      · simp
      · have hlt : x.id < o.id := h.1 _ (List.mem_map_of_mem hin)
        rw [List.find?_cons_of_neg (by simpa using Int.ne_of_lt hlt)]
        exact ih h.2 o hin

/-- **The orders on record are the ones that are found by their identifiers.** -/
theorem mem_orders_iff {s : Store} {o : Order} : o ∈ s.orders ↔ s.find? o.id = some o :=
  ⟨find?_list s.sorted o, fun h => (mem_of_find? h).1⟩

theorem eq_of_id_eq {s : Store} {o p : Order} (ho : o ∈ s.orders) (hp : p ∈ s.orders)
    (hid : o.id = p.id) : o = p := by
  rw [mem_orders_iff, hid, mem_orders_iff.mp hp, Option.some.injEq] at ho
  exact ho.symm

/-! ### Placing, replacing and cancelling -/

theorem orders_insert (s : Store) (request : OrderRequest) (time : Instant) :
    (s.insert request time).2.orders =
      s.orders ++ [Order.ofRequest s.nextOrderId request time] := rfl

theorem find?_nextOrderId (s : Store) : s.find? s.nextOrderId = none := by
  refine List.find?_eq_none.mpr fun o ho => ?_
  simpa using Int.ne_of_lt (s.fresh o ho)

theorem find?_insert (s : Store) (request : OrderRequest) (time : Instant) (id : OrderId) :
    (s.insert request time).2.find? id =
      if id = s.nextOrderId then some (Order.ofRequest id request time) else s.find? id := by
  have hnext := s.find?_nextOrderId
  unfold find? at hnext ⊢
  rw [orders_insert, List.find?_append]
  by_cases hid : id = s.nextOrderId
  · rw [if_pos hid, hid, hnext]
    simp [Order.ofRequest]
  · rw [if_neg hid]
    have hne : ¬ s.nextOrderId = id := fun hc => hid hc.symm
    simp [Order.ofRequest, hne]

theorem find?_replace (s : Store) (o : Order) (id : OrderId) :
    (s.replace o).find? id = if id = o.id then (s.find? id).map fun _ => o else s.find? id := by
  show (s.orders.map _).find? _ = if id = o.id then (s.orders.find? _).map _ else s.orders.find? _
  induction s.orders with
  | nil => simp
  | cons x xs ih =>
      rw [List.map_cons, List.find?_cons, List.find?_cons]
      by_cases hid : id = o.id
      · subst hid
        rw [if_pos rfl] at ih ⊢
        by_cases hx : x.id = o.id
        · simp [hx]
        · simp only [hx, if_false, beq_eq_false_iff_ne.mpr hx]
          exact ih
      · rw [if_neg hid] at ih ⊢
        by_cases hx : x.id = o.id
        · have hne : ¬ o.id = id := fun hc => hid hc.symm
          simp only [hx, if_true, beq_eq_false_iff_ne.mpr hne]
          exact ih
        · simp only [hx, if_false]
          rw [ih]

theorem mem_orders_replace {s : Store} {o p : Order} (h : p ∈ (s.replace o).orders) :
    p = o ∨ p ∈ s.orders := by
  obtain ⟨x, hx, rfl⟩ := List.mem_map.mp h
  split
  · exact Or.inl rfl
  · exact Or.inr hx

/-- An order as it is once it is cancelled. -/
def cancelled (o : Order) (time : Instant) : Order :=
  { o with status := .cancelled, updatedAt := time }

theorem find?_cancelled {s : Store} {o : Order} (hfind : s.find? o.id = some o) (time : Instant)
    (id : OrderId) : (s.replace (cancelled o time)).find? id =
      if id = o.id then some (cancelled o time) else s.find? id := by
  rw [find?_replace, show (cancelled o time).id = o.id from rfl]
  by_cases hid : id = o.id
  · rw [if_pos hid, if_pos hid, hid, hfind]
    rfl
  · rw [if_neg hid, if_neg hid]

/-- Cancelling finds a live order and replaces it, or does nothing. -/
theorem cancel_cases (s : Store) (id : OrderId) (time : Instant) :
    (∃ o, s.find? id = some o ∧ o.status.terminal = false ∧
      s.cancel id time = (some (cancelled o time), s.replace (cancelled o time))) ∨
    s.cancel id time = (none, s) := by
  unfold cancel
  cases hfind : s.find? id with
  | none => exact Or.inr rfl
  | some o =>
      by_cases hterminal : o.status.terminal = true
      · exact Or.inr (by simp [hterminal])
      · rw [Bool.not_eq_true] at hterminal
        exact Or.inl ⟨o, rfl, hterminal, by simp [hterminal, cancelled]⟩

/-- Whether it was cancelled just now or was terminal before, an order is terminal then. -/
theorem terminal_cancel {s : Store} {id : OrderId} {time : Instant} {o : Order}
    (h : (s.cancel id time).2.find? id = some o) : o.status.terminal = true := by
  unfold cancel at h
  cases hfind : s.find? id with
  | none =>
      rw [hfind] at h
      dsimp only at h
      rw [hfind] at h
      cases h
  | some p =>
      obtain ⟨-, hid⟩ := mem_of_find? hfind
      rw [hfind] at h
      by_cases hterminal : p.status.terminal = true
      · simp only [hterminal, if_true] at h
        rw [hfind, Option.some.injEq] at h
        rw [← h]
        exact hterminal
      · simp only [hterminal, Bool.false_eq_true, if_false] at h
        rw [find?_replace, hid, if_pos rfl, hfind] at h
        cases h
        rfl

/-! ### Committing a fill -/

theorem current_of_find? {s : Store} {o : Order} {remaining : Decimal} {id : OrderId}
    (hfind : s.find? id = some o) (hmatch : o.matchable = true)
    (hremaining : o.remainingAmount.units = remaining.units) : s.current id remaining = true := by
  unfold current
  rw [hfind]
  simp [hmatch, Decimal.same, hremaining]

/-- The two executions of a fill. -/
def executionPair (s : Store) (fill : FillCommit) : FillReceipt where
  incoming := ⟨s.nextExecutionId, fill.incoming.id, fill.counter.id, fill.price, fill.amount,
    fill.executedAt⟩
  counter := ⟨s.nextExecutionId + 1, fill.counter.id, fill.incoming.id, fill.price, fill.amount,
    fill.executedAt⟩

/-- A fill of two orders that are current is recorded whole. -/
theorem commit_of_current {s : Store} {fill : FillCommit}
    (hincoming : s.current fill.incoming.id fill.incomingExpected = true)
    (hcounter : s.current fill.counter.id fill.counterExpected = true) :
    (s.commit fill).1 = .committed (s.executionPair fill) ∧
      (s.commit fill).2.executions =
        s.executions ++ [(s.executionPair fill).incoming, (s.executionPair fill).counter] ∧
      (s.commit fill).2.orders = ((s.replace fill.incoming).replace fill.counter).orders ∧
      (s.commit fill).2.nextOrderId = s.nextOrderId ∧
      (s.commit fill).2.nextExecutionId = s.nextExecutionId + 2 := by
  unfold commit
  rw [hincoming, hcounter]
  refine ⟨rfl, ?_, rfl, rfl, ?_⟩
  · simp [record, replace, executionPair]
  · simp [record, replace, Int.add_assoc]

/-- What a fill that goes through finds on record: two orders as it expects them. -/
structure Takes (s : Store) (fill : FillCommit) (o p : Order) : Prop where
  incomingFound : s.find? fill.incoming.id = some o
  counterFound : s.find? fill.counter.id = some p
  matchable : o.matchable = true
  counterMatchable : p.matchable = true
  incomingExpected : o.remainingAmount.units = fill.incomingExpected.units
  counterExpected : p.remainingAmount.units = fill.counterExpected.units

theorem current_cases (s : Store) (id : OrderId) (remaining : Decimal) :
    (∃ o, s.find? id = some o ∧ o.matchable = true ∧
      o.remainingAmount.units = remaining.units) ∨ s.current id remaining = false := by
  unfold current
  cases hfind : s.find? id with
  | none => exact Or.inr rfl
  | some o =>
      dsimp only
      cases hcurrent : o.matchable && o.remainingAmount.same remaining with
      | false => exact Or.inr rfl
      | true =>
          obtain ⟨hmatch, hsame⟩ := Bool.and_eq_true_iff.mp hcurrent
          exact Or.inl ⟨o, rfl, hmatch, by simpa [Decimal.same] using hsame⟩

/-- A fill finds its orders as it expects them and goes through, or nothing happens. -/
theorem commit_cases (s : Store) (fill : FillCommit) :
    (∃ o p, s.Takes fill o p) ∨
      (s.commit fill).2 = s ∧ ∀ receipt, (s.commit fill).1 ≠ .committed receipt := by
  rcases s.current_cases fill.incoming.id fill.incomingExpected with
    ⟨o, hfind, hmatch, hexpected⟩ | hgone
  · rcases s.current_cases fill.counter.id fill.counterExpected with
      ⟨p, hfind', hmatch', hexpected'⟩ | hgone
    · exact Or.inl ⟨o, p, hfind, hfind', hmatch, hmatch', hexpected, hexpected'⟩
    · refine Or.inr ?_
      unfold commit
      split
      · exact ⟨rfl, fun _ h => nomatch h⟩
      · rw [hgone]
        exact ⟨rfl, fun _ h => nomatch h⟩
  · refine Or.inr ?_
    unfold commit
    rw [hgone]
    exact ⟨rfl, fun _ h => nomatch h⟩

namespace Takes

variable {s : Store} {fill : FillCommit} {o p : Order}

theorem committed (h : s.Takes fill o p) :
    (s.commit fill).1 = .committed (s.executionPair fill) ∧
      (s.commit fill).2.executions =
        s.executions ++ [(s.executionPair fill).incoming, (s.executionPair fill).counter] ∧
      (s.commit fill).2.orders = ((s.replace fill.incoming).replace fill.counter).orders ∧
      (s.commit fill).2.nextOrderId = s.nextOrderId ∧
      (s.commit fill).2.nextExecutionId = s.nextExecutionId + 2 := by
  refine commit_of_current ?_ ?_
  · exact current_of_find? h.incomingFound h.matchable h.incomingExpected
  · exact current_of_find? h.counterFound h.counterMatchable h.counterExpected

/-- **A fill that goes through replaces its two orders and no other.** -/
theorem find?_commit (h : s.Takes fill o p) (id : OrderId) :
    (s.commit fill).2.find? id = if id = fill.counter.id then some fill.counter
      else if id = fill.incoming.id then some fill.incoming else s.find? id := by
  obtain ⟨-, -, horders, -, -⟩ := h.committed
  have hfind : (s.commit fill).2.find? id =
      ((s.replace fill.incoming).replace fill.counter).find? id := by
    unfold find?
    rw [horders]
  rw [hfind, find?_replace, find?_replace]
  by_cases hcounter : id = fill.counter.id
  · subst hcounter
    rw [if_pos rfl, if_pos rfl]
    split
    · rename_i hsame
      rw [hsame, h.incomingFound]
      rfl
    · rw [h.counterFound]
      rfl
  · rw [if_neg hcounter, if_neg hcounter]
    by_cases hincoming : id = fill.incoming.id
    · subst hincoming
      rw [if_pos rfl, if_pos rfl, h.incomingFound]
      rfl
    · rw [if_neg hincoming, if_neg hincoming]

theorem executionsOf_commit (h : s.Takes fill o p) (hne : fill.incoming.id ≠ fill.counter.id)
    (id : OrderId) : (s.commit fill).2.executionsOf id = s.executionsOf id ++
      (if id = fill.incoming.id then [(s.executionPair fill).incoming]
        else if id = fill.counter.id then [(s.executionPair fill).counter] else []) := by
  obtain ⟨-, hexecutions, -, -, -⟩ := h.committed
  unfold executionsOf
  rw [hexecutions, List.filter_append]
  congr 1
  have hi : (s.executionPair fill).incoming.order = fill.incoming.id := rfl
  have hc : (s.executionPair fill).counter.order = fill.counter.id := rfl
  by_cases hincoming : id = fill.incoming.id
  · subst hincoming
    simp [hi, hc, hne.symm]
  · rw [if_neg hincoming]
    have hincoming' : ¬ fill.incoming.id = id := fun h => hincoming h.symm
    by_cases hcounter : id = fill.counter.id
    · subst hcounter
      simp [hi, hc, hne]
    · have hcounter' : ¬ fill.counter.id = id := fun h => hcounter h.symm
      simp [hi, hc, hincoming', hcounter, hcounter']

/-- What is filled could be matched, so it is no order that is terminal. -/
theorem ids_ne_of_terminal (h : s.Takes fill o p) {q : Order} (hq : q ∈ s.orders)
    (hterminal : q.status.terminal = true) :
    q.id ≠ fill.incoming.id ∧ q.id ≠ fill.counter.id := by
  have hother {id : OrderId} {z : Order} (hz : s.find? id = some z)
      (hmatch : z.matchable = true) : q.id ≠ id := by
    rintro rfl
    rw [mem_orders_iff.mp hq, Option.some.injEq] at hz
    rw [← hz, Order.matchable_iff, hterminal] at hmatch
    cases hmatch.1
  exact ⟨hother h.incomingFound h.matchable, hother h.counterFound h.counterMatchable⟩

/-- Nothing is executed for an order that is yet to be placed. -/
theorem order_lt (h : s.Takes fill o p) (hissued : ∀ e ∈ s.executions, e.order < s.nextOrderId) :
    ∀ e ∈ (s.commit fill).2.executions, e.order < (s.commit fill).2.nextOrderId := by
  intro e he
  obtain ⟨-, hexecutions, -, hnext, -⟩ := h.committed
  rw [hexecutions, List.mem_append] at he
  rw [hnext]
  obtain ⟨ho, hincoming⟩ := mem_of_find? h.incomingFound
  obtain ⟨hp, hcounter⟩ := mem_of_find? h.counterFound
  rcases he with hin | hnew
  · exact hissued e hin
  · rcases List.mem_cons.mp hnew with rfl | hnew
    · show fill.incoming.id < s.nextOrderId
      exact hincoming ▸ s.fresh o ho
    · rw [List.mem_singleton.mp hnew]
      show fill.counter.id < s.nextOrderId
      exact hcounter ▸ s.fresh p hp

end Takes

/-! ### Trades -/

/-- Two orders that may trade, just as they stand on record, and the fill between them. -/
structure Trade (s : Store) (scale : Nat) (incoming counter : Order) (fill : FillCommit) :
    Prop where
  incomingFound : s.find? incoming.id = some incoming
  counterFound : s.find? counter.id = some counter
  matchable : incoming.matchable = true
  opposes : counter.opposes incoming = true
  accepts : incoming.accepts counter.price = true
  fillWith : ∃ time, incoming.fillWith counter scale time = .ok fill

namespace Trade

variable {s : Store} {scale : Nat} {incoming counter : Order} {fill : FillCommit}

theorem meeting (t : Trade s scale incoming counter fill) :
    Order.Meeting incoming counter scale fill.executedAt fill := by
  obtain ⟨time, h⟩ := t.fillWith
  have hm := Order.fillWith_ok h
  rw [hm.executedAt]
  exact hm

theorem incomingFilled (t : Trade s scale incoming counter fill) :
    incoming.FilledTo fill.amount fill.price scale fill.executedAt fill.incoming :=
  Order.fill_ok t.meeting.incomingFill

theorem counterFilled (t : Trade s scale incoming counter fill) :
    counter.FilledTo fill.amount fill.price scale fill.executedAt fill.counter :=
  Order.fill_ok t.meeting.counterFill

theorem incoming_id (t : Trade s scale incoming counter fill) :
    fill.incoming.id = incoming.id := t.incomingFilled.terms.id

theorem counter_id (t : Trade s scale incoming counter fill) :
    fill.counter.id = counter.id := t.counterFilled.terms.id

theorem counter_matchable (t : Trade s scale incoming counter fill) :
    counter.matchable = true := (Order.opposes_iff.mp t.opposes).1

theorem incoming_ne_cancelled (t : Trade s scale incoming counter fill) :
    fill.incoming.status ≠ .cancelled :=
  t.incomingFilled.status_ne_cancelled (Order.ne_cancelled_of_matchable t.matchable)

theorem counter_ne_cancelled (t : Trade s scale incoming counter fill) :
    fill.counter.status ≠ .cancelled :=
  t.counterFilled.status_ne_cancelled (Order.ne_cancelled_of_matchable t.counter_matchable)

/-- Nobody trades with himself: the two orders are on opposite sides. -/
theorem ids_ne (t : Trade s scale incoming counter fill) : incoming.id ≠ counter.id := by
  intro hid
  have hfound := t.incomingFound
  rw [hid, t.counterFound] at hfound
  obtain ⟨-, hside, -⟩ := Order.opposes_iff.mp t.opposes
  rw [Option.some.inj hfound] at hside
  exact Side.opposite_ne _ hside.symm

theorem filled_ids_ne (t : Trade s scale incoming counter fill) :
    fill.incoming.id ≠ fill.counter.id := by
  rw [t.incoming_id, t.counter_id]
  exact t.ids_ne

/-- Orders that stand on record as they were read can be filled. -/
theorem takes (t : Trade s scale incoming counter fill) : s.Takes fill incoming counter where
  incomingFound := t.incoming_id ▸ t.incomingFound
  counterFound := t.counter_id ▸ t.counterFound
  matchable := t.matchable
  counterMatchable := t.counter_matchable
  incomingExpected := by rw [t.meeting.incomingExpected]
  counterExpected := by rw [t.meeting.counterExpected]

theorem committed (t : Trade s scale incoming counter fill) :
    (s.commit fill).1 = .committed (s.executionPair fill) ∧
      (s.commit fill).2.executions =
        s.executions ++ [(s.executionPair fill).incoming, (s.executionPair fill).counter] ∧
      (s.commit fill).2.orders = ((s.replace fill.incoming).replace fill.counter).orders ∧
      (s.commit fill).2.nextOrderId = s.nextOrderId ∧
      (s.commit fill).2.nextExecutionId = s.nextExecutionId + 2 := t.takes.committed

/-- **A trade replaces its two orders and no other.** -/
theorem find?_commit (t : Trade s scale incoming counter fill) (id : OrderId) :
    (s.commit fill).2.find? id = if id = counter.id then some fill.counter
      else if id = incoming.id then some fill.incoming else s.find? id := by
  rw [t.takes.find?_commit, t.counter_id, t.incoming_id]

/-- An order on record after a trade is one of its two, or was there before. -/
theorem mem_orders_commit (t : Trade s scale incoming counter fill) {o : Order}
    (ho : o ∈ (s.commit fill).2.orders) : o = fill.incoming ∨ o = fill.counter ∨
      (o ∈ s.orders ∧ o.id ≠ incoming.id ∧ o.id ≠ counter.id) := by
  rw [mem_orders_iff, t.find?_commit] at ho
  by_cases hcounter : o.id = counter.id
  · rw [if_pos hcounter] at ho
    exact Or.inr (Or.inl (Option.some.inj ho).symm)
  · rw [if_neg hcounter] at ho
    by_cases hincoming : o.id = incoming.id
    · rw [if_pos hincoming] at ho
      exact Or.inl (Option.some.inj ho).symm
    · rw [if_neg hincoming] at ho
      exact Or.inr (Or.inr ⟨mem_orders_iff.mpr ho, hincoming, hcounter⟩)

theorem executionsOf_commit (t : Trade s scale incoming counter fill) (id : OrderId) :
    (s.commit fill).2.executionsOf id = s.executionsOf id ++
      (if id = incoming.id then [(s.executionPair fill).incoming]
        else if id = counter.id then [(s.executionPair fill).counter] else []) := by
  rw [t.takes.executionsOf_commit t.filled_ids_ne, t.incoming_id, t.counter_id]

end Trade

/-! ### Sums over the orders -/

/-- What a replacement leaves as it was, all orders together leave as it was. -/
theorem map_replace {α : Type} (g : Order → α) {s : Store} {o old : Order}
    (hfind : s.find? o.id = some old) (hg : g o = g old) :
    (s.replace o).orders.map g = s.orders.map g := by
  show (s.orders.map fun x => if x.id = o.id then o else x).map g = _
  rw [List.map_map]
  refine List.map_congr_left fun x hx => ?_
  show g (if x.id = o.id then o else x) = g x
  by_cases hid : x.id = o.id
  · have hx' := mem_orders_iff.mp hx
    rw [hid, hfind, Option.some.injEq] at hx'
    rw [if_pos hid, hg, hx']
  · rw [if_neg hid]

theorem sum_map_replace (g : Order → Int) {orders : List Order} {o old : Order}
    (hsorted : (orders.map (·.id)).Pairwise (· < ·))
    (hfind : orders.find? (·.id == o.id) = some old) :
    ((orders.map fun x => if x.id = o.id then o else x).map g).sum =
      (orders.map g).sum - g old + g o := by
  induction orders with
  | nil => simp at hfind
  | cons x xs ih =>
      rw [List.map_cons, List.pairwise_cons] at hsorted
      by_cases hx : x.id = o.id
      · rw [List.find?_cons_of_pos (by simpa using hx), Option.some.injEq] at hfind
        subst hfind
        -- Identifiers increase, so nothing after the order has the same one.
        have hrest : xs.map (fun y => if y.id = o.id then o else y) = xs := by
          refine (List.map_congr_left ?_).trans (List.map_id xs)
          intro y hy
          have hlt : o.id < y.id := hx ▸ hsorted.1 _ (List.mem_map_of_mem hy)
          exact if_neg fun hc => Int.ne_of_lt hlt hc.symm
        rw [List.map_cons, if_pos hx, hrest, List.map_cons, List.sum_cons, List.map_cons,
          List.sum_cons]
        omega
      · rw [List.find?_cons_of_neg (by simpa using hx)] at hfind
        have := ih hsorted.2 hfind
        rw [List.map_cons, if_neg hx, List.map_cons, List.sum_cons, this, List.map_cons,
          List.sum_cons]
        omega

/-- Replacing an order moves a sum over the orders by the difference it makes. -/
theorem sum_replace (g : Order → Int) {s : Store} {o old : Order}
    (h : s.find? o.id = some old) :
    ((s.replace o).orders.map g).sum = (s.orders.map g).sum - g old + g o :=
  sum_map_replace g s.sorted h

theorem map_cancelled {α : Type} (g : Order → α) {s : Store} {o : Order} {time : Instant}
    (hfind : s.find? o.id = some o) (hg : g (cancelled o time) = g o) :
    (s.replace (cancelled o time)).orders.map g = s.orders.map g :=
  map_replace g hfind hg

/-- The second order of a fill stands as it did while the first one is replaced. -/
theorem Takes.counterFound_replace {s : Store} {fill : FillCommit} {o p : Order}
    (h : s.Takes fill o p) (hne : fill.incoming.id ≠ fill.counter.id) :
    (s.replace fill.incoming).find? fill.counter.id = some p := by
  rw [find?_replace, if_neg hne.symm]
  exact h.counterFound

theorem Takes.sum_commit (g : Order → Int) {s : Store} {fill : FillCommit} {o p : Order}
    (h : s.Takes fill o p) (hne : fill.incoming.id ≠ fill.counter.id) :
    ((s.commit fill).2.orders.map g).sum =
      (s.orders.map g).sum + (g fill.incoming - g o) + (g fill.counter - g p) := by
  obtain ⟨-, -, horders, -, -⟩ := h.committed
  rw [horders, sum_replace g (h.counterFound_replace hne), sum_replace g h.incomingFound]
  omega

theorem Trade.map_commit {α : Type} (g : Order → α) {s : Store} {scale : Nat}
    {incoming counter : Order} {fill : FillCommit} (t : Trade s scale incoming counter fill)
    (hincoming : g fill.incoming = g incoming) (hcounter : g fill.counter = g counter) :
    (s.commit fill).2.orders.map g = s.orders.map g := by
  obtain ⟨-, -, horders, -, -⟩ := t.committed
  rw [horders, map_replace g (t.takes.counterFound_replace t.filled_ids_ne) hcounter,
    map_replace g (t.incoming_id ▸ t.incomingFound) hincoming]

theorem Trade.sum_commit (g : Order → Int) {s : Store} {scale : Nat} {incoming counter : Order}
    {fill : FillCommit} (t : Trade s scale incoming counter fill) :
    ((s.commit fill).2.orders.map g).sum = (s.orders.map g).sum +
      (g fill.incoming - g incoming) + (g fill.counter - g counter) :=
  t.takes.sum_commit g t.filled_ids_ne

/-- The sum of a quantity over all orders on one side of a ticker. -/
def sumOn (s : Store) (x : Order → Int) (side : Side) (ticker : String) : Int :=
  (s.orders.map fun o => if o.side = side ∧ o.ticker = ticker then x o else 0).sum

section

variable {s : Store} {x : Order → Int} (side : Side) (ticker : String)

theorem sumOn_insert (request : OrderRequest) (time : Instant)
    (hx : x (Order.ofRequest s.nextOrderId request time) = 0) :
    (s.insert request time).2.sumOn x side ticker = s.sumOn x side ticker := by
  unfold sumOn
  rw [orders_insert, List.map_append, List.sum_append]
  simp [hx]

theorem sumOn_cancelled {o : Order} {time : Instant} (hfind : s.find? o.id = some o)
    (hx : x (cancelled o time) = x o) :
    (s.replace (cancelled o time)).sumOn x side ticker = s.sumOn x side ticker := by
  unfold sumOn
  rw [map_cancelled _ hfind (by rw [hx]; rfl)]

/-- **What both orders of a trade gain, each side gains** on the ticker that was traded. -/
theorem Trade.sumOn_commit {scale : Nat} {incoming counter : Order} {fill : FillCommit}
    (t : Trade s scale incoming counter fill) {gain : Int}
    (hincoming : x fill.incoming = x incoming + gain)
    (hcounter : x fill.counter = x counter + gain) :
    (s.commit fill).2.sumOn x side ticker =
      s.sumOn x side ticker + if incoming.ticker = ticker then gain else 0 := by
  obtain ⟨-, hside, hticker⟩ := Order.opposes_iff.mp t.opposes
  have hterms := t.incomingFilled.terms
  have hterms' := t.counterFilled.terms
  unfold sumOn
  rw [t.sum_commit, hterms.side, hterms.ticker, hterms'.side, hterms'.ticker, hside, hticker,
    hincoming, hcounter]
  by_cases hon : incoming.ticker = ticker
  · cases side <;> cases hsides : incoming.side <;> simp [hon, Side.opposite]
  · simp [hon]

end

/-! ### Histories -/

/-- A store that came about from nothing, one change after the other. -/
inductive History (scale : Nat) : Store → Prop
  | empty : History scale .empty
  | place {s} (h : History scale s) (request : OrderRequest) (time : Instant)
      (hamount : request.amount.positive = true) (hprice : request.price.positive = true) :
      History scale (s.insert request time).2
  | cancel {s o} (h : History scale s) (hfind : s.find? o.id = some o)
      (hlive : o.status.terminal = false) (time : Instant) :
      History scale (s.replace (cancelled o time))
  | trade {s incoming counter fill} (h : History scale s)
      (t : Trade s scale incoming counter fill) : History scale (s.commit fill).2

section

variable {scale : Nat} {s : Store}

theorem History.after_cancel (h : History scale s) (id : OrderId) (time : Instant) :
    History scale (s.cancel id time).2 := by
  rcases s.cancel_cases id time with ⟨o, hfind, hlive, hcancel⟩ | hcancel
  · rw [hcancel]
    exact h.cancel ((mem_of_find? hfind).2 ▸ hfind) hlive time
  · rw [hcancel]
    exact h

/-- Nothing was executed for an order that is yet to be placed. -/
theorem History.order_lt (h : History scale s) : ∀ e ∈ s.executions, e.order < s.nextOrderId := by
  induction h with
  | empty => exact List.forall_mem_nil _
  | place _ request time _ _ ih => exact fun e he => Int.lt_trans (ih e he) (Int.lt_succ _)
  | cancel _ _ _ _ ih => exact ih
  | trade _ t ih => exact t.takes.order_lt ih

theorem History.executionsOf_next (h : History scale s) :
    s.executionsOf s.nextOrderId = [] := by
  unfold executionsOf
  rw [List.filter_eq_nil_iff]
  intro e he
  have hne : e.order ≠ s.nextOrderId := Int.ne_of_lt (h.order_lt e he)
  simpa using hne

end

end Store

end Bourse
