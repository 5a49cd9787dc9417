/-
An order's turn hands out its amount in order of price and time.

The walk along a queue meets one order after the other until nothing remains.  What
comes of it can be said without a walk: with so much remaining, the order at each place
of the queue gets the smaller of what it asks for and what those ahead of it leave.
`share` is that number, and `Meets.allotted` shows by induction on the walk that the
fills are the shares that are more than nothing, one after the other.

The induction needs the amounts on a grid, so that what remains is what was there less
what was taken.  On the way it passes the place where the order is filled, and from
there on everybody's share is nothing, for those ahead ask for at least as much as there
was.
-/
import Bourse.Proofs.Conservation

namespace Bourse

open Decimal

/-! ### Shares -/

/-- Of `amount`, what is left for an order by those ahead of it, if it asks for so much. -/
def share (amount : Int) (ahead : List Order) (o : Order) : Int :=
  min o.remainingAmount.units (max 0 (amount - (ahead.map (·.remainingAmount.units)).sum))

/-- Every order of a queue with its share of `amount`. -/
def shares (amount : Int) (queue : List Order) : List (Order × Int) :=
  queue.mapIdx fun i o => (o, share amount (queue.take i) o)

theorem shares_cons (amount : Int) (o : Order) (queue : List Order) :
    shares amount (o :: queue) = (o, min o.remainingAmount.units (max 0 amount)) ::
      shares (amount - o.remainingAmount.units) queue := by
  unfold shares
  rw [List.mapIdx_cons]
  congr 1
  · unfold share
    simp
  · congr 1
    funext i p
    unfold share
    rw [List.take_succ_cons, List.map_cons, List.sum_cons, Int.sub_sub]

/-- Of nothing, everybody's share is nothing. -/
theorem shares_of_nonpos {amount : Int} (hamount : amount ≤ 0) {queue : List Order}
    (h : ∀ o ∈ queue, 0 ≤ o.remainingAmount.units) :
    shares amount queue = queue.map fun o => (o, 0) := by
  induction queue generalizing amount with
  | nil => rfl
  | cons o os ih =>
      have ho := h o (by simp)
      rw [shares_cons, ih (by omega) fun p hp => h p (List.mem_cons_of_mem _ hp), List.map_cons,
        max_eq_left hamount, min_eq_right ho]

theorem map_fst_shares (amount : Int) (queue : List Order) :
    (shares amount queue).map (·.1) = queue := by
  induction queue generalizing amount with
  | nil => rfl
  | cons o os ih => rw [shares_cons, List.map_cons, ih]

theorem exists_share (amount : Int) {queue : List Order} {c : Order} (hc : c ∈ queue) :
    ∃ n, (c, n) ∈ shares amount queue := by
  rw [← map_fst_shares amount queue] at hc
  obtain ⟨p, hp, rfl⟩ := List.mem_map.mp hc
  exact ⟨p.2, hp⟩

/-- Where something is left over, everybody gets all they ask for. -/
theorem share_eq_of_left {amount : Int} {queue : List Order}
    (h : ∀ o ∈ queue, 0 ≤ o.remainingAmount.units)
    (hleft : ((shares amount queue).map (·.2)).sum < amount) :
    ∀ p ∈ shares amount queue, p.2 = p.1.remainingAmount.units := by
  induction queue generalizing amount with
  | nil => exact fun _ hp => nomatch hp
  | cons o os ih =>
      obtain ⟨ho, hos⟩ := List.forall_mem_cons.mp h
      rw [shares_cons, List.map_cons, List.sum_cons] at hleft
      rw [shares_cons]
      by_cases hamount : amount ≤ o.remainingAmount.units
      · -- The first order would take all there is.
        have hrest : ((os.map fun o => (o, (0 : Int))).map (·.2)).sum = 0 := by
          simp [Function.comp_def]
        rw [shares_of_nonpos (by omega) hos, hrest] at hleft
        omega
      · exact List.forall_mem_cons.mpr ⟨by dsimp only; omega, ih hos (by omega)⟩

/-- Whoever gets something, those ahead get all they ask for. -/
theorem shares_served (amount : Int) {queue : List Order}
    (h : ∀ o ∈ queue, 0 ≤ o.remainingAmount.units) :
    (shares amount queue).Pairwise fun p q => 0 < q.2 → p.2 = p.1.remainingAmount.units := by
  induction queue generalizing amount with
  | nil => exact .nil
  | cons o os ih =>
      obtain ⟨-, hos⟩ := List.forall_mem_cons.mp h
      rw [shares_cons]
      refine List.pairwise_cons.mpr ⟨fun q hq hpos => ?_, ih _ hos⟩
      by_cases hamount : amount ≤ o.remainingAmount.units
      · rw [shares_of_nonpos (by omega) hos] at hq
        obtain ⟨c, -, rfl⟩ := List.mem_map.mp hq
        exact absurd hpos (Int.lt_irrefl 0)
      · dsimp only
        omega

/-! ### The walk hands out the shares -/

/-- What a walk along a queue comes to, from the store `s` to the store `s'`. -/
structure Allotted (s : Store) (o : Order) (queue : List Order) (fills : List FillCommit)
    (s' : Store) (last : Order) : Prop where
  /-- Those with a share trade it at their own price, in order. -/
  fills : fills.map (fun x => (x.incoming.id, x.counter.id, x.price, x.amount.units)) =
    ((shares o.remainingAmount.units queue).filter (0 < ·.2)).map fun p =>
      (o.id, p.1.id, p.1.price, p.2)
  found : s'.find? o.id = some last
  left : last.remainingAmount.units = o.remainingAmount.units -
    ((shares o.remainingAmount.units queue).map (·.2)).sum
  counters : ∀ p ∈ shares o.remainingAmount.units queue, ∃ c, s'.find? p.1.id = some c ∧
    c.remainingAmount.units = p.1.remainingAmount.units - p.2 ∧ (p.2 = 0 → c = p.1)
  others : ∀ id, id ≠ o.id → id ∉ queue.map (·.id) → s'.find? id = s.find? id

variable {scale k : Nat} {s s' : Store} {o counter last : Order} {queue : List Order}
  {fills : List FillCommit}

/-- The orders ahead of an order that is ready all ask for something. -/
theorem Store.Ready.nonneg (h : s.Ready o queue) : ∀ c ∈ queue, 0 ≤ c.remainingAmount.units := by
  intro c hc
  have hmay := (h.counterFound c hc).2
  have hmatch := (Order.opposes_iff.mp (Bool.and_eq_true_iff.mp hmay).1).1
  exact Int.le_of_lt (Order.matchable_iff.mp hmatch).2

/-- Where nothing is left to hand out, nothing happens. -/
theorem Allotted.of_nonpos (hready : s.Ready o queue) (hzero : o.remainingAmount.units ≤ 0) :
    Allotted s o queue [] s o := by
  have hshares := shares_of_nonpos hzero hready.nonneg
  refine ⟨?_, hready.found, ?_, ?_, fun _ _ _ => rfl⟩
  · rw [hshares]
    simp [List.filter_map, Function.comp_def]
  · rw [hshares]
    simp [Function.comp_def]
  · rw [hshares]
    intro p hp
    obtain ⟨c, hc, rfl⟩ := List.mem_map.mp hp
    exact ⟨c, (hready.counterFound c hc).1, (Int.sub_zero _).symm, fun _ => rfl⟩

/-- The first order of a queue takes its share, and the rest share what it leaves. -/
theorem shares_trade (hready : s.Ready o (counter :: queue)) {fill : FillCommit}
    (t : s.Trade scale o counter fill)
    (hleft : fill.incoming.remainingAmount.units =
      o.remainingAmount.units - fill.amount.units) :
    shares o.remainingAmount.units (counter :: queue) =
      (counter, fill.amount.units) :: shares fill.incoming.remainingAmount.units queue := by
  have hpos := (Order.matchable_iff.mp t.matchable).2
  have hamount : fill.amount.units =
      min o.remainingAmount.units counter.remainingAmount.units := by
    rw [t.meeting.amount, units_least]
  rw [shares_cons]
  congr 1
  · congr 1
    omega
  · rcases Int.le_total counter.remainingAmount.units o.remainingAmount.units with hle | hle
    · congr 1
      omega
    · have hnonneg : ∀ c ∈ queue, 0 ≤ c.remainingAmount.units :=
        fun c hc => hready.nonneg c (List.mem_cons_of_mem _ hc)
      rw [shares_of_nonpos (by omega) hnonneg, shares_of_nonpos (by omega) hnonneg]

/-- One trade and then a walk along the rest of the queue. -/
theorem Allotted.trade (hready : s.Ready o (counter :: queue)) {fill : FillCommit}
    (t : s.Trade scale o counter fill)
    (hleft : fill.incoming.remainingAmount.units =
      o.remainingAmount.units - fill.amount.units)
    (hleft' : fill.counter.remainingAmount.units =
      counter.remainingAmount.units - fill.amount.units)
    (h : Allotted (s.commit fill).2 fill.incoming queue fills s' last) :
    Allotted s o (counter :: queue) (fill :: fills) s' last := by
  have hshares := shares_trade hready t hleft
  have hamount := t.incomingFilled.positive
  have hnodup := hready.nodup
  rw [List.map_cons, List.nodup_cons] at hnodup
  refine ⟨?_, ?_, ?_, ?_, ?_⟩
  · rw [hshares, List.filter_cons_of_pos (by simpa using hamount), List.map_cons, List.map_cons,
      h.fills, t.incoming_id, t.counter_id, t.meeting.price]
  · rw [← t.incoming_id]
    exact h.found
  · rw [h.left, hshares, hleft, List.map_cons, List.sum_cons]
    omega
  · rw [hshares]
    intro p hp
    rcases List.mem_cons.mp hp with rfl | hin
    · -- Nothing after the trade touches the first order again.
      have hne : counter.id ≠ fill.incoming.id := t.incoming_id ▸ t.ids_ne.symm
      refine ⟨fill.counter, ?_, hleft', fun hzero => absurd hzero (Int.ne_of_gt hamount)⟩
      show s'.find? counter.id = some fill.counter
      rw [h.others counter.id hne hnodup.1, t.find?_commit, if_pos rfl]
    · exact h.counters p hin
  · intro id hid hnotin
    rw [List.map_cons, List.mem_cons, not_or] at hnotin
    have hne : id ≠ fill.incoming.id := t.incoming_id ▸ hid
    rw [h.others id hne hnotin.2, t.find?_commit, if_neg hnotin.1, if_neg hid]

/-- **The walk along a queue hands out the shares.** -/
theorem Meets.allotted (hk : k ≤ 28) (h : Meets scale s o queue fills s' last)
    (hhistory : s.History scale) (hgrid : ∀ a ∈ s.orders.map (·.amount), OnGrid k a.units)
    (hready : s.Ready o queue) (hlive : o.status ≠ .cancelled) :
    Allotted s o queue fills s' last := by
  induction h with
  | out s o =>
      refine ⟨rfl, hready.found, ?_, ?_, fun _ _ _ => rfl⟩
      · exact (Int.sub_zero _).symm
      · intro p hp
        cases hp
  | @full s o counters hmatch =>
      refine .of_nonpos hready ?_
      have hexact := (hhistory.conserves hk hgrid o (Store.mem_of_find? hready.found).1).1
      exact Int.le_of_eq (hexact.filled.mp (hexact.filled_of_not_matchable hlive hmatch))
  | trade hmatch t h ih =>
      obtain ⟨-, -, -, hleft, -, hleft'⟩ := (hhistory.conserves hk hgrid).trade hk t
      have hgrid' := hgrid
      rw [← t.map_commit _ t.incomingFilled.terms.amount t.counterFilled.terms.amount] at hgrid'
      exact .trade hready t hleft hleft'
        (ih (hhistory.trade t) hgrid' (hready.next t) t.incoming_ne_cancelled)

/-! ### The turn of an order -/

theorem Floor.mem_queue_iff {f : Floor} {o c : Order} :
    c ∈ f.queue o ↔ c.id ∈ f.index.waiting o.side.opposite o.ticker ∧
      f.store.find? c.id = some c ∧ o.mayMeet c = true :=
  (o.side.queue_perm _).mem_iff.trans Store.mem_rivals

/-- The queue of an order is what the index lists of the orders it may meet. -/
theorem Floor.mem_queue {f : Floor} {o c : Order} :
    c ∈ f.queue o ↔ c.id ∈ f.index.waiting o.side.opposite o.ticker ∧ c ∈ f.store.orders ∧
      c.matchable = true ∧ c.side = o.side.opposite ∧ c.ticker = o.ticker ∧
      o.accepts c.price = true := by
  rw [mem_queue_iff, Order.mayMeet_iff, Store.mem_orders_iff]

/-- The turn of `o`, from the floor `f` to the floor `g`, as price and time have it. -/
structure Floor.Turn (f : Floor) (o : Order) (queue : List Order) (report : MatchReport)
    (g : Floor) : Prop where
  /-- In the queue are the orders that the index lists and that `o` may meet. -/
  listed : ∀ c, c ∈ queue ↔ c.id ∈ f.index.waiting o.side.opposite o.ticker ∧
    c ∈ f.store.orders ∧ c.matchable = true ∧ c.side = o.side.opposite ∧ c.ticker = o.ticker ∧
    o.accepts c.price = true
  /-- They stand by price, then age, then identifier. -/
  sorted : queue.Pairwise o.side.Ahead
  /-- The fills are the shares that are more than nothing, in order and at the waiting price. -/
  fills : report.fills.map (fun e => (e.incomingOrder, e.restingOrder, e.price, e.amount.units)) =
    ((shares o.remainingAmount.units queue).filter (0 < ·.2)).map fun p =>
      (o.id, p.1.id, p.1.price, p.2)
  /-- No commit was turned away. -/
  committed : ∀ fill outcome, ⟨.store (.commit fill), .ok outcome⟩ ∈ g.log →
    ∃ receipt, outcome = .committed receipt
  /-- The order is left with what the shares leave of it. -/
  left : ∃ last, g.store.find? o.id = some last ∧ last.remainingAmount.units =
    o.remainingAmount.units - ((shares o.remainingAmount.units queue).map (·.2)).sum
  /-- Those in the queue are left with what they had less their shares. -/
  counters : ∀ p ∈ shares o.remainingAmount.units queue, ∃ c, g.store.find? p.1.id = some c ∧
    c.remainingAmount.units = p.1.remainingAmount.units - p.2 ∧ (p.2 = 0 → c = p.1)
  /-- No other order has changed. -/
  others : ∀ id, id ≠ o.id → id ∉ queue.map (·.id) → g.store.find? id = f.store.find? id

/--
**An order's turn follows price and time.**  With the amounts on a grid, whenever the
turn of a waiting order ends with a report, it has gone as `Turn` says.
-/
theorem Floor.Seen.turn {f g : Floor} {report : MatchReport} (h : f.Seen scale)
    (hk : k ≤ 28) (hgrid : ∀ x ∈ f.store.orders, OnGrid k x.amount.units)
    (ho : o ∈ f.store.orders) (hmatch : o.matchable = true)
    (hlead : Leads (processOrder scale o.id o.ticker) f (.done report) g) :
    ∃ queue, f.Turn o queue report g := by
  have horderly := h.orderly
  have hfind := Store.mem_orders_iff.mp ho
  have hready := horderly.ready_queue hfind
  obtain ⟨hg, hturn⟩ := (processOrder_ensures horderly o.id o.ticker).of_leads hlead horderly
  obtain ⟨fills, last, hmeets, hfills⟩ := hturn report o rfl hfind rfl hmatch
  have hallotted := hmeets.allotted hk horderly.history (List.forall_mem_map.mpr hgrid) hready
    (Order.ne_cancelled_of_matchable hmatch)
  refine ⟨f.queue o, fun c => mem_queue, ?_, ?_, ?_, ⟨last, hallotted.found, hallotted.left⟩,
    hallotted.counters, hallotted.others⟩
  · exact Side.queue_sorted (Store.nodup_rivals (horderly.tidy.nodup_waiting _ _))
  · rw [hfills, List.map_map, ← hallotted.fills]
    rfl
  · intro fill outcome hin
    have hcommitted := hg.committed _ hin
    cases outcome with
    | committed receipt => exact ⟨receipt, rfl⟩
    | incomingUnavailable | counterUnavailable => cases hcommitted

/--
An order for 3.5 at 2 with sell orders waiting for it: two at 1, which come first, one
at 2, which gets part of its amount, and one at 3, which is out of reach.
-/
def Floor.waitingSells : Floor :=
  session 2 .epoch [.order .buy (.ofDigits 2 0) (.ofDigits 35 1),
    .order .sell (.ofDigits 2 0) (.ofDigits 2 0), .order .sell (.ofDigits 1 0) (.ofDigits 1 0),
    .order .sell (.ofDigits 3 0) (.ofDigits 1 0), .order .sell (.ofDigits 10 1) (.ofDigits 150 2)]

theorem Floor.turn_waitingSells :
    waitingSells.Seen 2 ∧ (∀ x ∈ waitingSells.store.orders, OnGrid 2 x.amount.units) ∧
      ∃ o ∈ waitingSells.store.orders, o.matchable = true ∧ ∃ report g,
        Leads (processOrder 2 o.id o.ticker) waitingSells (.done report) g ∧
          report.fills.length = 3 ∧ ∃ queue, waitingSells.Turn o queue report g := by
  have hseen : waitingSells.Seen 2 := (reached_session _ _ _).seen
  have hgrid : ∀ x ∈ waitingSells.store.orders, OnGrid 2 x.amount.units :=
    Store.onGrid_of_places (by decide) (by decide +kernel)
  obtain ⟨o, ho, hmatch, hfills⟩ : ∃ o ∈ waitingSells.store.orders, o.matchable = true ∧
      (waitingSells.perform .epoch (processOrder 2 o.id o.ticker)).1.toOption.map
        (·.fills.length) = some 3 := by decide +kernel
  have hlead := waitingSells.leads_perform .epoch (processOrder 2 o.id o.ticker)
  cases hresult : (waitingSells.perform .epoch (processOrder 2 o.id o.ticker)).1 with
  | error e =>
      rw [hresult] at hfills
      cases hfills
  | ok report =>
      rw [hresult] at hlead hfills
      exact ⟨hseen, hgrid, o, ho, hmatch, report, _, hlead, Option.some.inj hfills,
        Floor.Seen.turn hseen (by decide) hgrid ho hmatch hlead⟩

end Bourse
