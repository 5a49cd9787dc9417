/-
A store that is shared is never written from a stale read.

Here nothing is left of the operations but their calls on the store, made by anyone in any
order.  A fill may be worked out from any two orders that anyone has ever read, and a
commit compares no more than what remains of them.  That is enough, because what remains
only ever gets less: `Ages` says that an order is as it was read, or can no longer be
matched, or has less remaining.  So an order that can be matched and has as much remaining
as was read is the very order that was read (`Ages.eq`), and no amount is filled twice.

The amounts have to lie on a grid, or else a fill could be so small that what remains is
rounded to what it was.
-/
import Bourse.Proofs.Conservation
import Bourse.Proofs.Lasting

namespace Bourse

open Decimal

/-! ### What an order that was read comes to -/

/-- `p` is what has come of the order that was read as `o`. -/
structure Order.Ages (o p : Order) : Prop where
  terms : o.SameTerms p
  remaining : p.remainingAmount.units ≤ o.remainingAmount.units
  /-- It has not changed, or is terminal, or less remains of it. -/
  moved : p = o ∨ p.status.terminal = true ∨ p.remainingAmount.units < o.remainingAmount.units

namespace Order.Ages

variable {o p q : Order}

theorem refl (o : Order) : o.Ages o := ⟨.refl o, Int.le_refl _, Or.inl rfl⟩

theorem trans (h : o.Ages p) (h' : p.Ages q) : o.Ages q := by
  have hremaining := h.remaining
  have hremaining' := h'.remaining
  refine ⟨h.terms.trans h'.terms, Int.le_trans hremaining' hremaining, ?_⟩
  rcases h'.moved with rfl | hterminal | hless
  · exact h.moved
  · exact Or.inr (Or.inl hterminal)
  · exact Or.inr (Or.inr (by omega))

/-- **What can be matched and has as much remaining as was read is what was read.** -/
theorem eq (h : o.Ages p) (hmatch : p.matchable = true)
    (hremaining : p.remainingAmount.units = o.remainingAmount.units) : p = o := by
  rcases h.moved with rfl | hterminal | hless
  · rfl
  · rw [(matchable_iff.mp hmatch).1] at hterminal
    cases hterminal
  · omega

theorem cancelled (o : Order) (time : Instant) :
    o.Ages (Store.cancelled o time) :=
  ⟨⟨rfl, rfl, rfl, rfl, rfl, rfl⟩, Int.le_refl _, Or.inr (Or.inl rfl)⟩

end Order.Ages

/-! ### Clients -/

/-- The orders that an answer of the store shows as they are. -/
def StoreCall.shows : (c : StoreCall) → c.Answer → List Order
  | insert .., o => [o]
  | load _, o => o.toList
  | loadMany _, os => os
  | commit _, _ => []
  | cancel .., o => o.toList
  | executions _, _ => []
  | live, os => os

/--
A call as clients make them that have read no orders but these.  Amounts lie on a grid,
and a fill is worked out from two orders on opposite sides that could be matched when they
were read.
-/
def StoreCall.Fair (k : Nat) (reads : List Order) : StoreCall → Prop
  | insert request _ => OnGrid k request.amount.units
  | commit fill => ∃ o ∈ reads, ∃ p ∈ reads, o.matchable = true ∧ p.matchable = true ∧
    o.id ≠ p.id ∧ o.side = p.side.opposite ∧
    ∃ (scale : Nat) (time : Instant), o.fillWith p scale time = .ok fill
  | _ => True

namespace Store

/-- From a store and all that has been read of it, fair calls can come to another. -/
inductive Serves (k : Nat) (s : Store) (reads : List Order) : Store → List Order → Prop
  | here : Serves k s reads s reads
  | call {s' reads'} (_ : Serves k s reads s' reads') (c : StoreCall) (hfair : c.Fair k reads') :
      Serves k s reads (s'.perform c).2 (reads' ++ c.shows (s'.perform c).1)

/-! ### What every call keeps -/

/-- An order that adds up, unless it asks for nothing and nobody can match it. -/
def Settled (k : Nat) (s : Store) (o : Order) : Prop :=
  (o.Exact k ∧ ((s.executionsOf o.id).map (·.amount.units)).sum = o.executedAmount.units) ∨
    (o.remainingAmount.units ≤ 0 ∧ o.executedAmount.units = 0 ∧ s.executionsOf o.id = [])

theorem Settled.congr {k : Nat} {s s' : Store} {o : Order} (h : s.Settled k o)
    (hexecutions : s'.executionsOf o.id = s.executionsOf o.id) : s'.Settled k o := by
  unfold Settled
  rw [hexecutions]
  exact h

theorem Settled.exact {k : Nat} {s : Store} {o : Order} (h : s.Settled k o)
    (hmatch : o.matchable = true) : o.Exact k ∧
      ((s.executionsOf o.id).map (·.amount.units)).sum = o.executedAmount.units := by
  rcases h with h | ⟨hnothing, -, -⟩
  · exact h
  · exact absurd (Order.matchable_iff.mp hmatch).2 (Int.not_lt.mpr hnothing)

/-- What is so of a shared store and of all that has been read of it. -/
structure Coherent (k : Nat) (s : Store) (reads : List Order) : Prop where
  settled : ∀ o ∈ s.orders, s.Settled k o
  /-- What was read of an order has come to what is on record. -/
  known : ∀ o ∈ reads, ∃ p, s.find? o.id = some p ∧ o.Ages p
  issued : ∀ e ∈ s.executions, e.order < s.nextOrderId

variable {k : Nat} {s s' : Store} {reads reads' : List Order}

theorem coherent_empty (k : Nat) : Coherent k .empty [] :=
  ⟨List.forall_mem_nil _, List.forall_mem_nil _, List.forall_mem_nil _⟩

/-- What a call shows of the store can be counted among what has been read of it. -/
theorem Coherent.read (h : s.Coherent k reads) {os : List Order} (hos : ∀ o ∈ os, o ∈ s.orders) :
    s.Coherent k (reads ++ os) := by
  refine ⟨h.settled, fun o ho => ?_, h.issued⟩
  rcases List.mem_append.mp ho with hin | hin
  · exact h.known o hin
  · exact ⟨o, mem_orders_iff.mp (hos o hin), .refl o⟩

/-- All that has been read is known as long as the orders on record only age. -/
theorem Coherent.ages (h : s.Coherent k reads)
    (hages : ∀ o ∈ s.orders, ∃ p, s'.find? o.id = some p ∧ o.Ages p) :
    ∀ o ∈ reads, ∃ p, s'.find? o.id = some p ∧ o.Ages p := by
  intro o ho
  obtain ⟨p, hfind, hp⟩ := h.known o ho
  obtain ⟨hin, hid⟩ := mem_of_find? hfind
  obtain ⟨q, hfind', hq⟩ := hages p hin
  exact ⟨q, hid ▸ hfind', hp.trans hq⟩

theorem Coherent.place (h : s.Coherent k reads) {request : OrderRequest} (time : Instant)
    (hgrid : OnGrid k request.amount.units) :
    (s.insert request time).2.Coherent k reads := by
  have hnone : s.executionsOf s.nextOrderId = [] := by
    unfold executionsOf
    rw [List.filter_eq_nil_iff]
    intro e he
    have hne : e.order ≠ s.nextOrderId := Int.ne_of_lt (h.issued e he)
    simpa using hne
  refine ⟨fun o ho => ?_, h.ages fun o ho => ⟨o, ?_, .refl o⟩, fun e he => ?_⟩
  · rw [orders_insert] at ho
    rcases List.mem_append.mp ho with hin | hnew
    · exact h.settled o hin
    · rw [List.mem_singleton.mp hnew]
      by_cases hpositive : request.amount.positive = true
      · refine Or.inl ⟨.ofRequest hpositive hgrid, ?_⟩
        show ((s.executionsOf s.nextOrderId).map _).sum = Decimal.zero.units
        rw [hnone, units_zero]
        rfl
      · rw [positive_iff, Int.not_lt] at hpositive
        exact Or.inr ⟨hpositive, units_zero, hnone⟩
  · rw [find?_insert, if_neg (Int.ne_of_lt (s.fresh o ho)), mem_orders_iff.mp ho]
  · exact Int.lt_trans (h.issued e he) (Int.lt_succ _)

theorem Coherent.cancel (h : s.Coherent k reads) (id : OrderId) (time : Instant) :
    (s.cancel id time).2.Coherent k reads := by
  rcases s.cancel_cases id time with ⟨o, hfind, hlive, hcancel⟩ | hcancel
  · rw [hcancel]
    obtain ⟨hin, rfl⟩ := mem_of_find? hfind
    refine ⟨fun p hp => ?_, h.ages fun p hp => ?_, h.issued⟩
    · rcases mem_orders_replace hp with rfl | hp
      · rcases h.settled o hin with ⟨hexact, hsum⟩ | hnothing
        · exact Or.inl ⟨hexact.cancelled hlive time, hsum⟩
        · exact Or.inr hnothing
      · exact h.settled p hp
    · have hp := mem_orders_iff.mp hp
      rw [find?_cancelled hfind]
      by_cases hid : p.id = o.id
      · rw [hid, hfind, Option.some.injEq] at hp
        exact ⟨_, if_pos hid, hp ▸ .cancelled o time⟩
      · exact ⟨p, (if_neg hid).trans hp, .refl p⟩
  · rw [hcancel]
    exact h

/-- **A commit that goes through finds both orders just as they were read.** -/
theorem Coherent.takes (h : s.Coherent k reads) {o p q r : Order} (ho : o ∈ reads)
    (hp : p ∈ reads) {scale : Nat} {time : Instant} {fill : FillCommit}
    (hfill : o.fillWith p scale time = .ok fill) (t : s.Takes fill q r) : q = o ∧ r = p := by
  have hm := Order.fillWith_ok hfill
  constructor
  · obtain ⟨q', hfind, hages⟩ := h.known o ho
    have hfound := t.incomingFound
    rw [(Order.fill_ok hm.incomingFill).terms.id, hfind, Option.some.injEq] at hfound
    subst hfound
    exact hages.eq t.matchable (by rw [t.incomingExpected, hm.incomingExpected])
  · obtain ⟨r', hfind, hages⟩ := h.known p hp
    have hfound := t.counterFound
    rw [(Order.fill_ok hm.counterFill).terms.id, hfind, Option.some.injEq] at hfound
    subst hfound
    exact hages.eq t.counterMatchable (by rw [t.counterExpected, hm.counterExpected])

/-- One of the two orders of a fill that goes through. -/
theorem Settled.fill (hk : k ≤ 28) {o after : Order} (h : s.Settled k o)
    (hmatch : o.matchable = true) {amount price : Decimal} {scale : Nat} {time : Instant}
    (hfill : o.FilledTo amount price scale time after)
    (hsteps : (tenTo (28 - k) : Int) ∣ amount.units) {e : Execution}
    (hamount : e.amount = amount) (hexecutions : s'.executionsOf after.id =
      s.executionsOf o.id ++ [e]) :
    s'.Settled k after ∧ o.Ages after := by
  obtain ⟨hexact, hsum⟩ := h.exact hmatch
  obtain ⟨hafter, hexecuted, hremaining⟩ :=
    hexact.fill hk hfill (Order.ne_cancelled_of_matchable hmatch) hsteps
  have hpositive := hfill.positive
  refine ⟨Or.inl ⟨hafter, ?_⟩, hfill.terms, by omega, Or.inr (Or.inr (by omega))⟩
  rw [hexecutions, List.map_append, List.sum_append, hsum, hexecuted]
  simp [hamount]

theorem Coherent.commit (hk : k ≤ 28) (h : s.Coherent k reads) {fill : FillCommit}
    (hfair : (StoreCall.commit fill).Fair k reads) : (s.commit fill).2.Coherent k reads := by
  obtain ⟨o, ho, p, hp, hmatch, hmatch', hne, -, scale, time, hfill⟩ := hfair
  rcases s.commit_cases fill with ⟨q, r, t⟩ | ⟨hstore, -⟩
  · obtain ⟨rfl, rfl⟩ := h.takes ho hp hfill t
    have hm := Order.fillWith_ok hfill
    have hq := (mem_of_find? t.incomingFound).1
    have hr := (mem_of_find? t.counterFound).1
    have hincoming := Order.fill_ok hm.incomingFill
    have hcounter := Order.fill_ok hm.counterFill
    have hne' := Order.fillWith_ids_ne hfill hne
    have hexecutions := t.executionsOf_commit hne'
    have hsteps : (tenTo (28 - k) : Int) ∣ fill.amount.units := by
      rw [hm.amount]
      exact ((h.settled q hq).exact hmatch).1.least_steps ((h.settled r hr).exact hmatch').1
    have hi := (h.settled q hq).fill hk hmatch hincoming hsteps rfl
      ((hexecutions fill.incoming.id).trans (by rw [if_pos rfl, hincoming.terms.id]))
    have hc := (h.settled r hr).fill hk hmatch' hcounter hsteps rfl
      ((hexecutions fill.counter.id).trans
        (by rw [if_neg hne'.symm, if_pos rfl, hcounter.terms.id]))
    refine ⟨fun x hx => ?_, h.ages fun x hx => ?_, t.order_lt h.issued⟩
    · rw [mem_orders_iff, t.find?_commit] at hx
      split at hx
      · exact Option.some.inj hx ▸ hc.1
      · rename_i hcounter'
        split at hx
        · exact Option.some.inj hx ▸ hi.1
        · rename_i hincoming'
          refine (h.settled x (mem_orders_iff.mpr hx)).congr ?_
          rw [hexecutions, if_neg hincoming', if_neg hcounter', List.append_nil]
    · have hx := mem_orders_iff.mp hx
      rw [t.find?_commit]
      split
      · rename_i hid
        rw [hid, t.counterFound, Option.some.injEq] at hx
        exact ⟨_, rfl, hx ▸ hc.2⟩
      · split
        · rename_i hid
          rw [hid, t.incomingFound, Option.some.injEq] at hx
          exact ⟨_, rfl, hx ▸ hi.2⟩
        · exact ⟨x, hx, .refl x⟩
  · rw [hstore]
    exact h

/-- **Fair calls keep a shared store coherent**, and what they show is known. -/
theorem Serves.coherent (hk : k ≤ 28) (h : Serves k s reads s' reads')
    (hs : s.Coherent k reads) : s'.Coherent k reads' := by
  induction h with
  | here => exact hs
  | @call s' reads' _ c hfair ih =>
      cases c with
      | insert request time =>
          refine (ih.place time hfair).read fun o ho => ?_
          rw [List.mem_singleton.mp ho]
          exact List.mem_append_right _ (List.mem_singleton.mpr rfl)
      | commit fill => exact (ih.commit hk hfair).read (List.forall_mem_nil _)
      | cancel id time =>
          refine (ih.cancel id time).read fun o ho => ?_
          have hcancelled : (s'.cancel id time).1 = some o := Option.mem_toList.mp ho
          rcases s'.cancel_cases id time with ⟨p, hfind, -, hcancel⟩ | hcancel
          · obtain ⟨-, rfl⟩ := mem_of_find? hfind
            rw [hcancel, Option.some.injEq] at hcancelled
            show o ∈ (s'.cancel p.id time).2.orders
            rw [hcancel, mem_orders_iff, ← hcancelled, find?_cancelled hfind]
            exact if_pos rfl
          · rw [hcancel] at hcancelled
            cases hcancelled
      | load id =>
          exact ih.read fun o ho => (mem_of_find? (Option.mem_toList.mp ho)).1
      | loadMany ids =>
          refine ih.read fun o ho => ?_
          obtain ⟨id, -, hfind⟩ := List.mem_filterMap.mp ho
          exact (mem_of_find? hfind).1
      | live => exact ih.read fun o ho => (List.mem_filter.mp ho).1
      | executions id => exact ih.read (List.forall_mem_nil _)

/-! ### Orders that are terminal -/

/-- Nothing has changed about an order. -/
def Untouched (s s' : Store) (o : Order) : Prop :=
  s'.find? o.id = some o ∧ s'.executionsOf o.id = s.executionsOf o.id

theorem Lasts.untouched (h : s.Lasts s') {o : Order} (hfind : s.find? o.id = some o)
    (hterminal : o.status.terminal = true) : s.Untouched s' o := by
  have ho := mem_orders_iff.mpr hfind
  obtain ⟨entries, happend, hspared⟩ := h.ledger
  refine ⟨h.frozen o ho hterminal, ?_⟩
  have hnone : entries.filter (·.order == o.id) = [] := by
    rw [List.filter_eq_nil_iff]
    intro e he
    simpa using hspared o ho hterminal e he
  unfold executionsOf
  rw [happend, List.filter_append, hnone, List.append_nil]

theorem Serves.lasts (h : Serves k s reads s' reads') : s.Lasts s' := by
  induction h with
  | here => exact .refl s
  | call _ c _ ih => exact ih.trans (.perform _ c)

/--
**Fills worked out from stale reads lose no update.**  With the amounts on a grid, however
clients interleave their calls on one store: a commit that goes through finds both orders
as they were read, field for field; so an order has executed what its executions add up
to, none is filled beyond its amount, and none is touched after its cancellation.
-/
theorem Serves.lossless (hk : k ≤ 28) (h : Serves k .empty [] s reads) :
    (∀ o ∈ reads, ∀ p ∈ reads, o.matchable = true → p.matchable = true → o.id ≠ p.id →
      o.side = p.side.opposite → ∀ scale time fill, o.fillWith p scale time = .ok fill →
      ∀ receipt, (s.commit fill).1 = .committed receipt →
        s.find? o.id = some o ∧ s.find? p.id = some p) ∧
    (∀ o ∈ s.orders, ((s.executionsOf o.id).map (·.amount.units)).sum = o.executedAmount.units ∧
      (s.executionsOf o.id = [] ∨ o.executedAmount.units ≤ o.amount.units)) ∧
    ∀ o ∈ s.orders, o.status = .cancelled → ∀ s' reads', Serves k s reads s' reads' →
      s'.find? o.id = some o ∧ s'.executionsOf o.id = s.executionsOf o.id := by
  have hs := h.coherent hk (coherent_empty k)
  refine ⟨?_, fun o ho => ?_, fun o ho hcancelled s' reads' h' => ?_⟩
  · intro o ho p hp _ _ _ _ scale time fill hfill receipt hcommitted
    have hm := Order.fillWith_ok hfill
    rcases s.commit_cases fill with ⟨q, r, t⟩ | ⟨-, hturned⟩
    · obtain ⟨rfl, rfl⟩ := hs.takes ho hp hfill t
      rw [← (Order.fill_ok hm.incomingFill).terms.id, ← (Order.fill_ok hm.counterFill).terms.id]
      exact ⟨t.incomingFound, t.counterFound⟩
    · exact absurd hcommitted (hturned receipt)
  · rcases hs.settled o ho with ⟨hexact, hsum⟩ | ⟨-, hzero, hnone⟩
    · refine ⟨hsum, Or.inr ?_⟩
      have hsplit := hexact.split
      have hremaining := hexact.remaining
      omega
    · rw [hnone, hzero]
      exact ⟨rfl, Or.inl rfl⟩
  · exact h'.lasts.untouched (mem_orders_iff.mp ho) (by rw [hcancelled]; rfl)

/-- A request for the one ticker that is traded in the example. -/
def offer (side : Side) (amount : Nat) : OrderRequest :=
  ⟨"X", side, .ofDigits 1 0, .ofDigits amount 0⟩

/-- An order for 5 with two sell orders for 3 and 1, all of them just placed. -/
def waitingThree : Store :=
  (((empty.insert (offer .buy 5) .epoch).2.insert (offer .sell 3) .epoch).2.insert
    (offer .sell 1) .epoch).2

/-- The same after the first two have traded. -/
def waitingTwo : Store :=
  match waitingThree.find? 1, waitingThree.find? 2 with
  | some o, some p =>
    match o.fillWith p 2 .epoch with
    | .ok fill => (waitingThree.commit fill).2
    | .error _ => waitingThree
  | _, _ => waitingThree

/-- As it was read at first, the order for 5 can be filled no more; as it is now, it can. -/
theorem lossless_waitingTwo : ∃ reads, Serves 2 .empty [] waitingTwo reads ∧
    (∃ o ∈ reads, ∃ p ∈ reads, ∃ fill, o.fillWith p 2 .epoch = .ok fill ∧
      (waitingTwo.commit fill).1 = .incomingUnavailable) ∧
    (∃ o ∈ reads, ∃ p ∈ reads, ∃ fill receipt, o.fillWith p 2 .epoch = .ok fill ∧
      (waitingTwo.commit fill).1 = .committed receipt ∧
      waitingTwo.find? o.id = some o ∧ waitingTwo.find? p.id = some p) ∧
    ∃ o ∈ waitingTwo.orders, (waitingTwo.executionsOf o.id).length = 1 ∧
      ((waitingTwo.executionsOf o.id).map (·.amount.units)).sum = o.executedAmount.units := by
  have hgrid : ∀ o ∈ waitingThree.orders, OnGrid 2 o.amount.units :=
    onGrid_of_places (by decide) (by decide +kernel)
  have hoffer (id : OrderId) (request : OrderRequest)
      (hin : Order.ofRequest id request .epoch ∈ waitingThree.orders) :
      OnGrid 2 request.amount.units := hgrid _ hin
  have hthree : Serves 2 .empty [] waitingThree waitingThree.orders :=
    ((Serves.here.call (.insert (offer .buy 5) .epoch) (hoffer 1 _ (by decide +kernel))).call
      (.insert (offer .sell 3) .epoch) (hoffer 2 _ (by decide +kernel))).call
      (.insert (offer .sell 1) .epoch) (hoffer 3 _ (by decide +kernel))
  have hmeet : ∀ o ∈ waitingThree.find? 1, ∀ p ∈ waitingThree.find? 2, o.matchable = true ∧
      p.matchable = true ∧ o.id ≠ p.id ∧ o.side = p.side.opposite := by decide +kernel
  obtain ⟨reads, hserves, hreads⟩ : ∃ reads, Serves 2 .empty [] waitingTwo reads ∧
      ∀ o ∈ waitingThree.orders, o ∈ reads := by
    unfold waitingTwo
    split
    · rename_i o p ho hp
      obtain ⟨hmatch, hmatch', hne, hside⟩ := hmeet o ho p hp
      split
      · rename_i fill hfill
        exact ⟨_, hthree.call (.commit fill) ⟨o, (mem_of_find? ho).1, p, (mem_of_find? hp).1,
          hmatch, hmatch', hne, hside, 2, .epoch, hfill⟩, fun o ho => List.mem_append_left _ ho⟩
      · exact ⟨_, hthree, fun o ho => ho⟩
    · exact ⟨_, hthree, fun o ho => ho⟩
  have hlive := hserves.call .live trivial
  obtain ⟨hfresh, hsums, -⟩ := Serves.lossless (by decide) hlive
  refine ⟨_, hlive, ?_, ?_, ?_⟩
  · obtain ⟨o, ho, p, hp, hturned⟩ : ∃ o ∈ waitingThree.orders, ∃ p ∈ waitingThree.orders,
        (o.fillWith p 2 .epoch).toOption.map (fun fill => (waitingTwo.commit fill).1) =
          some .incomingUnavailable := by decide +kernel
    cases hfill : o.fillWith p 2 .epoch with
    | error e => rw [hfill] at hturned; cases hturned
    | ok fill =>
        rw [hfill] at hturned
        exact ⟨o, List.mem_append_left _ (hreads o ho), p, List.mem_append_left _ (hreads p hp),
          fill, hfill, Option.some.inj hturned⟩
  · obtain ⟨o, ho, p, hp, hmatch, hmatch', hne, hside, hcommitted⟩ : ∃ o ∈ waitingTwo.live,
        ∃ p ∈ waitingTwo.live, o.matchable = true ∧ p.matchable = true ∧ o.id ≠ p.id ∧
          o.side = p.side.opposite ∧ (o.fillWith p 2 .epoch).toOption.any (fun fill =>
            (waitingTwo.commit fill).1 = .committed (waitingTwo.executionPair fill)) := by
      decide +kernel
    cases hfill : o.fillWith p 2 .epoch with
    | error e => rw [hfill] at hcommitted; cases hcommitted
    | ok fill =>
        rw [hfill] at hcommitted
        have hcommitted := of_decide_eq_true hcommitted
        have ho := List.mem_append_right reads ho
        have hp := List.mem_append_right reads hp
        exact ⟨o, ho, p, hp, fill, _, hfill, hcommitted,
          hfresh o ho p hp hmatch hmatch' hne hside 2 .epoch fill hfill _ hcommitted⟩
  · obtain ⟨o, ho, hlength⟩ : ∃ o ∈ waitingTwo.orders,
        (waitingTwo.executionsOf o.id).length = 1 := by decide +kernel
    exact ⟨o, ho, hlength, (hsums o ho).1⟩

end Store

end Bourse
