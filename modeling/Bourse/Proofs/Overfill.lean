/-
What rounding can do to the limit of an order.

Nothing checks the executions of an order against its amount.  A fill is held against
what remains, and what remains is the amount less what was executed, both rounded.  So
an order can be filled beyond its amount, and what remains of it can even fall below
nothing; two sessions at the end of this file do so, with nothing but requests that are
accepted.

What is true is exact all the same.  The executed amount is the running sum of the
executions, and `swallowed` is what the roundings of that sum have taken from it.  An
order is within its amount if and only if its executed amount is and what was swallowed
still fits beside it.  In particular it is while no sum had to be rounded, whatever
happened to the differences: the remaining amount may be rounded up, but a fill that
takes all of it is then too fine to be added to what was executed before.
-/
import Bourse.Proofs.Replay

namespace Bourse

namespace Decimal

/-! ### Running sums -/

/-- What the roundings of a running sum take from it. -/
def swallowed : Decimal → List Decimal → Int
  | _, [] => 0
  | total, a :: as =>
    match total.add a with
    | some sum => total.units + a.units - sum.units + swallowed sum as
    | none => 0

/-- No step of a running sum is rounded. -/
inductive AddsExactly : Decimal → List Decimal → Prop
  | nil (total : Decimal) : AddsExactly total []
  | cons {total a sum : Decimal} {as : List Decimal} (hadd : total.add a = some sum)
      (hexact : sum.units = total.units + a.units) (h : AddsExactly sum as) :
      AddsExactly total (a :: as)

instance AddsExactly.decidable : (total : Decimal) → (as : List Decimal) →
    Decidable (AddsExactly total as)
  | total, [] => isTrue (.nil total)
  | total, a :: as =>
    match hadd : total.add a with
    | none => isFalse fun h => by cases h; simp_all
    | some sum =>
      have := AddsExactly.decidable sum as
      decidable_of_iff (sum.units = total.units + a.units ∧ AddsExactly sum as)
        ⟨fun h => .cons hadd h.1 h.2, fun h => by cases h; simp_all⟩

/-- A running sum is the exact one less what was swallowed. -/
theorem sum_eq_add_swallowed {as : List Decimal} {total sum : Decimal}
    (h : as.foldlM add total = some sum) :
    total.units + (as.map units).sum = sum.units + swallowed total as := by
  induction as generalizing total with
  | nil =>
      cases h
      rfl
  | cons a as ih =>
      rw [List.foldlM_cons] at h
      obtain ⟨next, hnext, h⟩ := Option.bind_eq_some_iff.mp h
      have := ih h
      unfold swallowed
      rw [hnext, List.map_cons, List.sum_cons]
      dsimp only
      omega

/-- Adding part of a rounded difference passes the whole only if the sum is rounded. -/
theorem le_of_add_exact {whole part left a sum : Decimal} (hpart : 0 ≤ part.units)
    (hle : part.units ≤ whole.units) (hleft : whole.sub part = some left)
    (ha : a.units ≤ left.units) (hsum : sum.units = part.units + a.units) :
    sum.units ≤ whole.units := by
  by_contra hover
  have hrounds := sub_roundsTo hleft
  obtain ⟨q, hnear⟩ := hrounds.near
  have hnonneg := hrounds.nonneg (by omega)
  -- `a` takes all that is left, and that was rounded up.
  have hall : left.units ≤ a.units := hrounds.le (d := a) (by omega)
  have hexact := hnear.le_exact
  have hstep := tenTo_pos q
  rcases hnear.coarse with rfl | ⟨hcoarse, -⟩
  · have := hnear.eq_of_zero
    omega
  · -- The step of that rounding divides the whole and the sum, but it is too coarse for both.
    have hwhole : tenTo q ∣ whole.units.natAbs := dvd_natAbs_units whole (by omega)
    have hsum' : tenTo q ∣ sum.units.natAbs := dvd_natAbs_units sum (by omega)
    have := Nat.le_of_dvd (by omega) (Nat.dvd_sub hsum' hwhole)
    omega

end Decimal

open Decimal

/-! ### Sums along a replay -/

namespace Order

variable {scale : Nat} {o p : Order} {executions : List Execution}

theorem replay_cons {e : Execution} (h : o.replay scale (e :: executions) = .ok p) :
    ∃ q, o.FilledTo e.amount e.price scale e.executedAt q ∧ q.replay scale executions = .ok p := by
  unfold replay at h
  rw [List.foldlM_cons] at h
  obtain ⟨q, hfill, hrest⟩ := Except.bind_ok h
  exact ⟨q, fill_ok hfill, hrest⟩

/-- The executed amount runs along with the executions. -/
theorem replay_executed (h : o.replay scale executions = .ok p) :
    (executions.map (·.amount)).foldlM add o.executedAmount = some p.executedAmount := by
  induction executions generalizing o with
  | nil =>
      cases h
      rfl
  | cons e es ih =>
      obtain ⟨q, hfill, hrest⟩ := replay_cons h
      rw [List.map_cons, List.foldlM_cons, hfill.executed]
      exact ih hrest

/-- What remains is always the difference between the amount and what was executed. -/
theorem replay_remaining (h : o.replay scale executions = .ok p)
    (ho : o.amount.sub o.executedAmount = some o.remainingAmount) :
    p.amount.sub p.executedAmount = some p.remainingAmount ∧ p.amount = o.amount := by
  induction executions generalizing o with
  | nil =>
      cases h
      exact ⟨ho, rfl⟩
  | cons e es ih =>
      obtain ⟨q, hfill, hrest⟩ := replay_cons h
      have hq : q.amount.sub q.executedAmount = some q.remainingAmount := by
        rw [hfill.terms.amount]
        exact hfill.remaining
      obtain ⟨hp, hamount⟩ := ih hrest hq
      exact ⟨hp, hamount.trans hfill.terms.amount⟩

/-- While no sum is rounded, the executed amount stays within the amount. -/
theorem replay_within (h : o.replay scale executions = .ok p)
    (ho : o.amount.sub o.executedAmount = some o.remainingAmount)
    (hnonneg : 0 ≤ o.executedAmount.units) (hle : o.executedAmount.units ≤ o.amount.units)
    (hexact : AddsExactly o.executedAmount (executions.map (·.amount))) :
    p.executedAmount.units ≤ p.amount.units ∧
      p.executedAmount.units =
        o.executedAmount.units + (executions.map (·.amount.units)).sum := by
  induction executions generalizing o with
  | nil =>
      cases h
      exact ⟨hle, (Int.add_zero _).symm⟩
  | cons e es ih =>
      obtain ⟨q, hfill, hrest⟩ := replay_cons h
      rw [List.map_cons] at hexact
      obtain _ | ⟨hsum, hunits, hexact⟩ := hexact
      rw [hfill.executed, Option.some.injEq] at hsum
      subst hsum
      have hpos := hfill.positive
      have hq : q.amount.sub q.executedAmount = some q.remainingAmount := by
        rw [hfill.terms.amount]
        exact hfill.remaining
      have hwithin : q.executedAmount.units ≤ q.amount.units := by
        rw [hfill.terms.amount]
        exact le_of_add_exact hnonneg hle ho hfill.within hunits
      obtain ⟨hp, htotal⟩ := ih hrest hq (by omega) hwithin hexact
      refine ⟨hp, ?_⟩
      rw [htotal, hunits, List.map_cons, List.sum_cons]
      omega

end Order

/-! ### The limit of an order -/

theorem Decimal.sub_zero {a : Decimal} (h : 0 < a.units) : a.sub .zero = some a := by
  have hne : a.isZero = false := by
    rw [← Bool.not_eq_true, isZero_iff]
    omega
  unfold sub add
  rw [hne]
  rfl

namespace Store

variable {scale : Nat} {s : Store}

theorem History.amount_positive (h : History scale s) : ∀ o ∈ s.orders, 0 < o.amount.units := by
  suffices ∀ a ∈ s.orders.map (·.amount), 0 < a.units from fun o ho =>
    this _ (List.mem_map_of_mem ho)
  induction h with
  | empty => exact List.forall_mem_nil _
  | @place s _ request time hamount _ ih =>
      rw [orders_insert, List.map_append, List.forall_mem_append]
      exact ⟨ih, List.forall_mem_singleton.mpr (positive_iff.mp hamount)⟩
  | cancel _ hfind _ _ ih =>
      rw [map_cancelled _ hfind rfl]
      exact ih
  | trade _ t ih =>
      rw [t.map_commit _ t.incomingFilled.terms.amount t.counterFilled.terms.amount]
      exact ih

end Store

/--
**When an order is filled within its amount.**  Nothing negative remains of an order
and its executions stay within its amount exactly if its executed amount does not pass
its amount and what the roundings of that sum have swallowed still fits beside it.  Both
are so while no sum was rounded.
-/
theorem Floor.Seen.within_amount_iff {scale : Nat} {f : Floor} (h : f.Seen scale) {o : Order}
    (ho : o ∈ f.store.orders) :
    ((0 ≤ o.remainingAmount.units ∧
        ((f.store.executionsOf o.id).map (·.amount.units)).sum ≤ o.amount.units) ↔
      o.executedAmount.units ≤ o.amount.units ∧
        swallowed .zero ((f.store.executionsOf o.id).map (·.amount)) ≤
          o.amount.units - o.executedAmount.units) ∧
    (AddsExactly .zero ((f.store.executionsOf o.id).map (·.amount)) →
      0 ≤ o.remainingAmount.units ∧
        ((f.store.executionsOf o.id).map (·.amount.units)).sum ≤ o.amount.units) := by
  have hhistory := h.orderly.history
  have hpos := hhistory.amount_positive o ho
  have hplaced : (Store.initially o).amount.sub (Store.initially o).executedAmount =
      some (Store.initially o).remainingAmount := sub_zero hpos
  have hzero : (Store.initially o).executedAmount.units = 0 := units_zero
  obtain ⟨p, hreplay, hlive, hcancelled⟩ := hhistory.replays o ho
  -- A cancellation leaves the amounts as the replay has them.
  obtain ⟨hexecuted, hremaining⟩ : o.executedAmount = p.executedAmount ∧
      o.remainingAmount = p.remainingAmount := by
    by_cases hc : o.status = .cancelled
    · rw [hcancelled hc]
      exact ⟨rfl, rfl⟩
    · rw [hlive hc]
      exact ⟨rfl, rfl⟩
  obtain ⟨hsub, hamount⟩ := Order.replay_remaining hreplay hplaced
  have hamount' : p.amount.units = o.amount.units := congrArg _ hamount
  have hsign := (sub_roundsTo hsub).nonneg_iff
  have hsum : ((f.store.executionsOf o.id).map (·.amount.units)).sum = p.executedAmount.units +
      swallowed .zero ((f.store.executionsOf o.id).map (·.amount)) := by
    have hrunning := sum_eq_add_swallowed (Order.replay_executed hreplay)
    rw [hzero, Int.zero_add, List.map_map] at hrunning
    exact hrunning
  rw [hexecuted, hremaining]
  refine ⟨?_, fun hexact => ?_⟩
  · constructor
    · rintro ⟨hleft, hwithin⟩
      exact ⟨by omega, by omega⟩
    · rintro ⟨hwithin, hfits⟩
      exact ⟨by omega, by omega⟩
  · obtain ⟨hwithin, htotal⟩ := Order.replay_within hreplay hplaced (by omega)
      (by rw [hzero]; exact Int.le_of_lt hpos) hexact
    exact ⟨by omega, by omega⟩

/-- Fills of 1, of 1.50 and of the finest amount there is, of an order for 3.5. -/
def Floor.fineSells : Floor :=
  session 2 .epoch [.order .buy (.ofDigits 1 0) (.ofDigits 35 1),
    .order .sell (.ofDigits 1 0) (.ofDigits 1 0), .order .sell (.ofDigits 1 0) (.ofDigits 150 2),
    .order .sell (.ofDigits 1 0) (.ofDigits 1 28), .tick]

theorem Floor.within_amount_fineSells :
    fineSells.Seen 2 ∧ ∃ o ∈ fineSells.store.orders,
      (fineSells.store.executionsOf o.id).length = 3 ∧
      AddsExactly .zero ((fineSells.store.executionsOf o.id).map (·.amount)) ∧
      0 ≤ o.remainingAmount.units ∧
      ((fineSells.store.executionsOf o.id).map (·.amount.units)).sum ≤ o.amount.units := by
  have hseen : fineSells.Seen 2 := (reached_session _ _ _).seen
  obtain ⟨o, ho, hlength, hexact⟩ : ∃ o ∈ fineSells.store.orders,
      (fineSells.store.executionsOf o.id).length = 3 ∧
        AddsExactly .zero ((fineSells.store.executionsOf o.id).map (·.amount)) := by
    decide +kernel
  exact ⟨hseen, o, ho, hlength, hexact, (Floor.Seen.within_amount_iff hseen ho).2 hexact⟩

/-! ### Two sessions that pass the limit -/

/--
An order for the greatest amount meets one for that less 1 and then three for 0.5.  There
is no room for the half, so the executed amount stays where it was after the first.
-/
def Floor.swallowing : Floor :=
  session 2 .epoch [.order .buy (.ofDigits 1 0) .greatest,
    .order .sell (.ofDigits 1 0) (.ofDigits 79228162514264337593543950334 0),
    .order .sell (.ofDigits 1 0) (.ofDigits 5 1), .order .sell (.ofDigits 1 0) (.ofDigits 5 1),
    .order .sell (.ofDigits 1 0) (.ofDigits 5 1), .tick]

/--
An order meets one for 1.5, and what remains is rounded up; then it meets one for all of
that, and the executed amount is rounded up as well.
-/
def Floor.overdrawn : Floor :=
  session 2 .epoch [
    .order .buy (.ofDigits 1 0) (.ofDigits 79228162514264337593543950333 0),
    .order .sell (.ofDigits 1 0) (.ofDigits 15 1),
    .order .sell (.ofDigits 1 0) (.ofDigits 79228162514264337593543950332 0), .tick]

/-- **Without a failing call, an order can be filled beyond its amount**, and overdrawn. -/
theorem Floor.not_within_amount :
    (swallowing.Reached 2 ∧ (∀ e ∈ swallowing.log, e.served = true) ∧
      ∃ o ∈ swallowing.store.orders,
        o.amount.units < ((swallowing.store.executionsOf o.id).map (·.amount.units)).sum) ∧
    (overdrawn.Reached 2 ∧ (∀ e ∈ overdrawn.log, e.served = true) ∧
      ∃ o ∈ overdrawn.store.orders, o.remainingAmount.units < 0 ∧
        o.amount.units < ((overdrawn.store.executionsOf o.id).map (·.amount.units)).sum) := by
  refine ⟨⟨reached_session _ _ _, ?_, ?_⟩, reached_session _ _ _, ?_, ?_⟩ <;> decide +kernel

end Bourse
