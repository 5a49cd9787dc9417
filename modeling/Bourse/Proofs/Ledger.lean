/-
The ledger is written in pairs.

A fill is recorded twice, once for the order that was being processed and once for the
order that was waiting, and the two entries tell of the same trade from both ends.  The
price is the limit of the one that was waiting, and neither order trades beyond its own.

The ledger only grows at its end and by two entries at a time, so an entry keeps its place
and its partner.  What the pair says of its orders stays right because an order keeps its
terms, whatever else becomes of it: `SameTerms` carries a pair from one store to the next.
-/
import Bourse.Proofs.Seen

namespace Bourse

open Decimal

namespace Order

/-- Does the price respect what the order asks for? -/
structure KeepsLimit (o : Order) (price : Decimal) : Prop where
  /-- Whoever buys pays at most his limit. -/
  buys : o.side = .buy → price ≤ o.price
  /-- Whoever sells gets at least his limit. -/
  sells : o.side = .sell → o.price ≤ price

theorem keepsLimit_of_accepts {o : Order} {price : Decimal} (h : o.accepts price = true) :
    o.KeepsLimit price := by
  unfold accepts at h
  constructor
  · intro hbuy
    simpa [hbuy] using h
  · intro hsell
    simpa [hsell] using h

theorem keepsLimit_self (o : Order) : o.KeepsLimit o.price :=
  ⟨fun _ => Int.le_refl _, fun _ => Int.le_refl _⟩

theorem SameTerms.keepsLimit {o p : Order} (h : o.SameTerms p) {price : Decimal}
    (hlimit : o.KeepsLimit price) : p.KeepsLimit price := by
  refine ⟨?_, ?_⟩
  · rw [h.side, h.price]
    exact hlimit.buys
  · rw [h.side, h.price]
    exact hlimit.sells

/-- `p` was waiting for orders such as `o`, and its price keeps both limits. -/
structure Suits (o p : Order) : Prop where
  side : p.side = o.side.opposite
  ticker : p.ticker = o.ticker
  limit : o.KeepsLimit p.price
  ownLimit : p.KeepsLimit p.price

theorem Suits.of_terms {o o' p p' : Order} (h : o.Suits p) (ho : o.SameTerms o')
    (hp : p.SameTerms p') : o'.Suits p' := by
  refine ⟨?_, ?_, ?_, ?_⟩
  · rw [hp.side, ho.side, h.side]
  · rw [hp.ticker, ho.ticker, h.ticker]
  · rw [hp.price]
    exact ho.keepsLimit h.limit
  · rw [hp.price]
    exact hp.keepsLimit h.ownLimit

end Order

namespace Store

/-- Two entries of the ledger that tell of one trade. -/
structure Paired (s : Store) (a b : Execution) : Prop where
  order : b.order = a.counterOrder
  counterOrder : b.counterOrder = a.order
  price : b.price = a.price
  amount : b.amount = a.amount
  executedAt : b.executedAt = a.executedAt
  positive : 0 < a.amount.units
  /-- Both orders are on record, and the price is the limit of the second one. -/
  orders : ∃ o ∈ s.orders, ∃ p ∈ s.orders, o.id = a.order ∧ p.id = b.order ∧
    a.price = p.price ∧ o.Suits p

/-- The entries are numbered from one on, and each two of them are a pair. -/
structure Ledger (s : Store) : Prop where
  even : ∃ n, s.executions.length = 2 * n
  numbered : ∀ (i : Nat) (e : Execution), s.executions[i]? = some e → e.id = (i : Int) + 1
  paired : ∀ (j : Nat) (a b : Execution), s.executions[2 * j]? = some a →
    s.executions[2 * j + 1]? = some b → s.Paired a b

/-! ### Orders keep their terms -/

/-- Every order is still on record with the terms it had. -/
def KeepsTerms (s s' : Store) : Prop := ∀ o ∈ s.orders, ∃ p ∈ s'.orders, o.SameTerms p

theorem keepsTerms_of_find? {s s' : Store}
    (h : ∀ o, s.find? o.id = some o → ∃ p, s'.find? o.id = some p ∧ o.SameTerms p) :
    s.KeepsTerms s' := by
  intro o ho
  obtain ⟨p, hp, hterms⟩ := h o (mem_orders_iff.mp ho)
  exact ⟨p, (mem_of_find? hp).1, hterms⟩

theorem keepsTerms_insert (s : Store) (request : OrderRequest) (time : Instant) :
    s.KeepsTerms (s.insert request time).2 := by
  intro o ho
  rw [orders_insert]
  exact ⟨o, List.mem_append_left _ ho, .refl o⟩

theorem keepsTerms_cancelled {s : Store} {o : Order} (hfind : s.find? o.id = some o)
    (time : Instant) : s.KeepsTerms (s.replace (cancelled o time)) := by
  refine keepsTerms_of_find? fun p hp => ?_
  rw [find?_cancelled hfind]
  by_cases hid : p.id = o.id
  · rw [hid, hfind, Option.some.injEq] at hp
    exact ⟨cancelled o time, if_pos hid, hp ▸ ⟨rfl, rfl, rfl, rfl, rfl, rfl⟩⟩
  · exact ⟨p, (if_neg hid).trans hp, .refl p⟩

variable {scale : Nat} {s : Store} {incoming counter : Order} {fill : FillCommit}

theorem Trade.keepsTerms (t : s.Trade scale incoming counter fill) :
    s.KeepsTerms (s.commit fill).2 := by
  refine keepsTerms_of_find? fun p hp => ?_
  rw [t.find?_commit]
  by_cases hcounter : p.id = counter.id
  · rw [hcounter, t.counterFound, Option.some.injEq] at hp
    exact ⟨fill.counter, if_pos hcounter, hp ▸ t.counterFilled.terms⟩
  · by_cases hincoming : p.id = incoming.id
    · rw [hincoming, t.incomingFound, Option.some.injEq] at hp
      exact ⟨fill.incoming, by simp [hincoming, t.ids_ne], hp ▸ t.incomingFilled.terms⟩
    · exact ⟨p, by simp [hcounter, hincoming, hp], .refl p⟩

/-- A pair stays one as long as the orders keep their terms. -/
theorem Paired.keepsTerms {s s' : Store} {a b : Execution} (h : s.Paired a b)
    (hterms : s.KeepsTerms s') : s'.Paired a b := by
  obtain ⟨o, ho, p, hp, hoid, hpid, hprice, hsuits⟩ := h.orders
  obtain ⟨o', ho', hoo'⟩ := hterms o ho
  obtain ⟨p', hp', hpp'⟩ := hterms p hp
  exact ⟨h.order, h.counterOrder, h.price, h.amount, h.executedAt, h.positive, o', ho', p', hp',
    hoo'.id.trans hoid, hpp'.id.trans hpid, hprice.trans hpp'.price.symm,
    hsuits.of_terms hoo' hpp'⟩

/-! ### A trade is a pair -/

theorem Trade.suits (t : s.Trade scale incoming counter fill) : incoming.Suits counter := by
  obtain ⟨-, hside, hticker⟩ := Order.opposes_iff.mp t.opposes
  exact ⟨hside, hticker, Order.keepsLimit_of_accepts t.accepts, counter.keepsLimit_self⟩

/-- The two executions that a trade leaves are a pair. -/
theorem Trade.paired (t : s.Trade scale incoming counter fill) :
    (s.commit fill).2.Paired (s.executionPair fill).incoming (s.executionPair fill).counter := by
  have hpaired : s.Paired (s.executionPair fill).incoming (s.executionPair fill).counter := by
    refine ⟨rfl, rfl, rfl, rfl, rfl, t.incomingFilled.positive, incoming,
      (mem_of_find? t.incomingFound).1, counter, (mem_of_find? t.counterFound).1,
      t.incoming_id.symm, t.counter_id.symm, t.meeting.price, t.suits⟩
  exact hpaired.keepsTerms t.keepsTerms

/-! ### The whole ledger -/

theorem Ledger.keepsTerms {s s' : Store} (h : s.Ledger) (hterms : s.KeepsTerms s')
    (hsame : s'.executions = s.executions) : s'.Ledger := by
  refine ⟨hsame ▸ h.even, hsame ▸ h.numbered, ?_⟩
  rw [hsame]
  exact fun j a b ha hb => (h.paired j a b ha hb).keepsTerms hterms

/-- Two entries at the end of a ledger of even length are a pair of their own. -/
theorem Ledger.trade (h : s.Ledger) (hnext : s.nextExecutionId = s.executions.length + 1)
    (t : s.Trade scale incoming counter fill) : (s.commit fill).2.Ledger := by
  obtain ⟨n, hn⟩ := h.even
  obtain ⟨-, hexecutions, -, -, -⟩ := t.committed
  have hpaired := t.paired
  have hterms := t.keepsTerms
  refine ⟨⟨n + 1, ?_⟩, ?_, ?_⟩
  · rw [hexecutions, List.length_append, hn]
    rfl
  · intro i e he
    rw [hexecutions, List.getElem?_append] at he
    split at he
    · exact h.numbered i e he
    · rename_i hi
      obtain ⟨d, rfl⟩ := Nat.exists_eq_add_of_le (Nat.not_lt.mp hi)
      rw [Nat.add_sub_cancel_left] at he
      match d with
      | 0 =>
          cases he
          exact hnext
      | 1 =>
          cases he
          show s.nextExecutionId + 1 = _
          rw [hnext]
          rfl
  · intro j a b ha hb
    rw [hexecutions, List.getElem?_append] at ha hb
    rcases Nat.lt_trichotomy j n with hj | rfl | hj
    · rw [if_pos (by omega)] at ha hb
      exact (h.paired j a b ha hb).keepsTerms hterms
    · rw [if_neg (by omega), hn, Nat.sub_self] at ha
      rw [if_neg (by omega), hn, Nat.add_sub_cancel_left] at hb
      cases ha
      cases hb
      exact hpaired
    · rw [if_neg (by omega), List.getElem?_eq_none (by simp; omega)] at ha
      cases ha

theorem History.nextExecutionId (h : s.History scale) :
    s.nextExecutionId = s.executions.length + 1 := by
  induction h with
  | empty => rfl
  | place _ _ _ _ _ ih => exact ih
  | cancel _ _ _ _ ih => exact ih
  | trade _ t ih =>
      obtain ⟨-, hexecutions, -, -, hnext⟩ := t.committed
      rw [hnext, hexecutions, ih]
      simp [Int.add_assoc]

theorem History.ledger_kept (h : s.History scale) : s.Ledger := by
  induction h with
  | empty => exact ⟨⟨0, rfl⟩, fun _ _ he => (nomatch he), fun _ _ _ ha => (nomatch ha)⟩
  | place _ request time _ _ ih => exact ih.keepsTerms (keepsTerms_insert _ request time) rfl
  | cancel _ hfind _ time ih => exact ih.keepsTerms (keepsTerms_cancelled hfind time) rfl
  | trade h t ih => exact ih.trade h.nextExecutionId t

end Store

/--
**The ledger is paired, and no pair breaks a limit**, at every moment and whatever has
failed, however large or small prices and amounts are.
-/
theorem Floor.Seen.ledger {scale : Nat} {f : Floor} (h : f.Seen scale) : f.store.Ledger :=
  h.orderly.history.ledger_kept

/-- A sell order that meets a buy order at 2 is met in turn by a buy order at 1. -/
def Floor.bothWays : Floor :=
  session 2 .epoch [.order .sell (.ofDigits 1 0) (.ofDigits 35 1),
    .order .buy (.ofDigits 2 0) (.ofDigits 1 0), .process 1 "X",
    .order .buy (.ofDigits 3 0) (.ofDigits 150 2), .tick]

theorem Floor.ledger_bothWays :
    bothWays.Seen 2 ∧ bothWays.store.executions.map (fun e => (e.id, e.order, e.counterOrder)) =
      [(1, 1, 2), (2, 2, 1), (3, 3, 1), (4, 1, 3)] ∧ bothWays.store.Ledger := by
  have hseen : bothWays.Seen 2 := (reached_session _ _ _).seen
  exact ⟨hseen, by decide +kernel, Floor.Seen.ledger hseen⟩

end Bourse
