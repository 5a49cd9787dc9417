/-
What orders still want, and what fills take of it.

What all orders on one side still want is a measure that nothing in a tick can raise: a
fill takes its amount from it, on both sides, and no other call of a tick touches an
order.  So what a tick fills adds up to no more than what was wanted when it began.

Amounts are taken to lie on a grid, or else what remains of an order need not be what it
was less the fill.
-/
import Bourse.Proofs.Alone
import Bourse.Proofs.Conservation
import Bourse.Proofs.Cut
import Bourse.Proofs.Lasting
import Bourse.Proofs.Ledger
import Mathlib.Algebra.Order.BigOperators.Group.List

namespace Bourse

open Decimal

variable {scale k : Nat}

namespace Order

/-- What is still to be traded of an order. -/
def wanted (o : Order) : Int := if o.matchable = true then o.remainingAmount.units else 0

theorem wanted_nonneg (o : Order) : 0 ≤ o.wanted := by
  unfold wanted
  split
  · rename_i hmatch
    exact Int.le_of_lt (matchable_iff.mp hmatch).2
  · exact Int.le_refl 0

namespace Exact

variable {o p : Order}

/-- Of an order that was not cancelled, all is wanted that remains. -/
theorem wanted_eq (h : o.Exact k) (hlive : o.status ≠ .cancelled) :
    o.wanted = o.remainingAmount.units := by
  unfold wanted
  by_cases hmatch : o.matchable = true
  · rw [if_pos hmatch]
  · rw [if_neg hmatch]
    exact (h.filled.mp (h.filled_of_not_matchable hlive (by simpa using hmatch))).symm

/-- What is executed of an order is taken from what it wants. -/
theorem spent (ho : o.Exact k) (hp : p.Exact k) (hterms : o.SameTerms p)
    (hmatch : o.matchable = true) (hlive : p.status ≠ .cancelled) {amount : Int}
    (hexecuted : p.executedAmount.units = o.executedAmount.units + amount) :
    p.wanted + amount = o.wanted ∧ (tenTo (28 - k) : Int) ∣ amount := by
  refine ⟨?_, ?_⟩
  · rw [hp.wanted_eq hlive, ho.wanted_eq (ne_cancelled_of_matchable hmatch)]
    have hsplit := ho.split
    have hsplit' := hp.split
    rw [hterms.amount] at hsplit'
    omega
  · rw [show amount = p.executedAmount.units - o.executedAmount.units by omega]
    exact Int.dvd_sub hp.steps ho.steps

end Exact

end Order

namespace Store

variable {s : Store} {fill : FillCommit} {o p : Order}

/-- What all orders on one side still want. -/
def demand (s : Store) (side : Side) : Int :=
  (s.orders.map fun o => if o.side = side then o.wanted else 0).sum

theorem demand_nonneg (s : Store) (side : Side) : 0 ≤ s.demand side := by
  refine List.sum_nonneg fun x hx => ?_
  obtain ⟨o, -, rfl⟩ := List.mem_map.mp hx
  split
  · exact o.wanted_nonneg
  · exact Int.le_refl 0

/-- The two entries of a pair are of different orders. -/
theorem Paired.order_ne {a b : Execution} (h : s.Paired a b) : a.order ≠ b.order := by
  intro hsame
  obtain ⟨o, ho, p, hp, hoid, hpid, -, hsuits⟩ := h.orders
  obtain rfl := eq_of_id_eq ho hp (by rw [hoid, hpid, hsame])
  exact Side.opposite_ne _ hsuits.side.symm

/-- What a fill that goes through writes into a ledger is a pair, if it is one still. -/
theorem Takes.paired (h : s.Takes fill o p) (hs : s.Ledger) (hs' : (s.commit fill).2.Ledger) :
    (s.commit fill).2.Paired (s.executionPair fill).incoming (s.executionPair fill).counter := by
  obtain ⟨n, hn⟩ := hs.even
  obtain ⟨-, hexecutions, -, -, -⟩ := h.committed
  refine hs'.paired n _ _ ?_ ?_
  · rw [hexecutions, List.getElem?_append_right (by omega), hn, Nat.sub_self]
    rfl
  · rw [hexecutions, List.getElem?_append_right (by omega), hn, Nat.add_sub_cancel_left]
    rfl

/-- The two orders of a fill are on record as it has left them. -/
theorem Takes.find?_filled (h : s.Takes fill o p) (hne : fill.incoming.id ≠ fill.counter.id) :
    (s.commit fill).2.find? fill.incoming.id = some fill.incoming ∧
      (s.commit fill).2.find? fill.counter.id = some fill.counter := by
  rw [h.find?_commit, h.find?_commit, if_neg hne, if_pos rfl, if_pos rfl]
  exact ⟨rfl, rfl⟩

/-- Those who trade suit each other, as the ledger has it. -/
theorem Takes.suits (h : s.Takes fill o p)
    (hpaired : (s.commit fill).2.Paired (s.executionPair fill).incoming
      (s.executionPair fill).counter) : fill.incoming.Suits fill.counter := by
  obtain ⟨hincoming, hcounter⟩ := h.find?_filled hpaired.order_ne
  obtain ⟨q, hq, r, hr, hqid, hrid, -, hsuits⟩ := hpaired.orders
  obtain rfl := eq_of_id_eq hq (mem_of_find? hincoming).1 hqid
  obtain rfl := eq_of_id_eq hr (mem_of_find? hcounter).1 hrid
  exact hsuits

/-- Those who trade are on opposite sides, as the ledger has it. -/
theorem Takes.counter_side (h : s.Takes fill o p)
    (hpaired : (s.commit fill).2.Paired (s.executionPair fill).incoming
      (s.executionPair fill).counter) : fill.counter.side = fill.incoming.side.opposite :=
  (h.suits hpaired).side

end Store

/-- What some fills add up to, in units. -/
def volume (fills : List FillCommit) : Int := (fills.map (·.amount.units)).sum

theorem volume_append (fills more : List FillCommit) :
    volume (fills ++ more) = volume fills + volume more := by
  unfold volume
  rw [List.map_append, List.sum_append]

namespace Floor

variable {f g h : Floor}

/-- A call that has put nothing on the ledger has committed no fill. -/
theorem fill?_of_recorded {c : StoreCall} {a : c.Answer} (h : c.recorded a = []) :
    Answered.fill? ⟨.store c, .ok a⟩ = none := by
  cases c with
  | commit fill => cases a with
    | committed receipt => cases h
    | counterUnavailable | incomingUnavailable => rfl
  | _ => rfl

/-- A call that only trades writes nothing, or it commits a fill. -/
theorem Trades.cases {c : Call} {a : c.Answer} (hmay : f.May c a) (h : f.Trades (f.after c a)) :
    ((f.after c a).store = f.store ∧ Answered.fill? ⟨c, a⟩ = none) ∨
      ∃ fill receipt, (⟨c, a⟩ : Answered) =
        ⟨.store (.commit fill), .ok (.committed receipt)⟩ := by
  cases c with
  | store c =>
      cases a with
      | error e =>
          refine Or.inl ⟨rfl, ?_⟩
          cases c <;> rfl
      | ok a =>
          cases (show a = (f.store.perform c).1 from hmay)
          rcases f.store.perform_cases c with ⟨request, time, rfl⟩ | ⟨fill, o, p, rfl, takes⟩ |
            ⟨o, time, rfl, hfind, hlive, hcancel⟩ | ⟨hsame, -, hrecorded⟩
          · -- It would have placed an order.
            have hfind : (f.store.insert request time).2.find? f.store.nextOrderId =
                some (Order.ofRequest f.store.nextOrderId request time) := by
              rw [Store.find?_insert, if_pos rfl]
            obtain ⟨o, ho⟩ := h.known _ _ hfind
            rw [Store.find?_nextOrderId] at ho
            cases ho
          · refine Or.inr ⟨fill, f.store.executionPair fill, ?_⟩
            rw [show (f.store.perform (.commit fill)).1 = _ from takes.committed.1]
          · -- It would have cancelled an order.
            have hfind' : (f.store.cancel o.id time).2.find? o.id =
                some (Store.cancelled o time) := by
              rw [hcancel, Store.find?_cancelled hfind, if_pos rfl]
            have hcancelled := h.uncancelled _ _ _ hfind hfind' rfl
            rw [hcancelled] at hlive
            cases hlive
          · exact Or.inl ⟨hsame, fill?_of_recorded hrecorded⟩
  | _ => exact Or.inl ⟨rfl, rfl⟩

/-- On a grid of `10 ^ -k`, what was filled on the way was taken from the demand. -/
structure Spends (k : Nat) (f g : Floor) : Prop where
  log : f.log <+: g.log
  fills : ∀ fill ∈ f.fillsSince g, Whole k fill.amount.units
  demand : ∀ side, volume (f.fillsSince g) + g.store.demand side = f.store.demand side

theorem Spends.of_same {c : Call} {a : c.Answer} (hstore : (f.after c a).store = f.store)
    (hfill : Answered.fill? ⟨c, a⟩ = none) : f.Spends k (f.after c a) := by
  have hfills : f.fillsSince (f.after c a) = [] := by
    rw [fillsSince_after, hfill]
    rfl
  refine ⟨f.log_after c a, ?_, fun side => ?_⟩
  · rw [hfills]
    exact List.forall_mem_nil _
  · rw [hfills, hstore]
    exact Int.zero_add _

theorem Spends.trans (hfg : f.Spends k g) (hgh : g.Spends k h) : f.Spends k h := by
  have hfills := fillsSince_trans hfg.log hgh.log
  refine ⟨hfg.log.trans hgh.log, ?_, fun side => ?_⟩
  · rw [hfills]
    exact List.forall_mem_append.mpr ⟨hfg.fills, hgh.fills⟩
  · rw [hfills, volume_append, Int.add_assoc, hgh.demand, hfg.demand]

/-- **A fill takes its amount from the demand on both sides.** -/
theorem Spends.commit {fill : FillCommit} {receipt : FillReceipt} (hf : f.Orderly scale)
    (hg : (f.after (.store (.commit fill)) (.ok (.committed receipt))).Orderly scale)
    (hmay : f.May (.store (.commit fill)) (.ok (.committed receipt)))
    (htrades : f.Trades (f.after (.store (.commit fill)) (.ok (.committed receipt))))
    (hk : k ≤ 28) (hgrid : ∀ o ∈ f.store.orders, OnGrid k o.amount.units) :
    f.Spends k (f.after (.store (.commit fill)) (.ok (.committed receipt))) := by
  obtain ⟨o, p, takes⟩ := (f.store.commit_cases fill).resolve_right
    fun hturned => hturned.2 receipt (Eq.symm hmay)
  have hpaired := takes.paired hf.history.ledger_kept hg.history.ledger_kept
  have hne : fill.incoming.id ≠ fill.counter.id := hpaired.order_ne
  have hkept := hf.history.conserves hk (List.forall_mem_map.mpr hgrid)
  have hkept' : (f.store.commit fill).2.Conserves k :=
    hg.history.conserves hk (List.forall_mem_map.mpr fun q hq => by
      obtain ⟨x, hx, hbecomes⟩ := htrades.toWithdraws.earlier hq
      rw [hbecomes.terms.amount]
      exact hgrid x hx)
  -- What becomes of one of the two orders, for which one more execution is on record.
  have hleg {x y : Order} {e : Execution} (hx : f.store.find? y.id = some x)
      (hmatch : x.matchable = true) (hy : (f.store.commit fill).2.find? y.id = some y)
      (hexecutions : (f.store.commit fill).2.executionsOf y.id =
        f.store.executionsOf y.id ++ [e]) (he : e.amount = fill.amount) :
      x.SameTerms y ∧ y.wanted + fill.amount.units = x.wanted ∧
        (tenTo (28 - k) : Int) ∣ fill.amount.units := by
    obtain ⟨hmem, hid⟩ := Store.mem_of_find? hx
    obtain ⟨hxexact, hxsum⟩ := hkept x hmem
    obtain ⟨hyexact, hysum⟩ := hkept' y (Store.mem_of_find? hy).1
    obtain ⟨z, hz, hbecomes⟩ := htrades.orders _ x hx
    obtain rfl : y = z := Option.some.inj (hy.symm.trans hz)
    refine ⟨hbecomes.terms, hxexact.spent hyexact hbecomes.terms hmatch (fun hcancelled => ?_) ?_⟩
    · exact Order.ne_cancelled_of_matchable hmatch
        (htrades.uncancelled _ x y hx hy hcancelled)
    · rw [hexecutions, List.map_append, List.sum_append, ← hid, hxsum] at hysum
      simpa [he] using hysum.symm
  obtain ⟨hterms, hincoming, hsteps⟩ := hleg takes.incomingFound takes.matchable
    (by rw [takes.find?_commit, if_neg hne, if_pos rfl])
    ((takes.executionsOf_commit hne _).trans (by rw [if_pos rfl])) rfl
  obtain ⟨hterms', hcounter, -⟩ := hleg takes.counterFound takes.counterMatchable
    (by rw [takes.find?_commit, if_pos rfl])
    ((takes.executionsOf_commit hne _).trans (by rw [if_neg hne.symm, if_pos rfl])) rfl
  have hfills : f.fillsSince (f.after (.store (.commit fill)) (.ok (.committed receipt))) =
      [fill] := fillsSince_after ..
  refine ⟨f.log_after _ _, ?_, fun side => ?_⟩
  · rw [hfills]
    exact List.forall_mem_singleton.mpr ⟨Int.le_of_lt hpaired.positive, hsteps⟩
  · have hsum := takes.sum_commit (fun x => if x.side = side then x.wanted else 0) hne
    have hside := takes.counter_side hpaired
    rw [hterms.side, hterms'.side] at hside
    rw [hfills]
    show _ + (f.store.commit fill).2.demand side = f.store.demand side
    unfold Store.demand volume
    rw [hsum, hterms.side, hterms'.side, hside]
    -- One of the two orders is on this side.
    cases o.side <;> cases side <;> simp [Side.opposite] <;> omega

end Floor

end Bourse
