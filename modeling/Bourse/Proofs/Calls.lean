/-
What one call makes of a floor that others work on too.

A call is told of by what it leaves to be relied on.  Taking an entry out of the index is
harmless if the order it stands for is `Idle` there, and that cannot change any more.
Putting one in is harmless if its order is on record.  A fill is worked out from what was
read, perhaps long ago, but it only goes through if both of its orders can still be
matched, and the terms of an order never change.
-/
import Bourse.Proofs.Custom
import Bourse.Proofs.Matching

namespace Bourse

namespace Floor

variable {f g : Floor} {o p : Order} {side : Side} {ticker : String} {id : OrderId}

/-! ### Taking an entry out -/

/-- The order is on record, and if it can be matched, it belongs in another book. -/
def Idle (f : Floor) (side : Side) (ticker : String) (id : OrderId) : Prop :=
  ∃ o, f.store.find? id = some o ∧ (o.matchable = true → o.side = side → o.ticker ≠ ticker)

theorem Knows.idle (h : f.Knows o)
    (hidle : o.matchable = true → o.side = side → o.ticker ≠ ticker) :
    f.Idle side ticker o.id := by
  obtain ⟨p, hfind, hp⟩ := h
  refine ⟨p, hfind, fun hmatch hside => ?_⟩
  rw [hp.terms.ticker]
  exact hidle (hp.matchable hmatch) (hp.terms.side ▸ hside)

theorem Becomes.idle (hfg : f.Becomes g) (h : f.Idle side ticker id) : g.Idle side ticker id := by
  obtain ⟨o, hfind, ho⟩ := h
  obtain rfl := (Store.mem_of_find? hfind).2
  exact (hfg.knows (knows_of_find? hfind)).idle ho

theorem Becomes.remove (f : Floor) (side : Side) (ticker : String) (id : OrderId) :
    f.Becomes (f.after (.index (.remove side ticker id))
      (.ok (f.index.perform (.remove side ticker id)).1)) where
  sound hf := by
    refine ⟨hf.tidy.perform _, hf.inOrder.perform hf.tidy _, fun side' ticker' k hk => ?_⟩
    exact hf.filed side' ticker' k (hf.tidy.mem_keys_remove.mp hk).1
  orders id o hfind := ⟨o, hfind, .refl o⟩

/-- **An idle entry can be taken out.** -/
theorem Trades.remove (h : f.Idle side ticker id) :
    f.Trades (f.after (.index (.remove side ticker id))
      (.ok (f.index.perform (.remove side ticker id)).1)) where
  toBecomes := .remove f side ticker id
  covers hf id' := by
    rintro ⟨o, hfind, hlisted⟩
    refine ⟨o, hfind, fun hmatch => ?_⟩
    obtain ⟨k, hk, hid⟩ := WaitingIndex.mem_waiting.mp (hlisted hmatch)
    refine WaitingIndex.mem_waiting.mpr ⟨k, hf.tidy.mem_keys_remove.mpr ⟨hk, ?_⟩, hid⟩
    rintro hbook rfl
    obtain ⟨p, hfind', hidle⟩ := h
    rw [hid, hfind, Option.some.injEq] at hfind'
    subst hfind'
    obtain ⟨hside, hticker⟩ := Prod.mk.inj hbook
    exact hidle hmatch hside hticker
  known id p hfind := ⟨p, hfind⟩
  uncancelled id o p hfind hfind' hp := by
    rw [show f.store.find? id = some p from hfind', Option.some.injEq] at hfind
    exact hfind ▸ hp

/-! ### Putting an entry in -/

/-- **An order that is on record can be put into its book.** -/
theorem Trades.enqueue (h : f.Knows o) :
    f.Trades (f.after (.index (.enqueue o.side o.ticker o.id o.price))
      (.ok (f.index.perform (.enqueue o.side o.ticker o.id o.price)).1)) where
  sound hf := by
    refine ⟨hf.tidy.perform _, hf.inOrder.perform hf.tidy _, fun side' ticker' k hk => ?_⟩
    rcases hf.tidy.mem_keys_enqueue.mp hk with ⟨hbook, rfl⟩ | ⟨hin, -⟩
    · obtain ⟨p, hfind, hp⟩ := h
      obtain ⟨rfl, rfl⟩ := Prod.mk.inj hbook
      refine ⟨p, hfind, hp.terms.side, hp.terms.ticker, ?_⟩
      rw [hp.terms.price, hp.terms.id]
    · exact hf.filed side' ticker' k hin
  orders id o hfind := ⟨o, hfind, .refl o⟩
  covers hf id' := by
    rintro ⟨p, hfind, hlisted⟩
    refine ⟨p, hfind, fun hmatch => ?_⟩
    obtain ⟨k, hk, hid⟩ := WaitingIndex.mem_waiting.mp (hlisted hmatch)
    refine WaitingIndex.mem_waiting.mpr ?_
    -- The entry is where it was, or it is the one that is put in anew.
    by_cases hnew : (p.side, p.ticker) = (o.side, o.ticker) ∧ k.order = o.id
    · exact ⟨_, hf.tidy.mem_keys_enqueue.mpr (Or.inl ⟨hnew.1, rfl⟩), hnew.2.symm.trans hid⟩
    · exact ⟨k, hf.tidy.mem_keys_enqueue.mpr
        (Or.inr ⟨hk, fun hbook horder => hnew ⟨hbook, horder⟩⟩), hid⟩
  known id p hfind := ⟨p, hfind⟩
  uncancelled id o p hfind hfind' hp := by
    rw [show f.store.find? id = some p from hfind', Option.some.injEq] at hfind
    exact hfind ▸ hp

theorem Knows.covers_enqueue (h : f.Knows o) (hf : f.Sound) :
    (f.after (.index (.enqueue o.side o.ticker o.id o.price))
      (.ok (f.index.perform (.enqueue o.side o.ticker o.id o.price)).1)).Covers o.id := by
  obtain ⟨p, hfind, hp⟩ := h
  refine ⟨p, hfind, fun _ => WaitingIndex.mem_waiting.mpr ⟨.ofPrice o.side o.price o.id, ?_, rfl⟩⟩
  refine hf.tidy.mem_keys_enqueue.mpr (Or.inl ⟨?_, rfl⟩)
  rw [hp.terms.side, hp.terms.ticker]

/-! ### Writing to the store -/

/-- Placing an order touches no other. -/
theorem Spares.place (f : Floor) (request : OrderRequest) (time : Instant) :
    f.Spares (f.after (.store (.insert request time))
      (.ok (f.store.perform (.insert request time)).1)) := by
  have hkept (id : OrderId) (o : Order) (hfind : f.store.find? id = some o) :
      (f.store.insert request time).2.find? id = some o := by
    rw [Store.find?_insert, if_neg, hfind]
    rintro rfl
    rw [Store.find?_nextOrderId] at hfind
    cases hfind
  refine ⟨⟨fun hf => ⟨hf.tidy, hf.inOrder, fun side ticker k hk => ?_⟩, fun id o hfind => ?_⟩, ?_⟩
  · obtain ⟨o, hfind, ho⟩ := hf.filed side ticker k hk
    exact ⟨o, hkept _ o hfind, ho⟩
  · exact ⟨o, hkept id o hfind, .refl o⟩
  · rintro - id ⟨o, hfind, hlisted⟩
    exact ⟨o, hkept id o hfind, hlisted⟩

theorem knows_place (f : Floor) (request : OrderRequest) (time : Instant) :
    (f.after (.store (.insert request time))
      (.ok (f.store.perform (.insert request time)).1)).Knows (f.store.insert request time).1 := by
  have hfind : (f.store.insert request time).2.find? f.store.nextOrderId =
      some (f.store.insert request time).1 := by
    rw [Store.find?_insert, if_pos rfl]
    rfl
  exact knows_of_find? hfind

/-- Where an order was there is what it may have become, and nowhere is there another. -/
theorem Withdraws.of_store {c : StoreCall}
    (h : ∀ id, Option.Rel Order.Becomes (f.store.find? id) ((f.store.perform c).2.find? id)) :
    f.Withdraws (f.after (.store c) (.ok (f.store.perform c).1)) := by
  have horders (id : OrderId) (o : Order) (hfind : f.store.find? id = some o) :
      ∃ p, (f.store.perform c).2.find? id = some p ∧ o.Becomes p := by
    have hrel := h id
    rw [hfind] at hrel
    cases hp : (f.store.perform c).2.find? id with
    | none => rw [hp] at hrel; cases hrel
    | some p =>
        rw [hp] at hrel
        cases hrel with
        | some hbecomes => exact ⟨p, rfl, hbecomes⟩
  refine ⟨⟨⟨fun hf => ⟨hf.tidy, hf.inOrder, fun side ticker k hk => ?_⟩, horders⟩, ?_⟩, ?_⟩
  · obtain ⟨o, hfind, hside, hticker, hkey⟩ := hf.filed side ticker k hk
    obtain ⟨p, hp, hbecomes⟩ := horders _ o hfind
    exact ⟨p, hp, hbecomes.terms.side.trans hside, hbecomes.terms.ticker.trans hticker,
      hbecomes.terms.price ▸ hbecomes.terms.id ▸ hkey⟩
  · rintro - id ⟨o, hfind, hlisted⟩
    obtain ⟨p, hp, hbecomes⟩ := horders id o hfind
    refine ⟨p, hp, fun hmatch => ?_⟩
    rw [hbecomes.terms.side, hbecomes.terms.ticker]
    exact hlisted (hbecomes.matchable hmatch)
  · intro id p hfind
    have hrel := h id
    rw [show (f.store.perform c).2.find? id = some p from hfind] at hrel
    cases ho : f.store.find? id with
    | none => rw [ho] at hrel; cases hrel
    | some o => exact ⟨o, rfl⟩

theorem Withdraws.cancel (f : Floor) (id : OrderId) (time : Instant) :
    f.Withdraws (f.after (.store (.cancel id time))
      (.ok (f.store.perform (.cancel id time)).1)) := by
  refine .of_store fun id' => ?_
  show Option.Rel _ _ ((f.store.cancel id time).2.find? id')
  rcases f.store.cancel_cases id time with ⟨o, hfind, -, hcancel⟩ | hcancel
  · obtain ⟨-, rfl⟩ := Store.mem_of_find? hfind
    rw [hcancel, Store.find?_cancelled hfind]
    by_cases hid : id' = o.id
    · rw [if_pos hid, hid, hfind]
      exact .some ⟨⟨rfl, rfl, rfl, rfl, rfl, rfl⟩, fun h => nomatch h⟩
    · rw [if_neg hid]
      exact Order.rel_becomes _
  · rw [hcancel]
    exact Order.rel_becomes _

theorem knows_cancel {id : OrderId} {time : Instant} {o : Order}
    (h : (f.store.cancel id time).1 = some o) :
    (f.after (.store (.cancel id time)) (.ok (f.store.perform (.cancel id time)).1)).Knows o ∧
      o.matchable = false := by
  rcases f.store.cancel_cases id time with ⟨p, hfind, -, hcancel⟩ | hcancel
  · rw [hcancel, Option.some.injEq] at h
    subst h
    obtain ⟨-, rfl⟩ := Store.mem_of_find? hfind
    have hfind' : (f.store.cancel p.id time).2.find? p.id = some (Store.cancelled p time) := by
      rw [hcancel, Store.find?_cancelled hfind, if_pos rfl]
    exact ⟨knows_of_find? hfind', rfl⟩
  · rw [hcancel] at h
    cases h

/-- An order that was cancelled, or could not be any more, needs no entry. -/
theorem Knows.covers_cancel {o : Order} (h : f.Knows o) (time : Instant) :
    (f.after (.store (.cancel o.id time))
      (.ok (f.store.perform (.cancel o.id time)).1)).Covers o.id := by
  obtain ⟨p, hfind, -⟩ := h
  obtain ⟨q, hq, -⟩ := (Withdraws.cancel f o.id time).orders o.id p hfind
  refine ⟨q, hq, fun hmatch => ?_⟩
  rw [Order.matchable_iff, Store.terminal_cancel hq] at hmatch
  cases hmatch.1

/-! ### Committing a fill -/

/-- What was read of an order has become what is on record. -/
theorem Knows.becomes (h : f.Knows o) (hfind : f.store.find? o.id = some p) : o.Becomes p := by
  obtain ⟨q, hq, hbecomes⟩ := h
  rw [hfind, Option.some.injEq] at hq
  exact hq ▸ hbecomes

/-- Nobody meets himself, however long ago he was read. -/
theorem Knows.id_ne (ho : f.Knows o) (hp : f.Knows p) (hmay : o.mayMeet p = true) :
    o.id ≠ p.id := by
  intro hid
  obtain ⟨q, hfind, hq⟩ := ho
  obtain ⟨-, hside, -⟩ := Order.opposes_iff.mp (Bool.and_eq_true_iff.mp hmay).1
  have hq' := hp.becomes (hid ▸ hfind)
  rw [← hq'.terms.side, hq.terms.side] at hside
  exact Side.opposite_ne _ hside.symm

variable {scale : Nat} {amount price : Decimal} {time : Instant} {after : Order}
  {fill : FillCommit}

/-- An order that can still be matched may become what a fill made of it as it was read. -/
theorem Knows.filled (h : f.Knows o) (hfill : o.FilledTo amount price scale time after)
    (hfind : f.store.find? after.id = some p) (hmatch : p.matchable = true) :
    p.Becomes after ∧ after.status ≠ .cancelled := by
  have hp := h.becomes (hfill.terms.id ▸ hfind)
  refine ⟨⟨hp.terms.symm.trans hfill.terms, fun _ => hmatch⟩, ?_⟩
  exact hfill.status_ne_cancelled (Order.ne_cancelled_of_matchable (hp.matchable hmatch))

/-- **A fill worked out from what was read, however long ago, is a trade or nothing.** -/
theorem Trades.commit (ho : f.Knows o) (hp : f.Knows p)
    (hfill : o.fillWith p scale time = .ok fill) :
    f.Trades (f.after (.store (.commit fill)) (.ok (f.store.perform (.commit fill)).1)) := by
  have hm := Order.fillWith_ok hfill
  rcases f.store.commit_cases fill with ⟨q, r, takes⟩ | ⟨hstore, -⟩
  · have hcounter := hp.filled (Order.fill_ok hm.counterFill) takes.counterFound
      takes.counterMatchable
    have hincoming := ho.filled (Order.fill_ok hm.incomingFill) takes.incomingFound
      takes.matchable
    refine ⟨.of_store fun id => ?_, fun id x y hx hy hcancelled => ?_⟩
    · show Option.Rel _ _ ((f.store.commit fill).2.find? id)
      rw [takes.find?_commit]
      split
      · rename_i hid
        rw [hid, takes.counterFound]
        exact .some hcounter.1
      · split
        · rename_i hid
          rw [hid, takes.incomingFound]
          exact .some hincoming.1
        · exact Order.rel_becomes _
    · -- The two orders of the fill are not cancelled by it.
      have hy : (f.store.commit fill).2.find? id = some y := hy
      rw [takes.find?_commit] at hy
      split at hy
      · cases hy
        exact absurd hcancelled hcounter.2
      · split at hy
        · cases hy
          exact absurd hcancelled hincoming.2
        · rw [hx, Option.some.injEq] at hy
          rw [hy]
          exact hcancelled
  · exact .of_same hstore rfl

/-- The orders of a fill that has gone through are on record as it left them. -/
theorem knows_commit {receipt : FillReceipt} (hne : fill.incoming.id ≠ fill.counter.id)
    (h : (f.store.commit fill).1 = .committed receipt) :
    (f.after (.store (.commit fill)) (.ok (f.store.perform (.commit fill)).1)).Knows
        fill.incoming ∧
      (f.after (.store (.commit fill)) (.ok (f.store.perform (.commit fill)).1)).Knows
        fill.counter := by
  rcases f.store.commit_cases fill with ⟨q, r, takes⟩ | ⟨-, hturned⟩
  · have hincoming : (f.store.commit fill).2.find? fill.incoming.id = some fill.incoming := by
      rw [takes.find?_commit, if_neg hne, if_pos rfl]
    have hcounter : (f.store.commit fill).2.find? fill.counter.id = some fill.counter := by
      rw [takes.find?_commit, if_pos rfl]
    exact ⟨knows_of_find? hincoming, knows_of_find? hcounter⟩
  · exact absurd h (hturned receipt)

end Floor

end Bourse
