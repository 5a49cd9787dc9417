/-
How the status of an order moves.

Whatever writes an order is a call that is answered with it, so the statuses that were ever
stored for an order are told by the log.  `Lived` says that they begin open, that each
could become the next, and that the last one is on record.

A call that places or cancels an order says itself what status it stores.  A fill does not:
that it leaves an order partly filled or filled is told by what it has left.  An order that
is open has no executions, so an order that was just filled is not; and an order that is
cancelled was once before stored as it is, which cannot be if it has just been matched,
because nothing comes after a terminal status.
-/
import Bourse.Proofs.Demand
import Bourse.Proofs.Faults
import Bourse.Proofs.Mending
import Mathlib.Data.List.Chain

namespace Bourse

open Bourse.Action Decimal

variable {scale : Nat}

/-! ### Statuses one after the other -/

/-- Each of the statuses could become the next. -/
def OrderStatus.Succeeds (statuses : List OrderStatus) : Prop :=
  statuses.IsChain fun s t => s.canBecome t = true

namespace OrderStatus.Succeeds

variable {statuses : List OrderStatus} {s : OrderStatus}

/-- Nothing comes after a terminal status. -/
theorem getLast?_of_terminal (h : Succeeds statuses) (hs : s ∈ statuses)
    (hterminal : s.terminal = true) : statuses.getLast? = some s := by
  induction statuses with
  | nil => cases hs
  | cons t rest ih =>
      cases rest with
      | nil => rw [List.mem_singleton.mp hs]; rfl
      | cons u rest =>
          obtain ⟨hmove, hrest⟩ := List.isChain_cons_cons.mp h
          rcases List.mem_cons.mp hs with rfl | hs
          · rw [canBecome_of_terminal hterminal] at hmove
            cases hmove
          · rw [List.getLast?_cons_cons]
            exact ih hrest hs

theorem concat (h : Succeeds statuses)
    (hmove : ∀ t, statuses.getLast? = some t → t.canBecome s = true) :
    Succeeds (statuses ++ [s]) := by
  refine List.isChain_append.mpr ⟨h, List.isChain_singleton s, fun t ht u hu => ?_⟩
  obtain rfl : s = u := by simpa using hu
  exact hmove t ht

end OrderStatus.Succeeds

/-- An order that is open has no executions. -/
theorem Store.History.untouched {s : Store} (h : s.History scale) :
    ∀ o ∈ s.orders, o.status = .live → s.executionsOf o.id = [] := by
  induction h with
  | empty => exact List.forall_mem_nil _
  | place h request time _ _ ih =>
      intro o ho hlive
      rcases List.mem_append.mp ho with hin | hnew
      · exact ih o hin hlive
      · rw [List.mem_singleton.mp hnew]
        exact h.executionsOf_next
  | cancel _ _ _ time ih =>
      intro o ho hlive
      rcases mem_orders_replace ho with rfl | hin
      · cases hlive
      · exact ih o hin hlive
  | trade h t ih =>
      intro o ho hlive
      have hincoming := h.executed_nonneg _ (mem_of_find? t.incomingFound).1
      have hcounter := h.executed_nonneg _ (mem_of_find? t.counterFound).1
      rcases t.mem_orders_commit ho with rfl | rfl | ⟨hin, hne, hne'⟩
      · rcases t.incomingFilled.status_cases hincoming
          (Order.ne_cancelled_of_matchable t.matchable) with hs | hs <;>
          rw [hs] at hlive <;> cases hlive
      · rcases t.counterFilled.status_cases hcounter
          (Order.ne_cancelled_of_matchable t.counter_matchable) with hs | hs <;>
          rw [hs] at hlive <;> cases hlive
      · rw [t.executionsOf_commit, if_neg hne, if_neg hne', List.append_nil]
        exact ih o hin hlive

/-! ### What was stored for an order -/

namespace Floor

variable {f g : Floor} {c : Call} {a : c.Answer} {id : OrderId}

/-- The statuses that were stored for an order, the first one first. -/
def statuses (f : Floor) (id : OrderId) : List OrderStatus :=
  ((f.log.flatMap (·.made)).filter (·.id == id)).map (·.status)

theorem statuses_after (f : Floor) (c : Call) (a : c.Answer) (id : OrderId) :
    (f.after c a).statuses id =
      f.statuses id ++ ((Answered.made ⟨c, a⟩).filter (·.id == id)).map (·.status) := by
  unfold statuses
  rw [after_log, List.flatMap_append, List.filter_append, List.map_append, List.flatMap_singleton]

/-- An order was open first, then moved as it may, and is on record as it was stored last. -/
structure Lived (f : Floor) (id : OrderId) : Prop where
  first : ∀ s ∈ (f.statuses id).head?, s = .live
  moves : OrderStatus.Succeeds (f.statuses id)
  last : (f.statuses id).getLast? = (f.store.find? id).map (·.status)

theorem lived_opened (id : OrderId) : opened.Lived id :=
  ⟨(fun _ h => nomatch h), List.isChain_nil, rfl⟩

/-- Of what was terminal once, this is still on record. -/
theorem Lived.found (h : f.Lived id) {o q : Order} (hfind : f.store.find? id = some o)
    (hq : q ∈ f.log.flatMap (·.made)) (hid : q.id = id) (hterminal : q.status.terminal = true) :
    o.status = q.status := by
  have hmem : q.status ∈ f.statuses id :=
    List.mem_map_of_mem (List.mem_filter.mpr ⟨hq, by simpa using hid⟩)
  have hlast := h.moves.getLast?_of_terminal hmem hterminal
  rw [h.last, hfind] at hlast
  exact Option.some.inj hlast

/-- A call that does not write an order leaves its statuses as they are. -/
theorem Lived.kept (h : f.Lived id) (hmade : ∀ q ∈ Answered.made ⟨c, a⟩, q.id ≠ id)
    (hfind : (f.after c a).store.find? id = f.store.find? id) : (f.after c a).Lived id := by
  have hnone : (Answered.made ⟨c, a⟩).filter (·.id == id) = [] :=
    List.filter_eq_nil_iff.mpr fun q hq => by simpa using hmade q hq
  have hsame : (f.after c a).statuses id = f.statuses id := by
    rw [statuses_after, hnone, List.map_nil, List.append_nil]
  refine ⟨?_, ?_, ?_⟩
  · rw [hsame]
    exact h.first
  · rw [hsame]
    exact h.moves
  · rw [hsame, hfind]
    exact h.last

/-- A call that writes an order adds a status that it may move to. -/
theorem Lived.written (h : f.Lived id) {q : Order}
    (hmade : (Answered.made ⟨c, a⟩).filter (·.id == id) = [q])
    (hfind : (f.after c a).store.find? id = some q)
    (hmove : ∀ o, f.store.find? id = some o → o.status.canBecome q.status = true)
    (hfirst : f.store.find? id = none → q.status = .live) : (f.after c a).Lived id := by
  have hmore : (f.after c a).statuses id = f.statuses id ++ [q.status] := by
    rw [statuses_after, hmade]
    rfl
  refine ⟨fun s hs => ?_, ?_, ?_⟩
  · rw [hmore] at hs
    cases hearlier : f.statuses id with
    | nil =>
        have hlast := h.last
        rw [hearlier] at hlast hs
        obtain rfl : q.status = s := by simpa using hs
        exact hfirst (Option.map_eq_none_iff.mp hlast.symm)
    | cons t rest =>
        rw [hearlier] at hs
        exact h.first s (by rw [hearlier]; simpa using hs)
  · rw [hmore]
    refine h.moves.concat fun t ht => ?_
    rw [h.last] at ht
    obtain ⟨o, ho, rfl⟩ := Option.map_eq_some_iff.mp ht
    exact hmove o ho
  · rw [hmore, hfind, List.getLast?_concat]
    rfl

/-- A call places an order, fills two, cancels one, or it writes none. -/
theorem write_cases (hmay : f.May c a) :
    (∃ request time, (⟨c, a⟩ : Answered) = ⟨.store (.insert request time),
      .ok (f.store.insert request time).1⟩) ∨
    (∃ fill o p, f.store.Takes fill o p ∧ (⟨c, a⟩ : Answered) =
      ⟨.store (.commit fill), .ok (.committed (f.store.executionPair fill))⟩) ∨
    (∃ o time, f.store.find? o.id = some o ∧ o.status.terminal = false ∧
      (⟨c, a⟩ : Answered) = ⟨.store (.cancel o.id time), .ok (some (Store.cancelled o time))⟩ ∧
      (f.after c a).store = f.store.replace (Store.cancelled o time)) ∨
    (Answered.made ⟨c, a⟩ = [] ∧ (f.after c a).store = f.store) := by
  cases c with
  | store c =>
      cases a with
      | error e => cases c <;> exact Or.inr (Or.inr (Or.inr ⟨rfl, rfl⟩))
      | ok a =>
          cases (show a = (f.store.perform c).1 from hmay)
          cases c with
          | insert request time => exact Or.inl ⟨request, time, rfl⟩
          | load | loadMany | executions | live => exact Or.inr (Or.inr (Or.inr ⟨rfl, rfl⟩))
          | commit fill =>
              rcases f.store.commit_cases fill with ⟨o, p, takes⟩ | ⟨hsame, hturned⟩
              · refine Or.inr (Or.inl ⟨fill, o, p, takes, ?_⟩)
                rw [show (f.store.perform (.commit fill)).1 = _ from takes.committed.1]
              · refine Or.inr (Or.inr (Or.inr ⟨?_, hsame⟩))
                show Answered.made ⟨.store (.commit fill), .ok (f.store.commit fill).1⟩ = []
                cases houtcome : (f.store.commit fill).1 with
                | committed receipt => exact absurd houtcome (hturned receipt)
                | incomingUnavailable | counterUnavailable => rfl
          | cancel id time =>
              rcases f.store.cancel_cases id time with ⟨o, hfind, hlive, hcancel⟩ | hcancel
              · obtain ⟨-, rfl⟩ := Store.mem_of_find? hfind
                refine Or.inr (Or.inr (Or.inl ⟨o, time, hfind, hlive, ?_, ?_⟩))
                · rw [show (f.store.perform (.cancel o.id time)).1 = _ from
                    congrArg Prod.fst hcancel]
                · exact congrArg Prod.snd hcancel
              · refine Or.inr (Or.inr (Or.inr ⟨?_, congrArg Prod.snd hcancel⟩))
                rw [show (f.store.perform (.cancel id time)).1 = _ from
                  congrArg Prod.fst hcancel]
                rfl
  | _ => exact Or.inr (Or.inr (Or.inr ⟨rfl, rfl⟩))

/-- An order that could be matched is on record as a fill has left it, with what was executed. -/
structure Refilled (f g : Floor) (q : Order) : Prop where
  before : ∃ o, f.store.find? q.id = some o ∧ o.matchable = true
  found : g.store.find? q.id = some q
  executed : g.store.executionsOf q.id ≠ []

/-- So are both orders of a fill that goes through. -/
theorem refilled {fill : FillCommit} {o p : Order} (takes : f.store.Takes fill o p)
    (hne : fill.incoming.id ≠ fill.counter.id) (hstore : g.store = (f.store.commit fill).2) :
    f.Refilled g fill.incoming ∧ f.Refilled g fill.counter := by
  obtain ⟨hincoming, hcounter⟩ := takes.find?_filled hne
  have hexecutions := takes.executionsOf_commit hne
  rw [← hstore] at hincoming hcounter hexecutions
  refine ⟨⟨⟨o, takes.incomingFound, takes.matchable⟩, hincoming, ?_⟩,
    ⟨⟨p, takes.counterFound, takes.counterMatchable⟩, hcounter, ?_⟩⟩
  · rw [hexecutions, if_pos rfl]
    simp
  · rw [hexecutions, if_neg hne.symm, if_pos rfl]
    simp

/-- **What a fill leaves of an order is partly filled, or filled.** -/
theorem Lived.status_refilled {q : Order} (h : f.Lived q.id)
    (hafter : (f.after c a).Orderly scale) {fill : FillCommit} (hc : c = .store (.commit fill))
    (hq : f.Refilled (f.after c a) q) : q.status = .partlyFilled ∨ q.status = .filled := by
  have hin := (Store.mem_of_find? hq.found).1
  cases hstatus : q.status with
  | partlyFilled => exact Or.inl rfl
  | filled => exact Or.inr rfl
  | live => exact absurd (hafter.history.untouched q hin hstatus) hq.executed
  | cancelled =>
      -- It was cancelled by a call, and not by this one, so it was so before.
      exfalso
      obtain ⟨o, hfind, hmatch⟩ := hq.before
      have hopen := (Order.matchable_iff.mp hmatch).1
      have hcancelled := hafter.cancelled q hin hstatus
      rw [after_log, List.mem_append, List.mem_singleton] at hcancelled
      rcases hcancelled with hcancelled | hnew
      · have hmade : q ∈ f.log.flatMap (·.made) :=
          List.mem_flatMap.mpr ⟨_, hcancelled, List.mem_singleton_self q⟩
        have hterminal : q.status.terminal = true := by rw [hstatus]; rfl
        rw [h.found hfind hmade rfl hterminal, hterminal] at hopen
        cases hopen
      · have hcall : (.store (.cancel q.id q.updatedAt) : Call) = c := congrArg Answered.call hnew
        rw [hc] at hcall
        cases hcall

/-- A fill of an order that could be matched adds to its statuses. -/
theorem Lived.refilled {q : Order} (h : f.Lived q.id) (hafter : (f.after c a).Orderly scale)
    {fill : FillCommit} (hc : c = .store (.commit fill)) (hq : f.Refilled (f.after c a) q)
    (hmade : (Answered.made ⟨c, a⟩).filter (·.id == q.id) = [q]) : (f.after c a).Lived q.id := by
  obtain ⟨o, hfind, hmatch⟩ := hq.before
  refine h.written hmade hq.found (fun o' ho' => ?_) fun hnone => ?_
  · rw [hfind, Option.some.injEq] at ho'
    subst ho'
    exact Order.canBecome_of_filled (Order.matchable_iff.mp hmatch).1
      (h.status_refilled hafter hc hq)
  · rw [hfind] at hnone
    cases hnone

theorem Lived.trade (h : f.Lived id) {fill : FillCommit} {o p : Order}
    (takes : f.store.Takes fill o p) (hne : fill.incoming.id ≠ fill.counter.id)
    {receipt : FillReceipt}
    (hafter : (f.after (.store (.commit fill)) (.ok (.committed receipt))).Orderly scale) :
    (f.after (.store (.commit fill)) (.ok (.committed receipt))).Lived id := by
  obtain ⟨hincoming, hcounter⟩ := Floor.refilled (g := f.after (.store (.commit fill))
    (.ok (.committed receipt))) takes hne rfl
  have hmade : Answered.made ⟨.store (.commit fill), .ok (.committed receipt)⟩ =
      [fill.incoming, fill.counter] := rfl
  by_cases hid : id = fill.incoming.id
  · subst hid
    refine h.refilled hafter rfl hincoming ?_
    rw [hmade]
    simp [hne.symm]
  · by_cases hid' : id = fill.counter.id
    · subst hid'
      refine h.refilled hafter rfl hcounter ?_
      rw [hmade]
      simp [hne]
    · have hfound : (f.after (.store (.commit fill)) (.ok (.committed receipt))).store.find? id =
          f.store.find? id := by
        show (f.store.commit fill).2.find? id = _
        rw [takes.find?_commit, if_neg hid', if_neg hid]
      refine h.kept (fun q hq => ?_) hfound
      rcases List.mem_cons.mp hq with rfl | hq
      · exact fun hc => hid hc.symm
      · rw [List.mem_singleton.mp hq]
        exact fun hc => hid' hc.symm

theorem Lived.place (h : f.Lived id) {request : OrderRequest} {time : Instant}
    (hmade : Answered.made ⟨c, a⟩ = [Order.ofRequest f.store.nextOrderId request time])
    (hstore : (f.after c a).store = (f.store.insert request time).2) : (f.after c a).Lived id := by
  have hfound := f.store.find?_insert request time id
  rw [← hstore] at hfound
  by_cases hid : id = f.store.nextOrderId
  · rw [if_pos hid] at hfound
    have hnone := f.store.find?_nextOrderId
    rw [← hid] at hnone
    refine h.written ?_ hfound (fun q hq => ?_) fun _ => rfl
    · rw [hmade, ← hid]
      simp [Order.ofRequest]
    · rw [hnone] at hq
      cases hq
  · rw [if_neg hid] at hfound
    refine h.kept (fun q hq => ?_) hfound
    rw [hmade] at hq
    rw [List.mem_singleton.mp hq]
    exact fun hc => hid hc.symm

theorem Lived.cancel (h : f.Lived id) {o : Order} {time : Instant}
    (hfind : f.store.find? o.id = some o) (hlive : o.status.terminal = false)
    (hmade : Answered.made ⟨c, a⟩ = [Store.cancelled o time])
    (hstore : (f.after c a).store = f.store.replace (Store.cancelled o time)) :
    (f.after c a).Lived id := by
  have hfound := Store.find?_cancelled hfind time id
  rw [← hstore] at hfound
  by_cases hid : id = o.id
  · subst hid
    rw [if_pos rfl] at hfound
    refine h.written ?_ hfound (fun q hq => ?_) fun hnone => ?_
    · rw [hmade]
      simp [Store.cancelled]
    · rw [hfind, Option.some.injEq] at hq
      subst hq
      show o.status.canBecome .cancelled = true
      cases hs : o.status <;> rw [hs] at hlive <;> first | rfl | cases hlive
    · rw [hfind] at hnone
      cases hnone
  · rw [if_neg hid] at hfound
    refine h.kept (fun q hq => ?_) hfound
    rw [hmade] at hq
    rw [List.mem_singleton.mp hq]
    exact fun hc => hid hc.symm

/-- The two orders of a fill that goes through are not one. -/
theorem incoming_ne_counter (hf : f.Orderly scale) {fill : FillCommit} {o p : Order}
    (takes : f.store.Takes fill o p) {receipt : FillReceipt}
    (hafter : (f.after (.store (.commit fill)) (.ok (.committed receipt))).Orderly scale) :
    fill.incoming.id ≠ fill.counter.id :=
  (takes.paired hf.history.ledger_kept hafter.history.ledger_kept).order_ne

/-- **Every call moves the statuses as they may.** -/
theorem Lived.after (h : f.Lived id) (hf : f.Orderly scale) (hafter : (f.after c a).Orderly scale)
    (hmay : f.May c a) : (f.after c a).Lived id := by
  rcases write_cases hmay with ⟨request, time, hx⟩ | ⟨fill, o, p, takes, hx⟩ |
    ⟨o, time, hfind, hlive, hx, hstore⟩ | ⟨hmade, hstore⟩
  · cases hx
    exact h.place rfl rfl
  · cases hx
    exact h.trade takes (incoming_ne_counter hf takes hafter) hafter
  · exact h.cancel hfind hlive (congrArg Answered.made hx) hstore
  · refine h.kept (fun q hq => ?_) (by rw [hstore])
    rw [hmade] at hq
    cases hq

theorem Seen.lived (h : f.Seen scale) (id : OrderId) : f.Lived id :=
  h.along (Q := fun f => f.Lived id) (lived_opened id)
    fun _ hf hafter hmay (hlived : Floor.Lived _ id) => Lived.after hlived hf hafter hmay

end Floor

/-! ### The guards -/

/-- The errors of the guards: of a move that is not allowed, and of a fill that is not one. -/
inductive Error.OfGuard : Error → Prop
  | transition (id : OrderId) (source target : String) :
      OfGuard (.invalidTransition id source target)
  | notPositive (id : OrderId) : OfGuard (FillFault.notPositive.error id)
  | exceedsRemaining (id : OrderId) : OfGuard (FillFault.exceedsRemaining.error id)

theorem Error.Overflows.not_ofGuard {e : Error} (h : e.Overflows) : ¬ e.OfGuard := by
  obtain ⟨fault, id, hover, rfl⟩ := h
  intro hguard
  generalize he : fault.error id = e at hguard
  cases hguard with
  | transition => cases he
  | notPositive | exceedsRemaining =>
      have hdetails := (Error.arithmetic.inj he).2
      cases fault <;> simp [FillFault.overflows, FillFault.details] at hover hdetails

/-- Between orders on record, a fill fails only for want of room. -/
theorem Store.sustains_overflows :
    Store.Sustains scale (fun _ => True) Error.Overflows where
  trade _ _ := trivial
  fault _ hhistory ho hc hmatch hmay hfill := by
    refine Order.fillWith_fault hmatch (Order.mayMeet_iff.mp hmay).1 ?_ ?_ hfill
    · exact hhistory.executed_nonneg _ (mem_of_find? ho).1
    · exact hhistory.executed_nonneg _ (mem_of_find? hc).1

/--
**The statuses of an order move as they may, and no guard ever stops a turn.**  Every order
begins open, each status stored for it could become the next, the last one is on record
and is what its amounts imply; and whenever a turn is taken, it does not fail with the error
of a guard, unless some call was refused with that very error.
-/
theorem Floor.Seen.lifecycle {f : Floor} (h : f.Seen scale) :
    (∀ id, f.Lived id) ∧ (∀ o ∈ f.store.orders, o.status = o.derivedStatus) ∧
      ∀ (id : OrderId) (ticker : String) (e : Error) (g : Floor),
        f.Leads (processOrder scale id ticker) (.fail (.error e)) g →
          f.Refuses g e ∨ ¬ e.OfGuard := by
  have hf := h.orderly
  refine ⟨h.lived, fun o ho => ?_, fun id ticker e g hlead => ?_⟩
  · by_cases hc : o.status = .cancelled
    · rw [Order.derivedStatus, if_pos hc, hc]
    · exact (hf.history.agrees o ho hc).2.symm
  · have hfaults := processOrder_faults Store.sustains_overflows hf trivial id ticker
    obtain ⟨-, hblames⟩ := hfaults.of_leads hlead hf
    obtain ⟨e', he, hcause⟩ := hblames.2 _ rfl
    cases he
    refine hcause.imp_right fun hown => ?_
    rcases hown with ⟨o, rfl⟩ | hover
    · intro hguard
      generalize hmis : misindexed o ticker = e at hguard
      cases hguard <;> cases hmis
    · exact hover.not_ofGuard

/-- A buy order for 1.5 has its turn and meets two sell orders for 1; the second is cancelled. -/
def Floor.threeLives : Floor :=
  session 2 .epoch [.order .sell (.ofDigits 1 0) (.ofDigits 1 0),
    .order .sell (.ofDigits 1 0) (.ofDigits 1 0), .order .buy (.ofDigits 1 0) (.ofDigits 15 1),
    .process 3 "X", .cancel 2]

theorem Floor.lifecycle_threeLives : threeLives.Seen 2 ∧
    threeLives.statuses 1 = [.live, .filled] ∧
    threeLives.statuses 2 = [.live, .partlyFilled, .cancelled] ∧
    threeLives.statuses 3 = [.live, .partlyFilled, .filled] ∧
    (∀ id, threeLives.Lived id) ∧ (∀ o ∈ threeLives.store.orders, o.status = o.derivedStatus) ∧
    ∀ (id : OrderId) (ticker : String) (e : Error) (g : Floor),
      threeLives.Leads (processOrder 2 id ticker) (.fail (.error e)) g →
        threeLives.Refuses g e ∨ ¬ e.OfGuard := by
  have hseen : threeLives.Seen 2 := (reached_session _ _ _).seen
  exact ⟨hseen, by decide +kernel, by decide +kernel, by decide +kernel,
    Floor.Seen.lifecycle hseen⟩

end Bourse
