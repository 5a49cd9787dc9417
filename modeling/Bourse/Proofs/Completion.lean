/-
Every fill completes an order.

Two orders trade the smaller of what remains of them, and on a grid what is left of the
one with less is nothing, to the last digit, through both of the sums that are rounded.
So one of the two is filled for good, and no order is filled twice: there are never more
fills than filled orders.  In a turn it is the order that waited, except perhaps in the
last fill, since a turn does not go on with an order that is filled.

That amounts lie on a grid is asked of the orders on record at the end.  It was so at
every moment before, because orders keep their amounts.
-/
import Bourse.Proofs.Counters
import Bourse.Proofs.Price

namespace Bourse

open Bourse.Action Decimal

variable {scale k : Nat}

/-! ### One fill -/

/-- Is one of the two orders filled after the fill? -/
def FillCommit.Completes (fill : FillCommit) : Prop :=
  fill.incoming.status = .filled ∨ fill.counter.status = .filled

theorem FillCommit.Completes.completions_pos {fill : FillCommit} (h : fill.Completes) :
    1 ≤ fill.completions := by
  unfold completions
  rcases h with h | h <;> simp [h]

namespace Store

variable {s : Store} {incoming counter : Order} {fill : FillCommit}

/-- **A trade on a grid completes the order of which less remained.** -/
theorem Conserves.completes (hk : k ≤ 28) (h : s.Conserves k)
    (t : Trade s scale incoming counter fill) : fill.Completes := by
  obtain ⟨hincoming, hcounter, -, hleft, -, hleft'⟩ := h.trade hk t
  have hamount := t.meeting.amount
  have hunits := units_least incoming.remainingAmount counter.remainingAmount
  rw [← hamount] at hunits
  rcases min_choice incoming.remainingAmount.units counter.remainingAmount.units with hmin | hmin
  · exact Or.inl (hincoming.filled.mpr (by omega))
  · exact Or.inr (hcounter.filled.mpr (by omega))

/-- **Of the two orders that an entry of the ledger tells of, one is filled.** -/
theorem History.completed (hk : k ≤ 28) (h : History scale s)
    (hgrid : ∀ a ∈ s.orders.map (·.amount), OnGrid k a.units) :
    ∀ e ∈ s.executions, s.Filled e.order ∨ s.Filled e.counterOrder := by
  induction h with
  | empty => exact List.forall_mem_nil _
  | @place s _ request time _ _ ih =>
      rw [orders_insert, List.map_append, List.forall_mem_append] at hgrid
      intro e he
      rw [filled_insert, filled_insert]
      exact ih hgrid.1 e he
  | @cancel s o _ hfind hlive time ih =>
      rw [map_cancelled _ hfind rfl] at hgrid
      intro e he
      rw [filled_cancelled hfind hlive, filled_cancelled hfind hlive]
      exact ih hgrid e he
  | @trade s incoming counter fill h t ih =>
      rw [t.map_commit _ t.incomingFilled.terms.amount t.counterFilled.terms.amount] at hgrid
      have hcompletes := (h.conserves hk hgrid).completes hk t
      obtain ⟨-, hexecutions, -, -, -⟩ := t.committed
      rw [hexecutions]
      have hfilled (id : OrderId) := t.takes.filled_commit t.filled_ids_ne id
      have hpair : (s.commit fill).2.Filled fill.incoming.id ∨
          (s.commit fill).2.Filled fill.counter.id := by
        refine hcompletes.imp (fun h => (hfilled _).mpr (Or.inr ?_)) fun h =>
          (hfilled _).mpr (Or.inr ?_)
        · exact FillEvent.completes_iff.mpr (Or.inl ⟨rfl, h⟩)
        · exact FillEvent.completes_iff.mpr (Or.inr ⟨rfl, h⟩)
      refine List.forall_mem_append.mpr ⟨fun e he => ?_,
        List.forall_mem_cons.mpr ⟨hpair, List.forall_mem_singleton.mpr hpair.symm⟩⟩
      exact (ih hgrid e he).imp (fun h => (hfilled _).mpr (Or.inl h)) fun h =>
        (hfilled _).mpr (Or.inl h)

end Store

namespace Floor

variable {f g : Floor}

/-- **A fill that a call commits completes an order.** -/
theorem Orderly.completes {c : Call} {a : c.Answer} (hf : f.Orderly scale)
    (hafter : (f.after c a).Orderly scale) (hmay : f.May c a) (hk : k ≤ 28)
    (hgrid : ∀ o ∈ (f.after c a).store.orders, OnGrid k o.amount.units) {fill : FillCommit}
    (hfill : Answered.fill? ⟨c, a⟩ = some fill) : fill.Completes := by
  have hcompleted := hafter.history.completed hk (List.forall_mem_map.mpr hgrid)
  rcases after_cases hmay with ⟨fill', o, p, hfill', takes, hcommit⟩ | ⟨hnone, -⟩
  · obtain rfl : fill' = fill := Option.some.inj (hfill'.symm.trans hfill)
    have hpaired := takes.paired hf.history.ledger_kept (hcommit ▸ hafter.history.ledger_kept)
    obtain ⟨hincoming, hcounter⟩ := takes.find?_filled hpaired.order_ne
    obtain ⟨-, hexecutions, -, -, -⟩ := takes.committed
    rw [hcommit, hexecutions] at hcompleted
    rcases hcompleted _ (List.mem_append_right _ List.mem_cons_self) with
      ⟨q, hfind, hfilled⟩ | ⟨q, hfind, hfilled⟩
    · exact Or.inl (Option.some.inj (hincoming.symm.trans hfind) ▸ hfilled)
    · exact Or.inr (Option.some.inj (hcounter.symm.trans hfind) ▸ hfilled)
  · rw [hnone] at hfill
    cases hfill

/-- **All fills of a run complete an order.** -/
theorem Leads.completes {α : Type} {work rest : Action α} {goal : Except Failure α → Floor → Prop}
    {rely give : Change} {goal' : Except Failure α → List Answered → Floor → Prop}
    {mine : List Answered} (hlead : f.Leads work rest g) (hf : f.Orderly scale)
    (hkeeps : work.Ensures (Orderly scale) goal f) (hgives : work.Among rely give goal' mine f)
    (hk : k ≤ 28) (hgrid : ∀ o ∈ g.store.orders, OnGrid k o.amount.units) :
    ∀ fill ∈ f.fillsSince g, fill.Completes := by
  induction hlead generalizing mine with
  | here work f =>
      rw [fillsSince, since_self]
      exact List.forall_mem_nil _
  | @call c rest f work g a hmay hlead ih =>
      obtain ⟨hafter, hkeeps⟩ := hkeeps a hmay
      obtain ⟨-, hgives⟩ := hgives f (rely.of_same rfl rfl) a hmay
      rw [fillsSince_trans (f.log_after c a) hlead.log, fillsSince_after]
      refine List.forall_mem_append.mpr ⟨fun fill hfill => ?_, ih hafter hkeeps hgives hgrid⟩
      have hbecomes := give.becomes (hgives.of_leads hlead)
      exact hf.completes hafter hmay hk (hbecomes.grid hgrid) (Option.mem_toList.mp hfill)

/-- One more operation, or a part of one, goes on with fills that complete an order. -/
theorem Leads.completes_operation {op : Operation} {rest : Action Unit}
    (hlead : f.Leads (op.work scale) rest g) (hf : f.Reached scale) (hk : k ≤ 28)
    (hgrid : ∀ o ∈ g.store.orders, OnGrid k o.amount.units)
    (hbefore : (∀ o ∈ f.store.orders, OnGrid k o.amount.units) →
      ∀ fill ∈ f.log.filterMap (·.fill?), fill.Completes) :
    ∀ fill ∈ g.log.filterMap (·.fill?), fill.Completes := by
  have hgives : (op.work scale).Among _ _ _ _ f := op.work_among hf.sound
  have hbecomes := op.gives.becomes (hgives.of_leads hlead)
  rw [log_eq hlead.log, List.filterMap_append]
  exact List.forall_mem_append.mpr ⟨hbefore (hbecomes.grid hgrid),
    hlead.completes hf.orderly (op.work_keeps f hf.orderly) hgives hk hgrid⟩

theorem Reached.completes (h : f.Reached scale) (hk : k ≤ 28)
    (hgrid : ∀ o ∈ f.store.orders, OnGrid k o.amount.units) :
    ∀ fill ∈ f.log.filterMap (·.fill?), fill.Completes := by
  induction h with
  | opened => exact List.forall_mem_nil _
  | after h op hlead _ ih => exact hlead.completes_operation h hk hgrid ih

theorem Seen.completes (h : f.Seen scale) (hk : k ≤ 28)
    (hgrid : ∀ o ∈ f.store.orders, OnGrid k o.amount.units) :
    ∀ fill ∈ f.log.filterMap (·.fill?), fill.Completes := by
  obtain ⟨e, he, op, rest, hlead⟩ := h
  exact hlead.completes_operation he hk hgrid (he.completes hk)

/-! ### All fills -/

/-- How many orders the fills complete, and which ones. -/
structure Completing (scale : Nat) (f : Floor) : Prop where
  /-- Right after its commit, one of the two orders of a fill is filled. -/
  each : ∀ before fill receipt rest,
    f.log = before ++ ⟨.store (.commit fill), .ok (.committed receipt)⟩ :: rest →
      ((Store.empty.after before).commit fill).2.Filled fill.incoming.id ∨
        ((Store.empty.after before).commit fill).2.Filled fill.counter.id
  /-- There are no more fills in the ledger than filled orders on record. -/
  count : ∃ n, f.store.executions.length = 2 * n ∧
    n ≤ f.store.orders.countP (·.status == .filled)
  /-- In a turn, every fill but the last one leaves the waiting order filled. -/
  turn : ∀ id ticker rest g, f.Leads (processOrder scale id ticker) rest g →
    ∀ fill ∈ (f.fillsSince g).dropLast,
      fill.counter.status = .filled ∧ g.store.Filled fill.counter.id

theorem Seen.chronicle (h : f.Seen scale) : f.Chronicle :=
  h.along chronicle_opened fun _ hf hafter hmay hchronicle => hchronicle.after hf hafter hmay

theorem Seen.census (h : f.Seen scale) : f.Census :=
  h.along census_opened fun _ hf hafter hmay hcensus => hcensus.after hf hafter hmay

/-- The orders of a fill stand as the fill has left them right after its commit. -/
theorem Chronicle.filled_after (h : f.Chronicle) {before rest : List Answered} {fill : FillCommit}
    {receipt : FillReceipt}
    (hlog : f.log = before ++ ⟨.store (.commit fill), .ok (.committed receipt)⟩ :: rest)
    (hcompletes : fill.Completes) :
    ((Store.empty.after before).commit fill).2.Filled fill.incoming.id ∨
      ((Store.empty.after before).commit fill).2.Filled fill.counter.id := by
  have hprefix : before ++ [⟨.store (.commit fill), .ok (.committed receipt)⟩] <+: f.log := by
    refine ⟨rest, ?_⟩
    rw [hlog, List.append_assoc]
    rfl
  have hreports := h.reported before _ fill hprefix rfl
  rw [Store.after_append] at hreports
  obtain ⟨o, hfind, hstatus, -⟩ := hreports.incoming
  obtain ⟨p, hfind', hstatus', -⟩ := hreports.resting
  exact hcompletes.imp (fun hfilled => ⟨o, hfind, hstatus.trans hfilled⟩)
    fun hfilled => ⟨p, hfind', hstatus'.trans hfilled⟩

/-- **There are no more fills than filled orders**, if each of them completes one. -/
theorem count_le (hchronicle : f.Chronicle) (hcensus : f.Census)
    (hcompletes : ∀ fill ∈ f.log.filterMap (·.fill?), fill.Completes) :
    ∃ n, f.store.executions.length = 2 * n ∧
      n ≤ f.store.orders.countP (·.status == .filled) := by
  refine ⟨(newsOf f.log).length, ?_, ?_⟩
  · rw [hchronicle.executions_eq, FillEvent.length_writtenOut]
  · have hfilled := hcensus.filled
    rw [Store.census_eq, Nat.cast_inj] at hfilled
    rw [hfilled, newsOf, List.length_map, ← List.length_map (f := FillCommit.completions)]
    refine List.length_le_sum_of_one_le _ (List.forall_mem_map.mpr fun fill hfill => ?_)
    exact (hcompletes fill hfill).completions_pos

/-- **A turn goes on only after fills that complete the waiting order.** -/
theorem Leads.turn_completes {id : OrderId} {ticker : String} {rest : Action MatchReport}
    (hlead : f.Leads (processOrder scale id ticker) rest g) (hg : g.Chronicle)
    (hcompletes : ∀ fill ∈ f.fillsSince g, fill.Completes) :
    ∀ fill ∈ (f.fillsSince g).dropLast,
      fill.counter.status = .filled ∧ g.store.Filled fill.counter.id := by
  have hturn := (((processOrder_commits scale id ticker f).of_leads hlead (.refl f _)).1).fills
  have hnews : newsOf g.log = newsOf f.log ++ (f.fillsSince g).map FillCommit.event := by
    rw [log_eq hlead.log, newsOf_append]
    rfl
  intro fill hfill
  have hin : fill ∈ f.fillsSince g := List.dropLast_subset _ hfill
  have hne : f.fillsSince g ≠ [] := List.ne_nil_of_mem hin
  have hlast := hg.last
  rw [hnews, ← List.dropLast_append_getLast hne, List.map_append] at hlast
  have hnames := (List.pairwise_append.mp (List.pairwise_append.mp hlast).2.1).2.2 fill.event
    (List.mem_map_of_mem hfill) _ (List.mem_map_of_mem (List.mem_singleton_self _)) id
  rcases hcompletes fill hin with hfilled | hfilled
  · -- The last fill names the order whose turn it is, so that one was not filled before.
    refine absurd (Or.inl (hturn _ (List.getLast_mem hne)).symm) (hnames ?_)
    exact FillEvent.completes_iff.mpr (Or.inl ⟨(hturn fill hin).symm, hfilled⟩)
  · refine ⟨hfilled, (hg.filled _).mpr ⟨fill.event, ?_, ?_⟩⟩
    · rw [hnews]
      exact List.mem_append_right _ (List.mem_map_of_mem hin)
    · exact FillEvent.completes_iff.mpr (Or.inr ⟨rfl, hfilled⟩)

/--
**Every fill completes an order**, on a grid and whatever has failed.
-/
theorem Seen.completing (h : f.Seen scale) (hk : k ≤ 28)
    (hgrid : ∀ o ∈ f.store.orders, OnGrid k o.amount.units) : f.Completing scale := by
  have hchronicle := h.chronicle
  have hcompletes := h.completes hk hgrid
  refine ⟨fun before fill receipt rest hlog => ?_, count_le hchronicle h.census hcompletes,
    fun id ticker rest g hlead => ?_⟩
  · refine hchronicle.filled_after hlog (hcompletes fill ?_)
    rw [hlog, List.filterMap_append]
    exact List.mem_append_right _ List.mem_cons_self
  · have hf := h.orderly
    have hgives : (processOrder scale id ticker).Among _ _ _ [] f :=
      processOrder_gives h.sound id ticker []
    have hkeeps := processOrder_keeps id ticker f hf
    refine hlead.turn_completes ?_ (hlead.completes hf hkeeps hgives hk ?_)
    · exact hlead.along hkeeps hf hchronicle fun _ hf hafter hmay hc => hc.after hf hafter hmay
    · exact (hgives.of_leads hlead).grid hgrid

/-- A buy order for 1.5 has met two of three sell orders for 1, and another one is for 1.2. -/
def secondBuyer : Floor :=
  session 2 .epoch [.order .sell (.ofDigits 1 0) (.ofDigits 1 0),
    .order .sell (.ofDigits 1 0) (.ofDigits 1 0), .order .sell (.ofDigits 1 0) (.ofDigits 1 0),
    .order .buy (.ofDigits 1 0) (.ofDigits 15 1), .tick,
    .order .buy (.ofDigits 1 0) (.ofDigits 12 1)]

/-- Two fills have filled two orders; of two more, the first one fills what was left over. -/
theorem completing_secondBuyer :
    let turn := secondBuyer.perform .epoch (processOrder 2 5 "X")
    secondBuyer.Seen 2 ∧ (∀ o ∈ secondBuyer.store.orders, OnGrid 1 o.amount.units) ∧
      (secondBuyer.store.executions.length = 4 ∧
        secondBuyer.store.orders.countP (·.status == .filled) = 2) ∧
      (secondBuyer.fillsSince turn.2).map (fun fill => (fill.incoming.id, fill.counter.id)) =
        [(5, 2), (5, 3)] ∧
      turn.2.store.Filled 2 ∧ secondBuyer.Completing 2 := by
  intro turn
  have hseen : secondBuyer.Seen 2 := (reached_session _ _ _).seen
  have hgrid : ∀ o ∈ secondBuyer.store.orders, OnGrid 1 o.amount.units :=
    Store.onGrid_of_places (by decide) (by decide +kernel)
  have hcompleting := Seen.completing hseen (by decide) hgrid
  obtain ⟨first, hfirst, hid⟩ : ∃ fill ∈ (secondBuyer.fillsSince turn.2).dropLast,
      fill.counter.id = 2 := by decide +kernel
  have hturn := hcompleting.turn 5 "X" _ _ (leads_perform _ _ _) first hfirst
  exact ⟨hseen, hgrid, by decide +kernel, by decide +kernel, hid ▸ hturn.2, hcompleting⟩

end Floor

end Bourse
