/-
What a tick accounts for.

Three things tell of what a tick has filled: the ledger, into which every fill writes two
entries, the counters, which count a fill as soon as it is committed, and the report, which
adds up what the turns report.  The first two never miss a fill, whatever fails.  The
report misses those of every turn that has failed after it had committed some, for such a
turn reports nothing, and those of every pass that was given up.

`Accounts` says how the three hang together, with `lost` for what the report misses, and
that what it tells is the sum of sums of sums that the loops make it.  The passes of a tick
write into the ledger as they take turns, so what they fill is the ledger's only but for the
order; and since sums are rounded, the report's amount depends on the order in which the
passes are added up.
-/
import Bourse.Proofs.Served
import Bourse.Proofs.Visits

namespace Bourse

open Decimal

/-! ### What is reported and what is lost -/

namespace Round

/-- Has the turn ended well? -/
def told (r : Round) : Bool := r.turn.outcome.isOk

/-- The fills that the turn reports. -/
def reported (r : Round) : List FillCommit := if r.told then r.fills else []

/-- The fills that the turn does not report. -/
def lost (r : Round) : List FillCommit := if r.told then [] else r.fills

/-- The amount of all fills of the turn, if there is room for it. -/
def amount? (r : Round) : Option Decimal := sum? (r.fills.map (·.amount))

theorem reported_append_lost (r : Round) : r.reported ++ r.lost = r.fills := by
  unfold reported lost
  split
  · exact List.append_nil _
  · rfl

end Round

namespace Visit

/-- Was the pass not given up? -/
def kept (v : Visit) : Bool := v.pass.outcome.isOk

/-- The fills that the pass reports. -/
def reported (v : Visit) : List FillCommit := if v.kept then v.rounds.flatMap (·.reported) else []

/-- The fills that the pass does not report. -/
def lost (v : Visit) : List FillCommit := if v.kept then v.rounds.flatMap (·.lost) else v.fills

/-- The amount of all fills of turns that have ended well, if there is room for it. -/
def amount? (v : Visit) : Option Decimal := sumOf Round.amount? (v.rounds.filter (·.told))

theorem reported_append_lost (v : Visit) : (v.reported ++ v.lost).Perm v.fills := by
  unfold reported lost
  split
  · refine (List.flatMap_append_perm _ _ _).trans ?_
    simp only [Round.reported_append_lost]
    exact .refl _
  · exact .refl _

end Visit

/-- **Every fill of a tick is reported or lost**, and none is both. -/
theorem Visit.all_reported_append_lost (visits : List Visit) :
    (visits.flatMap (·.reported) ++ visits.flatMap (·.lost)).Perm (visits.flatMap (·.fills)) :=
  (List.flatMap_append_perm _ _ _).trans
    (List.Perm.flatMap_left _ fun v _ => v.reported_append_lost)

/-! ### The sums of a tick -/

/-- The fills that a report tells of, and their amount. -/
def TickReport.filled (r : TickReport) : Nat × Decimal := (r.fills, r.executedAmount)

/-- What a turn adds to the fills that were told of, and to their amount. -/
def OrderTurn.tell (filled : Nat × Decimal) (t : OrderTurn) : Option (Nat × Decimal) :=
  match t.outcome with
  | .ok report => (report.executedAmount.bind filled.2.add).map (filled.1 + report.fills.length, ·)
  | .error _ => some filled

theorem TickReport.withTurn_filled (r : TickReport) (t : OrderTurn) :
    (r.withTurn t).map filled = t.tell r.filled := by
  obtain ⟨id, outcome⟩ := t
  cases outcome with
  | error e => rfl
  | ok report =>
      unfold withTurn OrderTurn.tell
      rw [Option.map_map]
      rfl

theorem TickReport.foldlM_withTurn_filled (turns : List OrderTurn) (r : TickReport) :
    (turns.foldlM withTurn r).map filled = turns.foldlM OrderTurn.tell r.filled := by
  induction turns generalizing r with
  | nil => rfl
  | cons t turns ih =>
      rw [List.foldlM_cons, List.foldlM_cons, ← r.withTurn_filled t]
      cases r.withTurn t with
      | none => rfl
      | some r' => exact ih r'

/-- What a pass adds up does not depend on where one side ends and the other begins. -/
theorem TickReport.foldlM_withSide_filled (sides : List SidePass) (r : TickReport) :
    (sides.foldlM withSide r).map filled =
      (sides.flatMap (·.turns)).foldlM OrderTurn.tell r.filled := by
  induction sides generalizing r with
  | nil => rfl
  | cons s sides ih =>
      have hside : (r.withSide s).map filled = s.turns.foldlM OrderTurn.tell r.filled := by
        unfold withSide
        rw [foldlM_withTurn_filled]
        cases s.listing <;> rfl
      rw [List.foldlM_cons, List.flatMap_cons, List.foldlM_append, ← hside]
      cases r.withSide s with
      | none => rfl
      | some r' => exact ih r'

/-- A turn that has ended well adds the amount of its fills. -/
theorem Round.tell_of_ok {r : Round} {report : MatchReport} (h : r.turn.outcome = .ok report)
    (n : Nat) (a : Decimal) : r.turn.tell (n, a) =
      (r.amount?.bind a.add).map (n + r.fills.length, ·) := by
  have htold := r.settles.told report h
  have hamount : report.executedAmount = r.amount? := by
    unfold MatchReport.executedAmount amount?
    rw [htold, List.map_map]
    rfl
  unfold OrderTurn.tell
  rw [h]
  dsimp only
  rw [hamount, htold, List.length_map]

/-- The rounds add what those that have ended well come to. -/
theorem Round.foldlM_tell (rounds : List Round) (n : Nat) (a : Decimal) :
    (rounds.map (·.turn)).foldlM OrderTurn.tell (n, a) =
      (((rounds.filter (·.told)).mapM amount?).bind (·.foldlM add a)).map
        (n + (rounds.flatMap (·.reported)).length, ·) := by
  induction rounds generalizing n a with
  | nil => rfl
  | cons r rounds ih =>
      rw [List.map_cons, List.foldlM_cons, List.flatMap_cons, List.length_append, ← Nat.add_assoc]
      cases hr : r.turn.outcome with
      | error e =>
          have htold : r.told = false := by rw [told, hr]; rfl
          have hreported : r.reported = [] := by rw [reported, htold]; rfl
          have htell : r.turn.tell (n, a) = some (n, a) := by rw [OrderTurn.tell, hr]
          rw [htell, List.filter_cons_of_neg (by simp [htold]), hreported]
          exact ih n a
      | ok report =>
          have htold : r.told = true := by rw [told, hr]; rfl
          have hreported : r.reported = r.fills := by rw [reported, htold]; rfl
          rw [r.tell_of_ok hr, List.filter_cons_of_pos htold, List.mapM_cons, hreported]
          cases r.amount? with
          | none => rfl
          | some x =>
              cases hadd : a.add x with
              | none =>
                  cases (rounds.filter (·.told)).mapM amount? <;> simp [hadd]
              | some b =>
                  have hrest := ih (n + r.fills.length) b
                  cases hxs : (rounds.filter (·.told)).mapM amount? <;>
                    simpa [hadd, hxs] using hrest

/-- **What a pass adds up**: how many fills its turns report, and the sum of their amounts. -/
theorem Visit.totals_filled (v : Visit) : v.pass.totals.map TickReport.filled =
    v.amount?.map ((v.rounds.flatMap (·.reported)).length, ·) := by
  have hturns : v.pass.sides.flatMap (·.turns) = v.rounds.map (·.turn) := v.turns
  unfold TickerPass.totals amount? sumOf
  rw [TickReport.foldlM_withSide_filled, hturns]
  exact (Round.foldlM_tell v.rounds 0 .zero).trans (by rw [Nat.zero_add]; rfl)

/-- **What a tick adds up**: how many fills its passes report, and the sum of their amounts. -/
theorem Visit.total_filled (visits : List Visit) : (total visits).map TickReport.filled =
    (sumOf amount? (visits.filter (·.kept))).map ((visits.flatMap (·.reported)).length, ·) := by
  suffices ∀ r : TickReport, ((visits.map (·.pass.outcome)).foldlM TickReport.withPass r).map
      TickReport.filled = (((visits.filter (·.kept)).mapM amount?).bind
        (·.foldlM add r.executedAmount)).map
          (r.fills + (visits.flatMap (·.reported)).length, ·) by
    have hall := this .zero
    rw [show TickReport.zero.fills = 0 from rfl, Nat.zero_add] at hall
    unfold total TickerPass.total
    rw [List.map_map]
    exact hall
  induction visits with
  | nil => exact fun _ => rfl
  | cons v visits ih =>
      intro r
      rw [List.map_cons, List.foldlM_cons, List.flatMap_cons, List.length_append, ← Nat.add_assoc]
      have hfilled := v.totals_filled
      cases htotals : v.pass.totals with
      | none =>
          have hkept : v.kept = false := by rw [kept, v.outcome, htotals]; rfl
          have hreported : v.reported = [] := by rw [reported, hkept]; rfl
          rw [v.outcome, htotals, List.filter_cons_of_neg (by simp [hkept]), hreported]
          exact ih _
      | some t =>
          have hkept : v.kept = true := by rw [kept, v.outcome, htotals]; rfl
          have hreported : v.reported = v.rounds.flatMap (·.reported) := by
            rw [reported, hkept]; rfl
          rw [htotals, Option.map_some, eq_comm, Option.map_eq_some_iff] at hfilled
          obtain ⟨amount, hamount, hpair⟩ := hfilled
          obtain ⟨hcount, rfl⟩ := Prod.mk.inj hpair
          rw [v.outcome, htotals, List.filter_cons_of_pos hkept, List.mapM_cons, hamount, hreported,
            hcount]
          show ((r.absorb t).bind _).map _ = _
          unfold TickReport.absorb
          cases hadd : r.executedAmount.add t.executedAmount with
          | none => cases (visits.filter (·.kept)).mapM amount? <;> simp [hadd]
          | some b =>
              refine (ih _).trans ?_
              cases (visits.filter (·.kept)).mapM amount? <;> simp [hadd]

theorem Visit.exists_of_kept (v : Visit) (hkept : v.kept = true) :
    ∃ r, v.pass.outcome = .ok r := by
  unfold kept at hkept
  cases houtcome : v.pass.outcome with
  | error e => simp [houtcome, Except.isOk, Except.toBool] at hkept
  | ok r => exact ⟨r, rfl⟩

theorem isOk_totalled {α : Type} (a : Option α) : (totalled a).isOk = a.isSome := by
  cases a <;> rfl

/-- A pass is kept if and only if there is room for what it adds up. -/
theorem Visit.kept_eq (v : Visit) : v.kept = v.amount?.isSome := by
  have hfilled := congrArg Option.isSome v.totals_filled
  rw [Option.isSome_map, Option.isSome_map] at hfilled
  rw [kept, v.outcome, isOk_totalled, hfilled]

theorem Visit.isSome_total (visits : List Visit) :
    (total visits).isSome = (sumOf amount? (visits.filter (·.kept))).isSome := by
  have hfilled := congrArg Option.isSome (total_filled visits)
  rwa [Option.isSome_map, Option.isSome_map] at hfilled

/-! ### Sums on a grid -/

theorem whole_volume {k : Nat} {fills : List FillCommit}
    (h : ∀ fill ∈ fills, Whole k fill.amount.units) : Whole k (volume fills) :=
  .sum (List.forall_mem_map.mpr h)

/-- Fills that are skipped add nothing. -/
theorem volume_filter {α : Type} (p : α → Bool) (fills : α → List FillCommit) (as : List α) :
    volume (as.flatMap fun a => if p a then fills a else []) =
      ((as.filter p).map fun a => volume (fills a)).sum := by
  induction as with
  | nil => rfl
  | cons a as ih =>
      rw [List.flatMap_cons, volume_append, ih]
      by_cases ha : p a = true
      · rw [if_pos ha, List.filter_cons_of_pos ha, List.map_cons, List.sum_cons]
      · rw [if_neg ha, List.filter_cons_of_neg ha]
        exact Int.zero_add _

namespace Visit

variable {k : Nat}

theorem mem_fills {v : Visit} {r : Round} (hr : r ∈ v.rounds) {fill : FillCommit}
    (hfill : fill ∈ r.fills) : fill ∈ v.fills :=
  List.mem_flatMap.mpr ⟨r, hr, hfill⟩

/-- What the rounds of a pass add up to is exact if there is room for it. -/
theorem amount?_exact (hk : k ≤ 28) {v : Visit}
    (hwhole : ∀ fill ∈ v.fills, Whole k fill.amount.units)
    (hroom : OnGrid k (volume (v.rounds.flatMap (·.reported)))) :
    ∃ c, v.amount? = some c ∧ c.units = volume (v.rounds.flatMap (·.reported)) := by
  have hsum : volume (v.rounds.flatMap (·.reported)) =
      ((v.rounds.filter (·.told)).map fun r => volume r.fills).sum := volume_filter ..
  have hround (r : Round) (hr : r ∈ v.rounds.filter (·.told)) :
      ∀ fill ∈ r.fills, Whole k fill.amount.units :=
    fun fill hfill => hwhole fill (mem_fills (List.mem_filter.mp hr).1 hfill)
  rw [hsum] at hroom ⊢
  refine sumOf_exact hk (fun r hr => whole_volume (hround r hr)) (fun r hr hr' => ?_) hroom
  have hunits : volume r.fills = ((r.fills.map (·.amount)).map units).sum := by
    rw [List.map_map]
    rfl
  rw [hunits] at hr' ⊢
  exact sum?_exact hk (List.forall_mem_map.mpr (hround r hr)) hr'

/-- **What a tick adds up is exact** if there is room for it. -/
theorem total_exact (hk : k ≤ 28) {visits : List Visit}
    (hwhole : ∀ fill ∈ visits.flatMap (·.fills), Whole k fill.amount.units)
    (hroom : OnGrid k (volume (visits.flatMap (·.reported)))) :
    ∃ c, sumOf amount? (visits.filter (·.kept)) = some c ∧
      c.units = volume (visits.flatMap (·.reported)) := by
  have hsum : volume (visits.flatMap (·.reported)) =
      ((visits.filter (·.kept)).map fun v => volume (v.rounds.flatMap (·.reported))).sum :=
    volume_filter ..
  have hvisit (v : Visit) (hv : v ∈ visits.filter (·.kept)) :
      ∀ fill ∈ v.fills, Whole k fill.amount.units :=
    fun fill hfill => hwhole fill (List.mem_flatMap.mpr ⟨v, (List.mem_filter.mp hv).1, hfill⟩)
  rw [hsum] at hroom ⊢
  refine sumOf_exact hk (fun v hv => whole_volume fun fill hfill => ?_)
    (fun v hv hv' => amount?_exact hk (hvisit v hv) hv') hroom
  obtain ⟨r, hr, hfill⟩ := List.mem_flatMap.mp hfill
  unfold Round.reported at hfill
  split at hfill
  · exact hvisit v hv fill (mem_fills hr hfill)
  · cases hfill

end Visit

/-! ### The ledger -/

namespace Floor

variable {f g : Floor}

/-- A call writes two entries into the ledger if it commits a fill, and otherwise none. -/
theorem executions_length_after {c : Call} {a : c.Answer} (hmay : f.May c a) :
    (f.after c a).store.executions.length =
      f.store.executions.length + 2 * (f.fillsSince (f.after c a)).length := by
  rw [fillsSince_after]
  cases c with
  | store c =>
      cases a with
      | error e => cases c <;> rfl
      | ok a =>
          cases (show a = (f.store.perform c).1 from hmay)
          rcases f.store.perform_cases c with ⟨request, time, rfl⟩ | ⟨fill, o, p, rfl, takes⟩ |
            ⟨o, time, rfl, -, -, hcancel⟩ | ⟨hsame, -, hrecorded⟩
          · rfl
          · obtain ⟨houtcome, hexecutions, -, -, -⟩ := takes.committed
            rw [show (f.store.perform (.commit fill)).1 = _ from houtcome]
            exact (congrArg List.length hexecutions).trans List.length_append
          · exact congrArg (·.2.executions.length) hcancel
          · rw [fill?_of_recorded hrecorded]
            exact congrArg (·.executions.length) hsame
  | _ => rfl

/-- **Every fill that is committed writes two entries into the ledger**, and nothing else does. -/
theorem Trail.executions_length {scale : Nat} {calls : List Answered}
    (htrail : f.Trail scale calls g) :
    g.store.executions.length = f.store.executions.length + 2 * (f.fillsSince g).length := by
  induction htrail with
  | here f => simp [fillsSince, since_self]
  | @call f g c a calls hmay _ _ htrail ih =>
      have hlog : (f.after c a).log <+: g.log := ⟨_, htrail.log.symm⟩
      rw [ih, executions_length_after hmay, fillsSince_trans (f.log_after c a) hlog,
        List.length_append]
      omega

end Floor

/-! ### The counters -/

namespace Metrics

/-- The counters after a call. -/
def serve (m : Metrics) : Answered → Metrics
  | ⟨.count c, _⟩ => m.count c
  | ⟨.recordFill amount completed, _⟩ => m.recordFill amount completed
  | _ => m

/-- The counters after some calls. -/
def after (m : Metrics) (calls : List Answered) : Metrics := calls.foldl serve m

/-- **The counter of fills goes up with every fill that is counted.** -/
theorem fills_after (m : Metrics) (calls : List Answered) : (m.after calls).fills =
    m.fills + UInt64.ofNat (calls.filterMap (·.counted?)).length := by
  induction calls generalizing m with
  | nil => exact (UInt64.add_zero _).symm
  | cons x calls ih =>
      show ((m.serve x).after calls).fills = _
      rw [ih]
      obtain ⟨c, a⟩ := x
      cases c with
      | recordFill amount completed =>
          show m.fills + 1 + _ = m.fills + UInt64.ofNat (_ + 1)
          rw [UInt64.ofNat_add, UInt64.add_assoc, UInt64.add_comm 1]
          rfl
      | count c => cases c <;> rfl
      | _ => rfl

end Metrics

/-- A service answers a call as it may be answered, and counts as it is called. -/
theorem Exchange.answer_metrics (c : Call) (x : Exchange) {f : Floor} (hstore : f.store = x.store)
    (hindex : f.index = x.index) : f.May c (x.answer c).1 ∧
      (f.after c (x.answer c).1).store = (x.answer c).2.store ∧
      (f.after c (x.answer c).1).index = (x.answer c).2.index ∧
      (x.answer c).2.desk.metrics = x.desk.metrics.serve ⟨c, (x.answer c).1⟩ := by
  cases c with
  | store c =>
      refine ⟨?_, ?_, hindex, rfl⟩
      · exact congrArg (fun s : Store => (s.perform c).1) hstore.symm
      · exact congrArg (fun s : Store => (s.perform c).2) hstore
  | index c =>
      refine ⟨?_, hstore, ?_, rfl⟩
      · exact congrArg (fun i : WaitingIndex => (i.perform c).1) hindex.symm
      · exact congrArg (fun i : WaitingIndex => (i.perform c).2) hindex
  | beginTick =>
      unfold Exchange.answer
      split <;> exact ⟨trivial, hstore, hindex, rfl⟩
  | _ => exact ⟨trivial, hstore, hindex, rfl⟩

/-- **A service at work counts as its calls are made**: what it does is a run. -/
theorem Exchange.perform_metrics {α : Type} (work : Action α) (x : Exchange) {f : Floor}
    (hstore : f.store = x.store) (hindex : f.index = x.index) :
    ∃ g, f.Leads work (.ended (x.perform work).1) g ∧ g.store = (x.perform work).2.store ∧
      (x.perform work).2.desk.metrics = x.desk.metrics.after (f.since g) := by
  induction work generalizing x f with
  | done a => exact ⟨f, .here _ f, hstore, by rw [Floor.since_self]; rfl⟩
  | fail e => exact ⟨f, .here _ f, hstore, by rw [Floor.since_self]; rfl⟩
  | call c rest ih =>
      obtain ⟨hmay, hstore', hindex', hmetrics⟩ := x.answer_metrics c hstore hindex
      obtain ⟨g, hlead, hg, hcounted⟩ := ih (x.answer c).1 (x.answer c).2 hstore' hindex'
      refine ⟨g, .call _ hmay hlead, hg, ?_⟩
      rw [hlead.since_call]
      exact hcounted.trans (by rw [hmetrics]; rfl)

/-! ### The accounts of a tick -/

theorem volume_perm {fills more : List FillCommit} (h : fills.Perm more) :
    volume fills = volume more :=
  (h.map _).sum_eq

/--
How the report of a tick from `f` to `g`, which has come about by these visits, accounts
for what was filled.
-/
structure Floor.Accounts (f : Floor) (visits : List Visit) (report : TickReport) (g : Floor) :
    Prop where
  /-- The fills of the visits are all that were committed, though the visits took turns. -/
  fills : (visits.flatMap (·.fills)).Perm (f.fillsSince g)
  /-- Those of one visit were committed in their order. -/
  own : ∀ v ∈ visits, v.fills.Sublist (f.fillsSince g)
  /-- Each of them has written two entries into the ledger. -/
  executions : g.store.executions.length =
    f.store.executions.length + 2 * (f.fillsSince g).length
  /-- Each of them was counted. -/
  counters : ∀ m : Metrics, (m.after (f.since g)).fills =
    m.fills + UInt64.ofNat (f.fillsSince g).length
  /-- The report tells of all of them but those that are lost. -/
  reported : report.fills + (visits.flatMap (·.lost)).length = (f.fillsSince g).length
  /-- It adds up the passes, of which each adds up its turns, of which each adds up its fills. -/
  amount : sumOf Visit.amount? (visits.filter (·.kept)) = some report.executedAmount
  /-- On a grid with room for it, that is the exact amount, less what is lost. -/
  exact : ∀ k ≤ 28, (∀ o ∈ f.store.orders, OnGrid k o.amount.units) →
    OnGrid k (volume (f.fillsSince g)) →
    report.executedAmount.units + volume (visits.flatMap (·.lost)) = volume (f.fillsSince g)

/--
**A tick accounts for every fill but those of turns that have failed and of passes that
were given up**, in whatever way its passes take turns and in whatever order they are added
up.  The ledger and the counters tell of all fills, whatever calls have failed; the report
tells of as many as they do if and only if none is lost.
-/
theorem Floor.Served.tick_accounts {scale : Nat} {f g : Floor} {servings : List Serving}
    {fan : Fan} {report : TickReport} (h : f.Served scale servings)
    (hticks : f.Ticks scale fan (.ok (.completed report)) g) :
    ∃ visits : List Visit, fan.Visits scale visits ∧ f.Accounts visits report g ∧
      (2 * report.fills + f.store.executions.length = g.store.executions.length ↔
        ∀ v ∈ visits, v.lost = []) := by
  obtain ⟨visits, htallied⟩ := hticks.tallied
  have htrail := (hticks.trail h.orderly h.sound).1
  have hfills := htallied.fills
  have hsplit := (Visit.all_reported_append_lost visits).trans hfills
  have hfilled := Visit.total_filled visits
  rw [htallied.completed report rfl, Option.map_some, eq_comm, Option.map_eq_some_iff] at hfilled
  obtain ⟨amount, hamount, hpair⟩ := hfilled
  obtain ⟨hcount, rfl⟩ := Prod.mk.inj hpair
  have hreported : report.fills + (visits.flatMap (·.lost)).length = (f.fillsSince g).length := by
    rw [← hsplit.length_eq, List.length_append, hcount]
  have hexecutions := htrail.executions_length
  refine ⟨visits, htallied.toVisits,
    ⟨hfills, htallied.own, hexecutions, fun m => ?_, hreported, hamount, ?_⟩, ?_⟩
  · rw [Metrics.fills_after, htallied.counted.length_eq, List.length_map]
  · intro k hk hgrid hroom
    have hwhole := (htrail.spends h.orderly hk hgrid).fills
    have hparts : ∀ fill ∈ visits.flatMap (·.reported) ++ visits.flatMap (·.lost),
        Whole k fill.amount.units := fun fill hfill => hwhole fill (hsplit.mem_iff.mp hfill)
    obtain ⟨htold, hlost⟩ := List.forall_mem_append.mp hparts
    have hvolume := volume_perm hsplit
    rw [volume_append] at hvolume
    have hnonneg := (whole_volume hlost).nonneg
    have hless : OnGrid k (volume (visits.flatMap (·.reported))) :=
      (whole_volume htold).onGrid (by omega) hroom
    have hvisited : ∀ fill ∈ visits.flatMap (·.fills), Whole k fill.amount.units :=
      fun fill hfill => hwhole fill (hfills.mem_iff.mp hfill)
    obtain ⟨c, hc, hunits⟩ := Visit.total_exact hk hvisited hless
    rw [hamount, Option.some.injEq] at hc
    rw [hc, hunits, hvolume]
  · have hnone : (∀ v ∈ visits, v.lost = []) ↔ (visits.flatMap (·.lost)).length = 0 := by
      rw [List.length_eq_zero_iff, List.flatMap_eq_nil_iff]
    rw [hnone]
    omega

/--
Of two buy orders the first one meets a sell order at 1 and is filled.  The second one
meets another such and then a sell order whose price is too great for two of it.
-/
def Floor.costly : Floor :=
  session 2 .epoch [.order .sell (.ofDigits 1 0) (.ofDigits 1 0),
    .order .sell (.ofDigits 1 0) (.ofDigits 1 0), .order .sell .greatest (.ofDigits 2 0),
    .order .buy .greatest (.ofDigits 1 0), .order .buy .greatest (.ofDigits 3 0)]

theorem Floor.tick_accounts_costly : (∃ servings, costly.Served 2 servings) ∧
    ∃ fan report g, costly.Ticks 2 fan (.ok (.completed report)) g ∧ report.fills = 1 ∧
      g.store.executions.length = 4 ∧ ∃ visits : List Visit, fan.Visits 2 visits ∧
        costly.Accounts visits report g ∧ (visits.flatMap (·.lost)).length = 1 := by
  have hreached : costly.Reached 2 := reached_session _ _ _
  obtain ⟨servings, hserved, -⟩ := hreached.served
  have hlead := costly.leads_perform .epoch (tick 2)
  obtain ⟨report, houtcome, hfills, hexecutions⟩ : ∃ report,
      (costly.perform .epoch (tick 2)).1 = .ok (.completed report) ∧ report.fills = 1 ∧
        (costly.perform .epoch (tick 2)).2.store.executions.length = 4 :=
    ⟨⟨1, 0, 3, 2, 1, .ofDigits 1 0⟩, by decide +kernel⟩
  rw [houtcome] at hlead
  obtain ⟨fan, -, hticks⟩ := Leads.ticks (r := .ok _) hlead
  refine ⟨⟨servings, hserved⟩, fan, report, _, hticks, hfills, hexecutions, ?_⟩
  obtain ⟨visits, hvisits, haccounts, -⟩ := Floor.Served.tick_accounts hserved hticks
  refine ⟨visits, hvisits, haccounts, ?_⟩
  have hempty : costly.store.executions.length = 0 := by decide +kernel
  have hall := haccounts.executions
  have hreported := haccounts.reported
  omega

/-- **A tick can fill more than it reports**, though no call has failed. -/
theorem Floor.not_all_reported :
    ¬ ∀ (scale : Nat) (f g : Floor) (report : TickReport), f.Reached scale →
      f.Leads (tick scale) (.done (.completed report)) g →
      2 * report.fills + f.store.executions.length = g.store.executions.length := by
  intro hall
  have hlead := costly.leads_perform .epoch (tick 2)
  obtain ⟨report, houtcome, hmissing⟩ : ∃ report,
      (costly.perform .epoch (tick 2)).1 = .ok (.completed report) ∧
        2 * report.fills + costly.store.executions.length ≠
          (costly.perform .epoch (tick 2)).2.store.executions.length :=
    ⟨⟨1, 0, 3, 2, 1, .ofDigits 1 0⟩, by decide +kernel⟩
  rw [houtcome] at hlead
  exact hmissing (hall 2 costly _ report (reached_session _ _ _) hlead)

end Bourse
