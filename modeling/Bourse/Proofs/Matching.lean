/-
Every order that is met is met as it stands on record.

Between reading an order and committing a fill of it the matching makes many calls, and
its fills are worked out from what it read.  Nothing is lost by that when one operation
follows the other.  `Ready` is what the walk along the queue relies on: the orders ahead
of it are on record just as they were read, all of them different, and each may be met.
A trade changes two orders only, so it leaves the rest of the queue ready.

`Meets` is the walk without its calls, one trade after the other, and `Turn` is the
whole of what an order's turn comes to when it ends well.  Calls may fail all the while;
those that matter end the turn.
-/
import Bourse.Proofs.Orderly
import Bourse.Proofs.Queue

namespace Bourse

/-! ### Reading the counter orders -/

/-- Is `c` an order that `o` may meet, price and all? -/
def Order.mayMeet (o c : Order) : Bool := c.opposes o && o.accepts c.price

theorem Order.mayMeet_iff {o c : Order} : o.mayMeet c = true ↔ c.matchable = true ∧
    c.side = o.side.opposite ∧ c.ticker = o.ticker ∧ o.accepts c.price = true := by
  unfold mayMeet
  rw [Bool.and_eq_true, opposes_iff, and_assoc, and_assoc]

/-- Whom an order may meet depends on its terms only. -/
theorem Order.mayMeet_congr {o p : Order} (h : o.SameTerms p) (c : Order) :
    p.mayMeet c = o.mayMeet c := by
  unfold mayMeet
  rw [opposes_congr h, accepts_congr h]

/-- Whom an order may meet may meet it. -/
theorem Order.mayMeet_symm {o c : Order} (hmatch : o.matchable = true)
    (h : o.mayMeet c = true) : c.mayMeet o = true := by
  obtain ⟨-, hside, hticker, haccepts⟩ := mayMeet_iff.mp h
  refine mayMeet_iff.mpr ⟨hmatch, by rw [hside, Side.opposite_opposite], hticker.symm, ?_⟩
  unfold accepts at haccepts ⊢
  rw [hside]
  cases hbuy : o.side <;> rw [hbuy] at haccepts <;> exact haccepts

/-- The orders among some identifiers that `o` may meet, as they stand on record. -/
def Store.rivals (s : Store) (o : Order) (ids : List OrderId) : List Order :=
  (ids.filterMap s.find?).filter o.mayMeet

/-- The orders that `o` would meet on a floor, in the order in which it would. -/
def Floor.queue (f : Floor) (o : Order) : List Order :=
  o.side.queue (f.store.rivals o (f.index.waiting o.side.opposite o.ticker))

namespace Store

variable {s : Store}

theorem find?_loaded (s : Store) (ids : List OrderId) (id : OrderId) :
    (ids.filterMap s.find?).find? (·.id == id) = if id ∈ ids then s.find? id else none := by
  induction ids with
  | nil => rfl
  | cons y ys ih =>
      by_cases hy : y = id
      · subst hy
        cases hfind : s.find? y with
        | none =>
            rw [List.filterMap_cons_none hfind, ih, hfind]
            simp
        | some o =>
            rw [List.filterMap_cons_some hfind, List.find?_cons_of_pos]
            · simp
            · simpa using (mem_of_find? hfind).2
      · have hmem : id ∈ y :: ys ↔ id ∈ ys := by
          rw [List.mem_cons, or_iff_right (fun hc => hy hc.symm)]
        simp only [hmem]
        cases hfind : s.find? y with
        | none => rw [List.filterMap_cons_none hfind, ih]
        | some o =>
            rw [List.filterMap_cons_some hfind, List.find?_cons_of_neg, ih]
            simpa [(mem_of_find? hfind).2] using hy

/-- Looked up among what was loaded, the identifiers give what they gave on loading. -/
theorem filterMap_loaded (s : Store) (ids : List OrderId) :
    (ids.filterMap fun id => (ids.filterMap s.find?).find? (·.id == id)) =
      ids.filterMap s.find? := by
  refine List.filterMap_congr fun id hid => ?_
  rw [find?_loaded, if_pos hid]

theorem mem_rivals {o c : Order} {ids : List OrderId} :
    c ∈ s.rivals o ids ↔ c.id ∈ ids ∧ s.find? c.id = some c ∧ o.mayMeet c = true := by
  unfold rivals
  rw [List.mem_filter, List.mem_filterMap]
  refine ⟨fun ⟨⟨id, hid, hfind⟩, hmay⟩ => ?_, fun ⟨hid, hfind, hmay⟩ => ⟨⟨c.id, hid, hfind⟩, hmay⟩⟩
  obtain rfl := (mem_of_find? hfind).2
  exact ⟨hid, hfind, hmay⟩

theorem nodup_loaded {ids : List OrderId} (h : ids.Nodup) :
    ((ids.filterMap s.find?).map (·.id)).Nodup := by
  induction ids with
  | nil => exact List.nodup_nil
  | cons y ys ih =>
      rw [List.nodup_cons] at h
      cases hfind : s.find? y with
      | none =>
          rw [List.filterMap_cons_none hfind]
          exact ih h.2
      | some o =>
          rw [List.filterMap_cons_some hfind, List.map_cons, List.nodup_cons]
          refine ⟨fun hin => h.1 ?_, ih h.2⟩
          obtain ⟨p, hp, hid⟩ := List.mem_map.mp hin
          obtain ⟨z, hz, hfound⟩ := List.mem_filterMap.mp hp
          rw [← (mem_of_find? hfind).2, ← hid, (mem_of_find? hfound).2]
          exact hz

theorem nodup_rivals {o : Order} {ids : List OrderId} (h : ids.Nodup) :
    ((s.rivals o ids).map (·.id)).Nodup :=
  (List.filter_sublist.map _).nodup (nodup_loaded h)

end Store

namespace Order

variable {scale : Nat} {f : Floor}

/-- What the listed identifiers nominate is found without looking at the answers. -/
theorem quiet_nominated (o : Order) (loaded : List Order) (ids : List OrderId) :
    (o.nominated loaded ids).Quiet fun r =>
      r.1 = (ids.filterMap fun id => loaded.find? (·.id == id)).filter o.mayMeet := by
  induction ids with
  | nil => exact rfl
  | cons id ids ih =>
      -- An entry that is dropped nominates nothing.
      have dropped (hskip : ((id :: ids).filterMap fun id => loaded.find? (·.id == id)).filter
            o.mayMeet = (ids.filterMap fun id => loaded.find? (·.id == id)).filter o.mayMeet) :
          (o.dropStale id (o.nominated loaded ids)).Quiet fun r => r.1 =
            ((id :: ids).filterMap fun id => loaded.find? (·.id == id)).filter o.mayMeet := by
        rw [hskip]
        refine (Action.quiet_index _).bind fun removed _ => ih.bind ?_
        rintro ⟨found, stale⟩ hfound
        exact hfound
      unfold nominated
      cases hfind : loaded.find? (·.id == id) with
      | none => exact dropped (by rw [List.filterMap_cons, hfind])
      | some counter =>
          have hcons : (id :: ids).filterMap (fun id => loaded.find? (·.id == id)) =
              counter :: ids.filterMap fun id => loaded.find? (·.id == id) := by
            rw [List.filterMap_cons, hfind]
          by_cases hopposes : counter.opposes o = true
          · simp only [if_pos hopposes]
            refine ih.bind ?_
            rintro ⟨found, stale⟩ hfound
            rw [hcons, List.filter_cons, ← hfound]
            unfold mayMeet
            by_cases haccepts : o.accepts counter.price = true
            · simp [Action.Quiet, hopposes, haccepts]
            · simp [Action.Quiet, haccepts]
          · simp only [if_neg hopposes]
            refine dropped ?_
            rw [hcons, List.filter_cons_of_neg (by simp [mayMeet, hopposes])]

theorem candidates_ensures (hf : f.Orderly scale) (o : Order) :
    o.candidates.Ensures (Floor.Orderly scale) (fun r g => g.store = f.store ∧
      ∀ a, r = .ok a → a.1 = f.queue o) f := by
  unfold candidates Floor.queue
  refine Action.ensures_index ⟨hf.of_quiet rfl _, ?_⟩ fun e =>
    ⟨hf.of_quiet rfl _, rfl, fun _ h => nomatch h⟩
  have hids : (f.index.perform (.list o.side.opposite o.ticker)).1 =
    f.index.waiting o.side.opposite o.ticker := rfl
  rw [hids]
  generalize f.index.waiting o.side.opposite o.ticker = ids
  cases ids with
  | nil => exact ⟨rfl, fun a h => by cases h; rfl⟩
  | cons id ids =>
      have hlisted := hf.of_quiet (c := .index (.list o.side.opposite o.ticker)) rfl
        (.ok (id :: ids))
      refine Action.ensures_store ⟨hlisted.of_quiet rfl _, ?_⟩ fun e =>
        ⟨hlisted.of_quiet rfl _, rfl, fun _ h => nomatch h⟩
      have hloaded := hlisted.of_quiet (c := .store (.loadMany (id :: ids))) rfl
        (.ok ((id :: ids).filterMap f.store.find?))
      refine ((o.quiet_nominated _ _).ensures hloaded).bind hloaded ?_ ?_
      · rintro ⟨found, stale⟩ g hg ⟨hstore, hfound⟩
        refine ⟨hstore, fun a h => ?_⟩
        cases h
        show o.side.queue found = _
        rw [show found = _ from hfound _ rfl]
        unfold Store.rivals
        congr 2
        exact f.store.filterMap_loaded (id :: ids)
      · exact fun e g hg h => ⟨h.1, fun _ h => nomatch h⟩

end Order

/-! ### Walking along the queue -/

/-- An order and the counter orders ahead of it, all on record as they were read. -/
structure Store.Ready (s : Store) (o : Order) (counters : List Order) : Prop where
  found : s.find? o.id = some o
  counterFound : ∀ c ∈ counters, s.find? c.id = some c ∧ o.mayMeet c = true
  nodup : (counters.map (·.id)).Nodup

namespace Store.Ready

variable {s : Store} {scale : Nat} {o c : Order} {cs : List Order}

theorem trade (h : s.Ready o (c :: cs)) (hmatch : o.matchable = true) {time : Instant}
    {fill : FillCommit} (hfill : o.fillWith c scale time = .ok fill) :
    s.Trade scale o c fill := by
  obtain ⟨hfound, hmay⟩ := h.counterFound c (by simp)
  obtain ⟨hopposes, haccepts⟩ := Bool.and_eq_true_iff.mp hmay
  exact ⟨h.found, hfound, hmatch, hopposes, haccepts, time, hfill⟩

/-- After a trade, the rest of the queue is as ready for what the trade left of the order. -/
theorem next (h : s.Ready o (c :: cs)) {fill : FillCommit} (t : s.Trade scale o c fill) :
    (s.commit fill).2.Ready fill.incoming cs := by
  have hnodup := h.nodup
  rw [List.map_cons, List.nodup_cons] at hnodup
  refine ⟨?_, fun d hd => ?_, hnodup.2⟩
  · rw [t.find?_commit, t.incoming_id, if_neg t.ids_ne, if_pos rfl]
  · obtain ⟨hfound, hmay⟩ := h.counterFound d (List.mem_cons_of_mem _ hd)
    have hcounter : d.id ≠ c.id := by
      intro hid
      exact hnodup.1 (hid ▸ List.mem_map_of_mem hd)
    have hincoming : d.id ≠ o.id := by
      intro hid
      rw [hid, h.found, Option.some.injEq] at hfound
      subst hfound
      obtain ⟨-, hside, -⟩ := Order.opposes_iff.mp (Bool.and_eq_true_iff.mp hmay).1
      exact Side.opposite_ne _ hside.symm
    refine ⟨?_, ?_⟩
    · rw [t.find?_commit, if_neg hcounter, if_neg hincoming]
      exact hfound
    · exact (Order.mayMeet_congr t.incomingFilled.terms d).trans hmay

end Store.Ready

/-- Read from one store, an order and those it may meet are ready. -/
theorem Store.ready_rivals {s : Store} {o : Order} {ids : List OrderId}
    (hfind : s.find? o.id = some o) (hnodup : ids.Nodup) :
    s.Ready o (o.side.queue (s.rivals o ids)) := by
  have hperm := o.side.queue_perm (s.rivals o ids)
  refine ⟨hfind, fun c hc => ?_, ?_⟩
  · exact (Store.mem_rivals.mp (hperm.mem_iff.mp hc)).2
  · exact (hperm.map _).nodup_iff.mpr (Store.nodup_rivals hnodup)

/-- Read from an orderly floor, an order and its queue are ready. -/
theorem Floor.Orderly.ready_queue {scale : Nat} {f : Floor} (h : f.Orderly scale) {id : OrderId}
    {o : Order} (hfind : f.store.find? id = some o) : f.store.Ready o (f.queue o) := by
  obtain rfl := (Store.mem_of_find? hfind).2
  exact Store.ready_rivals hfind (h.tidy.nodup_waiting _ _)

/-- A walk along a queue without its calls: the trades, and the order as they leave it. -/
inductive Meets (scale : Nat) :
    Store → Order → List Order → List FillCommit → Store → Order → Prop
  | out (s : Store) (o : Order) : Meets scale s o [] [] s o
  | full {s : Store} {o : Order} (counters : List Order) (h : o.matchable = false) :
      Meets scale s o counters [] s o
  | trade {s s' : Store} {o counter last : Order} {counters : List Order} {fill : FillCommit}
      {fills : List FillCommit} (hmatch : o.matchable = true)
      (t : s.Trade scale o counter fill)
      (h : Meets scale (s.commit fill).2 fill.incoming counters fills s' last) :
      Meets scale s o (counter :: counters) (fill :: fills) s' last

theorem Order.quiet_dropFilled (o : Order) (ticker : String) :
    (o.dropFilled ticker).Quiet fun _ => True := by
  unfold Order.dropFilled
  split
  · exact (Action.quiet_index _).attempt.bind fun _ _ => trivial
  · trivial

theorem FillCommit.quiet_settle (fill : FillCommit) (ticker : String) :
    (fill.settle ticker).Quiet fun _ => True :=
  ⟨rfl, fun _ => (fill.counter.quiet_dropFilled ticker).bind fun _ _ => ⟨rfl, fun _ => trivial⟩⟩

section

variable {scale : Nat} {f : Floor}

/-- **Along a queue that is ready, every fill is a trade and every commit goes through.** -/
theorem walk_ensures (ticker : String) {counters : List Order} {o : Order}
    (hf : f.Orderly scale) (hready : f.store.Ready o counters) :
    (walk scale ticker counters o).Ensures (Floor.Orderly scale) (fun r g =>
      ∀ a, r = .ok a → ∃ fills, Meets scale f.store o counters fills g.store a.1 ∧
        a.2.1 = fills.map FillCommit.event) f := by
  induction counters generalizing o f with
  | nil =>
      intro a h
      cases h
      exact ⟨[], .out f.store o, rfl⟩
  | cons c cs ih =>
      unfold walk
      by_cases hmatch : o.matchable = true
      · simp only [hmatch, Bool.not_true, Bool.false_eq_true, if_false]
        intro time _
        have hg : (f.after .now time).Orderly scale := hf.of_quiet rfl time
        refine ⟨hg, ?_⟩
        show (Action.ofExcept (o.fillWith c scale time) >>= _).Ensures _ _ _
        cases hfill : o.fillWith c scale time with
        | error e =>
            intro a h
            cases h
        | ok fill =>
            -- The fill was worked out from what is on record, so it is a trade and goes through.
            have t := hready.trade hmatch hfill
            refine Action.ensures_store (f := f.after .now time) ⟨hg.trade t, ?_⟩ fun e =>
              ⟨hg.of_failed _ e, fun _ h => nomatch h⟩
            have htrade := hg.trade t
            have hcommitted : ((f.after .now time).store.perform (.commit fill)).1 =
                .committed (f.store.executionPair fill) := t.committed.1
            rw [hcommitted] at htrade ⊢
            refine ((fill.quiet_settle ticker).ensures htrade).bind htrade ?_ ?_
            · -- Telling of the fill leaves the store as the trade made it.
              intro _ k hk hstore
              have hready' : k.store.Ready fill.incoming cs := by
                rw [hstore.1]
                exact hready.next t
              refine (ih hk hready').bind hk ?_ ?_
              · rintro ⟨last, fills, executions⟩ l hl hmeets a h
                cases h
                obtain ⟨commits, hcommits, hevents⟩ := hmeets _ rfl
                refine ⟨fill :: commits, .trade hmatch t ?_, ?_⟩
                · rw [hstore.1] at hcommits
                  exact hcommits
                · show fill.event :: fills = _
                  rw [show fills = _ from hevents]
                  rfl
              · intro e l _ _ a h
                cases h
            · intro e k _ _ a h
              cases h
      · rw [Bool.not_eq_true] at hmatch
        simp only [hmatch, Bool.not_false, if_true]
        intro a h
        cases h
        exact ⟨[], .full (c :: cs) hmatch, rfl⟩

/-- **The turn of a waiting order is a walk along its queue.** -/
theorem processOrder_ensures (hf : f.Orderly scale) (id : OrderId) (ticker : String) :
    (processOrder scale id ticker).Ensures (Floor.Orderly scale) (fun r g =>
      ∀ report o, r = .ok report → f.store.find? id = some o → o.ticker = ticker →
        o.matchable = true → ∃ fills last, Meets scale f.store o (f.queue o) fills g.store last ∧
          report.fills = fills.map FillCommit.event) f := by
  unfold processOrder
  have hloaded := hf.of_quiet (c := .store (.load id)) rfl (.ok (f.store.find? id))
  refine Action.ensures_store ⟨hloaded, ?_⟩ fun e => ⟨hf.of_quiet rfl _, fun _ _ h => nomatch h⟩
  rw [show (f.store.perform (.load id)).1 = f.store.find? id from rfl]
  cases hfind : f.store.find? id with
  | none => exact fun report o _ h => nomatch h
  | some o =>
      rw [hfind] at hloaded
      dsimp only
      by_cases hticker : o.ticker = ticker
      · by_cases hmatch : o.matchable = true
        · simp only [hticker, bne_self_eq_false, hmatch, Bool.not_true, Bool.false_eq_true,
            if_false]
          refine (Order.candidates_ensures hloaded o).bind hloaded ?_ ?_
          · rintro ⟨counters, stale⟩ g hg ⟨hstore, hcounters⟩
            have hqueue : counters = f.queue o := hcounters _ rfl
            have hready : g.store.Ready o counters := by
              rw [hstore, hqueue]
              exact hf.ready_queue hfind
            refine (walk_ensures ticker hg hready).bind hg ?_ ?_
            · rintro ⟨last, fills, executions⟩ k hk hmeets
              refine ((last.quiet_dropFilled ticker).ensures hk).bind hk ?_ ?_
              · intro _ l hl hlast report p hreport hp _ _
                cases hreport
                cases hp
                obtain ⟨commits, hcommits, hevents⟩ := hmeets _ rfl
                refine ⟨commits, last, ?_, hevents⟩
                rw [hstore, hqueue] at hcommits
                rw [hlast.1]
                exact hcommits
              · exact fun e l _ _ report p h => nomatch h
            · exact fun e k _ _ report p h => nomatch h
          · exact fun e g _ _ report p h => nomatch h
        · rw [Bool.not_eq_true] at hmatch
          simp only [hticker, bne_self_eq_false, hmatch, Bool.not_false, if_true,
            Bool.false_eq_true, if_false]
          refine Action.ensures_index ⟨hloaded.of_quiet rfl _, ?_⟩ fun e =>
            ⟨hloaded.of_quiet rfl _, fun _ _ h => nomatch h⟩
          intro report p _ hp _ hpmatch
          cases hp
          rw [hmatch] at hpmatch
          cases hpmatch
      · rw [if_pos (bne_iff_ne.mpr hticker)]
        exact fun report p h => nomatch h

end

end Bourse
