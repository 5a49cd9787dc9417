/-
A turn that is taken again comes to nothing.

A walk goes along a queue that was read once, while its own fills and removals change what
would be read now.  On a grid the two stay the same: every fill but the last one fills the
counter order, whose entry is then taken out, so what is ahead of the walk is at every
moment the queue as it would be read anew.  That is `Faces`, and `Faces.trade` is its step.

So wherever the walk has stopped, the next turn begins there.  Either the order is filled
and not listed any more, or its queue is empty, or the queue begins with an order that it
cannot be filled with, now as before.  `Settled` says what the next turn comes to in each
case, and `Settled.undisturbed_turn` that nothing else comes of it.
-/
import Bourse.Proofs.Completion
import Bourse.Proofs.Likeness
import Bourse.Proofs.Nomination
import Bourse.Proofs.Quotes

namespace Bourse

open Bourse.Action Decimal

variable {scale k : Nat}

/-! ### Walks and turns to their end -/

theorem walk_of_not_matchable {o : Order} (h : o.matchable = false) (ticker : String)
    (counters : List Order) : walk scale ticker counters o = .done (o, [], []) := by
  cases counters with
  | nil => rfl
  | cons c cs =>
      unfold walk
      rw [h]
      rfl

namespace Floor

variable {f g h l : Floor} {clock : Nat → Instant} {o c last : Order} {cs : List Order}
  {id : OrderId} {ticker : String}

theorem undisturbed_dropFilled (clock : Nat → Instant) (f : Floor) (o : Order) (ticker : String) :
    ∃ g, f.undisturbed clock (o.dropFilled ticker) = (.ok (), g) ∧ g.store = f.store ∧
      g.index = if o.status = .filled then (f.index.remove o.side ticker o.id).2 else f.index := by
  unfold Order.dropFilled
  by_cases hfilled : o.status = .filled
  · rw [if_pos hfilled, if_pos hfilled, undisturbed_bind, undisturbed_attempt]
    exact ⟨_, rfl, rfl, rfl⟩
  · rw [if_neg hfilled, if_neg hfilled]
    exact ⟨f, rfl, rfl, rfl⟩

theorem undisturbed_settle (clock : Nat → Instant) (f : Floor) (fill : FillCommit)
    (ticker : String) : ∃ g, f.undisturbed clock (fill.settle ticker) = (.ok (), g) ∧
      g.store = f.store ∧ g.index = if fill.counter.status = .filled then
        (f.index.remove fill.counter.side ticker fill.counter.id).2 else f.index := by
  obtain ⟨g, hrun, hstore, hindex⟩ := undisturbed_dropFilled clock
    (f.after (.recordFill fill.amount fill.completed) ()) fill.counter ticker
  refine ⟨g.after (.notify fill.event) true, ?_, hstore, hindex⟩
  unfold FillCommit.settle
  show (f.after (.recordFill fill.amount fill.completed) ()).undisturbed clock
    (fill.counter.dropFilled ticker >>= _) = _
  rw [undisturbed_bind, hrun]
  rfl

/-- A walk ends with the first fill that fails. -/
theorem undisturbed_walk_stuck (hmatch : o.matchable = true) {e : Error}
    (hfill : o.fillWith c scale (clock f.readings.length) = .error e) :
    f.undisturbed clock (walk scale ticker (c :: cs) o) =
      (.error (.error e), f.after .now (clock f.readings.length)) := by
  unfold walk
  simp only [hmatch, Bool.not_true, Bool.false_eq_true, if_false]
  show (f.after .now (clock f.readings.length)).undisturbed clock
    (Action.ofExcept (o.fillWith c scale (clock f.readings.length)) >>= _) = _
  rw [hfill]
  rfl

/-- A walk makes a fill, settles it and goes on with what is left of the order. -/
theorem undisturbed_walk_fill (hmatch : o.matchable = true) {fill : FillCommit}
    {receipt : FillReceipt} {r : Except Failure (Order × List FillEvent × List Execution)}
    (hfill : o.fillWith c scale (clock f.readings.length) = .ok fill)
    (hcommit : (f.store.commit fill).1 = .committed receipt)
    (hsettle : ((f.after .now (clock f.readings.length)).after (.store (.commit fill))
      (.ok (.committed receipt))).undisturbed clock (fill.settle ticker) = (.ok (), g))
    (hwalk : g.undisturbed clock (walk scale ticker cs fill.incoming) = (r, h)) :
    f.undisturbed clock (walk scale ticker (c :: cs) o) =
      (r.map fun a => (a.1, fill.event :: a.2.1, receipt.incoming :: a.2.2), h) := by
  have hcommitted : ((f.after .now (clock f.readings.length)).store.perform (.commit fill)).1 =
    .committed receipt := hcommit
  unfold walk
  simp only [hmatch, Bool.not_true, Bool.false_eq_true, if_false]
  show (f.after .now (clock f.readings.length)).undisturbed clock
    (Action.ofExcept (o.fillWith c scale (clock f.readings.length)) >>= _) = _
  rw [hfill]
  show (f.after .now (clock f.readings.length)).undisturbed clock
    (Action.store (.commit fill) >>= _) = _
  rw [undisturbed_bind, undisturbed_store, hcommitted]
  dsimp only
  rw [undisturbed_bind, hsettle]
  dsimp only
  rw [undisturbed_bind, hwalk]
  cases r <;> rfl

/-- A turn begins with what is on record of its order. -/
theorem undisturbed_load {α : Type} (clock : Nat → Instant) (f : Floor) (id : OrderId)
    (next : Option Order → Action α) : f.undisturbed clock (Action.store (.load id) >>= next) =
      (f.after (.store (.load id)) (.ok (f.store.find? id))).undisturbed clock
        (next (f.store.find? id)) :=
  undisturbed_bind clock f (Action.store (.load id)) next

theorem undisturbed_turn_unknown (hfind : f.store.find? id = none) :
    f.undisturbed clock (processOrder scale id ticker) =
      (.ok ⟨id, none, [], [], 0⟩, f.after (.store (.load id)) (.ok none)) := by
  unfold processOrder
  rw [undisturbed_load, hfind]
  rfl

theorem undisturbed_turn_misplaced (hfind : f.store.find? id = some o)
    (hticker : o.ticker ≠ ticker) : f.undisturbed clock (processOrder scale id ticker) =
      (.error (.error (misindexed o ticker)), f.after (.store (.load id)) (.ok (some o))) := by
  unfold processOrder
  rw [undisturbed_load, hfind]
  dsimp only
  rw [if_pos (bne_iff_ne.mpr hticker)]
  rfl

/-- The turn of an order that cannot be matched takes it out of the index. -/
theorem undisturbed_turn_gone (hfind : f.store.find? id = some o) (hticker : o.ticker = ticker)
    (hmatch : o.matchable = false) : f.undisturbed clock (processOrder scale id ticker) =
      (.ok ⟨id, some o.status, [], [], if (f.index.remove o.side ticker id).1 then 1 else 0⟩,
        (f.after (.store (.load id)) (.ok (some o))).after (.index (.remove o.side ticker id))
          (.ok (f.index.remove o.side ticker id).1)) := by
  unfold processOrder
  rw [undisturbed_load, hfind]
  simp only [hticker, bne_self_eq_false, hmatch, Bool.not_false, if_true, Bool.false_eq_true,
    if_false]
  rw [undisturbed_bind, undisturbed_index]
  rfl

/-- The turn of an order that can be matched, with what its parts come to. -/
theorem undisturbed_turn_done {counters : List Order} {stale : Nat} {fills : List FillEvent}
    {executions : List Execution} (hfind : f.store.find? id = some o) (hticker : o.ticker = ticker)
    (hmatch : o.matchable = true)
    (hcandidates : (f.after (.store (.load id)) (.ok (some o))).undisturbed clock o.candidates =
      (.ok (counters, stale), g))
    (hwalk : g.undisturbed clock (walk scale ticker counters o) =
      (.ok (last, fills, executions), h))
    (hdrop : h.undisturbed clock (last.dropFilled ticker) = (.ok (), l)) :
    f.undisturbed clock (processOrder scale id ticker) =
      (.ok ⟨id, some last.status, fills, executions, stale⟩, l) := by
  unfold processOrder
  rw [undisturbed_load, hfind]
  simp only [hticker, bne_self_eq_false, hmatch, Bool.not_true, Bool.false_eq_true, if_false]
  rw [undisturbed_bind, hcandidates]
  dsimp only
  rw [undisturbed_bind, hwalk]
  dsimp only
  rw [undisturbed_bind, hdrop]
  rfl

/-- The turn of an order fails with its walk. -/
theorem undisturbed_turn_failed {counters : List Order} {stale : Nat} {e : Failure}
    (hfind : f.store.find? id = some o) (hticker : o.ticker = ticker)
    (hmatch : o.matchable = true)
    (hcandidates : (f.after (.store (.load id)) (.ok (some o))).undisturbed clock o.candidates =
      (.ok (counters, stale), g))
    (hwalk : g.undisturbed clock (walk scale ticker counters o) = (.error e, h)) :
    f.undisturbed clock (processOrder scale id ticker) = (.error e, h) := by
  unfold processOrder
  rw [undisturbed_load, hfind]
  simp only [hticker, bne_self_eq_false, hmatch, Bool.not_true, Bool.false_eq_true, if_false]
  rw [undisturbed_bind, hcandidates]
  dsimp only
  rw [undisturbed_bind, hwalk]

end Floor

/-! ### A queue as it would be read now -/

/-- Whom an order cannot be filled with, it cannot be filled with at any other time. -/
theorem Order.fillWith_error {o c : Order} {e : Error} {time : Instant}
    (hticker : c.ticker = o.ticker) (h : o.fillWith c scale time = .error e) (time' : Instant) :
    o.fillWith c scale time' = .error e := by
  have hown {x : Order} (hx : x.ticker = o.ticker) : x.Own (fun _ => some o.ticker) o.ticker x :=
    ⟨hx, rfl, x.updatedAt, rfl⟩
  have hlike : Except.Like _ (o.fillWith c scale time) (o.fillWith c scale time') :=
    (hown rfl).fillWith (hown hticker) time time'
  rw [h] at hlike
  generalize o.fillWith c scale time' = r at hlike
  cases hlike
  rfl

namespace Floor

variable {f g : Floor} {o c : Order} {counters cs : List Order}

/-- On the floor `o` would meet these orders, and its book lists nobody who cannot be met. -/
structure Faces (f : Floor) (o : Order) (counters : List Order) : Prop where
  found : f.store.find? o.id = some o
  fit : ∀ id ∈ f.index.waiting o.side.opposite o.ticker, f.store.unfit o id = false
  queue : f.queue o = counters

/-- There is one queue of the orders that may be met. -/
theorem queue_eq_of_mem (hf : f.index.Tidy) (hsorted : counters.Pairwise o.side.Ahead)
    (hmem : ∀ c, c ∈ f.queue o ↔ c ∈ counters) : f.queue o = counters := by
  have hqueue : (f.queue o).Pairwise o.side.Ahead :=
    Side.queue_sorted (Store.nodup_rivals (hf.nodup_waiting _ _))
  have hnodup {os : List Order} (h : os.Pairwise o.side.Ahead) : os.Nodup := h.imp Side.Ahead.ne
  refine List.Perm.eq_of_pairwise (fun a b _ _ hab hba => absurd hba hab.asymm) hqueue hsorted ?_
  exact (List.perm_ext_iff_of_nodup (hnodup hqueue) (hnodup hsorted)).mpr hmem

theorem Faces.of_same (hfaces : f.Faces o counters) (hstore : g.store = f.store)
    (hindex : g.index = f.index) : g.Faces o counters := by
  obtain ⟨hfound, hfit, hqueue⟩ := hfaces
  refine ⟨?_, ?_, ?_⟩
  · rw [hstore]
    exact hfound
  · rw [hstore, hindex]
    exact hfit
  · unfold Floor.queue at hqueue ⊢
    rw [hstore, hindex]
    exact hqueue

theorem opposes_of_fit {id : OrderId} (h : f.store.unfit o id = false) :
    ∃ c, f.store.find? id = some c ∧ c.opposes o = true := by
  unfold Store.unfit at h
  cases hfind : f.store.find? id with
  | none => simp [hfind] at h
  | some c => exact ⟨c, rfl, by simpa [hfind] using h⟩

/-- Once the stale entries are dropped, an order faces its queue. -/
theorem Purged.faces (hpurged : f.Purged o (f.index.waiting o.side.opposite o.ticker) g)
    (hf : f.index.Tidy) (hfound : f.store.find? o.id = some o) : g.Faces o (f.queue o) := by
  have hlisted (id : OrderId) : id ∈ g.index.waiting o.side.opposite o.ticker ↔
      id ∈ f.index.waiting o.side.opposite o.ticker ∧ f.store.unfit o id = false := by
    rw [hpurged.listed]
    exact and_congr_right fun hid => ⟨fun h => h rfl hid, fun h _ _ => h⟩
  refine ⟨?_, fun id hid => ?_, queue_eq_of_mem hpurged.tidy ?_ fun c => ?_⟩
  · rw [hpurged.store]
    exact hfound
  · rw [hpurged.store]
    exact ((hlisted id).mp hid).2
  · exact Side.queue_sorted (Store.nodup_rivals (hf.nodup_waiting _ _))
  · rw [mem_queue_iff, mem_queue_iff, hpurged.store, hlisted]
    refine ⟨fun ⟨⟨hin, _⟩, h⟩ => ⟨hin, h⟩, fun ⟨hin, hfind, hmay⟩ => ⟨⟨hin, ?_⟩, hfind, hmay⟩⟩
    unfold Store.unfit
    rw [hfind]
    simp [(Bool.and_eq_true_iff.mp hmay).1]

/-- A fill touches nobody in the book of its counter order but that one. -/
theorem find?_bystander {s : Store} {fill : FillCommit} (t : s.Trade scale o c fill) {x : Order}
    (hx : x.side = o.side.opposite) (hne : x.id ≠ c.id) :
    (s.commit fill).2.find? x.id = some x ↔ s.find? x.id = some x := by
  rw [t.find?_commit, if_neg hne]
  by_cases hid : x.id = o.id
  · have hother {p : Order} (hp : p.side = o.side) : p ≠ x := by
      rintro rfl
      exact Side.opposite_ne _ (hx.symm.trans hp)
    rw [if_pos hid, hid, t.incomingFound, Option.some.injEq, Option.some.injEq]
    exact iff_of_false (hother t.incomingFilled.terms.side) (hother rfl)
  · rw [if_neg hid]

/-- **A fill that fills the counter order leaves the rest of the queue ahead.** -/
theorem Faces.trade (hfaces : f.Faces o (c :: cs)) (hf : f.index.Tidy) {fill : FillCommit}
    (t : f.store.Trade scale o c fill) (hstore : g.store = (f.store.commit fill).2)
    (hindex : g.index = (f.index.remove c.side c.ticker c.id).2) : g.Faces fill.incoming cs := by
  obtain ⟨hfound, hfit, hqueue⟩ := hfaces
  obtain ⟨-, hside, hticker⟩ := Order.opposes_iff.mp t.opposes
  have hterms := t.incomingFilled.terms
  have hsorted : (c :: cs).Pairwise o.side.Ahead :=
    hqueue ▸ Side.queue_sorted (Store.nodup_rivals (hf.nodup_waiting _ _))
  obtain ⟨hahead, hsorted⟩ := List.pairwise_cons.mp hsorted
  have hlisted (id : OrderId) : id ∈ g.index.waiting o.side.opposite o.ticker ↔
      id ∈ f.index.waiting o.side.opposite o.ticker ∧ id ≠ c.id := by
    rw [hindex, hf.mem_waiting_remove, hside, hticker]
    simp
  have hmem (x : Order) : x ∈ g.queue fill.incoming ↔ x ∈ f.queue o ∧ x.id ≠ c.id := by
    rw [mem_queue_iff, mem_queue_iff, hterms.side, hterms.ticker, Order.mayMeet_congr hterms,
      hlisted, hstore]
    constructor
    · rintro ⟨⟨hin, hne⟩, hfind, hmay⟩
      have hfind' := (find?_bystander t (Order.mayMeet_iff.mp hmay).2.1 hne).mp hfind
      exact ⟨⟨hin, hfind', hmay⟩, hne⟩
    · rintro ⟨⟨hin, hfind, hmay⟩, hne⟩
      have hfind' := (find?_bystander t (Order.mayMeet_iff.mp hmay).2.1 hne).mpr hfind
      exact ⟨⟨hin, hne⟩, hfind', hmay⟩
  refine ⟨?_, ?_, queue_eq_of_mem (hindex ▸ hf.perform (.remove _ _ _)) ?_ fun x => ?_⟩
  · rw [hstore, t.find?_commit, t.incoming_id, if_neg t.ids_ne, if_pos rfl]
  · rw [hterms.side, hterms.ticker]
    intro id hid
    obtain ⟨hin, hne⟩ := (hlisted id).mp hid
    obtain ⟨x, hfind, hopposes⟩ := opposes_of_fit (hfit id hin)
    obtain rfl := (Store.mem_of_find? hfind).2
    unfold Store.unfit
    rw [hstore, (find?_bystander t (Order.opposes_iff.mp hopposes).2.1 hne).mpr hfind]
    simp [Order.opposes_congr hterms, hopposes]
  · rw [hterms.side]
    exact hsorted
  · rw [hmem, hqueue, List.mem_cons]
    constructor
    · rintro ⟨rfl | hin, hne⟩
      · exact absurd rfl hne
      · exact hin
    · intro hin
      have hqueued : x ∈ f.queue o := hqueue ▸ List.mem_cons_of_mem c hin
      refine ⟨Or.inr hin, fun hid => (hahead x hin).ne ?_⟩
      exact Option.some.inj (t.counterFound.symm.trans (hid ▸ (mem_queue_iff.mp hqueued).2.1))

end Floor

/-! ### Where a walk stops -/

/-- What a walk comes to that makes no fill: nobody is ahead, or the first fill fails. -/
inductive Order.Blocked (scale : Nat) (o : Order) : List Order → Except Failure Unit → Prop
  | alone : Blocked scale o [] (.ok ())
  | stuck {c : Order} {e : Error} (cs : List Order)
      (h : ∀ time, o.fillWith c scale time = .error e) :
      Blocked scale o (c :: cs) (.error (.error e))

namespace Floor

variable {f g : Floor} {o c last : Order} {counters : List Order} {ticker : String}

/-- What a walk of `o` has left: nothing of the order, or the order facing what it stopped at. -/
structure Walked (scale : Nat) (o : Order) (r : Except Failure (Order × List FillEvent ×
    List Execution)) (g : Floor) (last : Order) : Prop where
  tidy : g.index.Tidy
  found : g.store.find? o.id = some last
  terms : o.SameTerms last
  reported : ∀ a, r = .ok a → a.1 = last
  stopped : (∃ a, r = .ok a) ∧ last.matchable = false ∧ last.status = .filled ∨
    last.matchable = true ∧ ∃ counters, g.Faces last counters ∧
      last.Blocked scale counters (r.map fun _ => ())

/-- The walk goes on as it would have begun with what the fill has left. -/
theorem Walked.earlier {p : Order} {a : Order × List FillEvent × List Execution →
    Order × List FillEvent × List Execution} {r : Except Failure (Order × List FillEvent ×
    List Execution)} (h : Walked scale p r g last) (hid : p.id = o.id) (hterms : o.SameTerms p)
    (ha : ∀ x, (a x).1 = x.1) : Walked scale o (r.map a) g last := by
  obtain ⟨htidy, hfound, hlast, hreported, hstopped⟩ := h
  refine ⟨htidy, hid ▸ hfound, hterms.trans hlast, ?_, ?_⟩
  · intro x hx
    cases r with
    | error e => cases hx
    | ok y =>
        cases hx
        rw [ha]
        exact hreported y rfl
  · cases r with
    | error e => exact hstopped
    | ok y => exact hstopped.imp_left fun h => ⟨⟨_, rfl⟩, h.2⟩

theorem walked_spent (hk : k ≤ 28) (hf : f.Orderly scale)
    (hgrid : ∀ a ∈ f.store.orders.map (·.amount), OnGrid k a.units)
    (hfound : f.store.find? o.id = some o) (hlive : o.status ≠ .cancelled)
    (hmatch : o.matchable = false) : Walked scale o (.ok (o, [], [])) f o := by
  have hexact := (hf.history.conserves hk hgrid o (Store.mem_of_find? hfound).1).1
  refine ⟨hf.tidy, hfound, .refl o, fun a h => ?_, Or.inl ⟨⟨_, rfl⟩, hmatch, ?_⟩⟩
  · cases h
    rfl
  · exact hexact.filled_of_not_matchable hlive hmatch

/-- A fill is committed and settled, and the order faces the rest of its queue. -/
theorem Faces.fill (hfaces : f.Faces o (c :: counters)) (hf : f.Orderly scale)
    (clock : Nat → Instant) {fill : FillCommit} (t : f.store.Trade scale o c fill)
    (hcompletes : fill.Completes) (hticker : o.ticker = ticker) :
    ∃ g, (f.after (.store (.commit fill))
        (.ok (.committed (f.store.executionPair fill)))).undisturbed clock (fill.settle ticker) =
          (.ok (), g) ∧
      g.Orderly scale ∧ g.store = (f.store.commit fill).2 ∧
      (fill.incoming.matchable = true → g.Faces fill.incoming counters) := by
  have htrade := hf.trade t
  rw [show (f.store.perform (.commit fill)).1 = _ from t.committed.1] at htrade
  obtain ⟨g, hrun, hstore, hindex⟩ := undisturbed_settle clock
    (f.after (.store (.commit fill)) (.ok (.committed (f.store.executionPair fill)))) fill ticker
  have hkeeps := (((fill.quiet_settle ticker).ensures htrade).of_leads
    (leads_undisturbed clock _ _) htrade).1
  rw [hrun] at hkeeps
  refine ⟨g, hrun, hkeeps, hstore, fun hmatch => hfaces.trade hf.tidy t hstore ?_⟩
  -- The waiting order is not filled, so the one it has met is.
  have hfilled : fill.counter.status = .filled :=
    hcompletes.resolve_left (Order.ne_filled_of_matchable hmatch)
  have hterms := t.counterFilled.terms
  have hcounter := (Order.opposes_iff.mp t.opposes).2.2
  rw [hindex, if_pos hfilled, hterms.side, hterms.id, hcounter, hticker]
  rfl

/-- **However a walk ends, what the order faces then is what it stopped at.** -/
theorem undisturbed_walk (hk : k ≤ 28) (clock : Nat → Instant) (hf : f.Orderly scale)
    (hgrid : ∀ a ∈ f.store.orders.map (·.amount), OnGrid k a.units)
    (hfound : f.store.find? o.id = some o) (hlive : o.status ≠ .cancelled)
    (hticker : o.ticker = ticker) (hfaces : o.matchable = true → f.Faces o counters) :
    ∃ r g last, f.undisturbed clock (walk scale ticker counters o) = (r, g) ∧
      Walked scale o r g last := by
  -- On the queue: what is ahead of the order at each step is what it would read then.
  induction counters generalizing o f with
  | nil =>
      refine ⟨_, f, o, rfl, ?_⟩
      cases hmatch : o.matchable with
      | false => exact walked_spent hk hf hgrid hfound hlive hmatch
      | true =>
          refine ⟨hf.tidy, hfound, .refl o, fun a h => ?_,
            Or.inr ⟨hmatch, [], hfaces hmatch, .alone⟩⟩
          cases h
          rfl
  | cons c cs ih =>
      cases hmatch : o.matchable with
      | false =>
          rw [walk_of_not_matchable hmatch]
          exact ⟨_, f, o, rfl, walked_spent hk hf hgrid hfound hlive hmatch⟩
      | true =>
          have hready := hf.ready_queue hfound
          rw [(hfaces hmatch).queue] at hready
          have hg : (f.after .now (clock f.readings.length)).Orderly scale := hf.of_quiet rfl _
          have hnow : (f.after .now (clock f.readings.length)).Faces o (c :: cs) :=
            (hfaces hmatch).of_same rfl rfl
          cases hfill : o.fillWith c scale (clock f.readings.length) with
          | error e =>
              have hcounter := Order.mayMeet_iff.mp (hready.counterFound c List.mem_cons_self).2
              refine ⟨_, _, o, undisturbed_walk_stuck hmatch hfill, hg.tidy, hfound, .refl o,
                (fun _ h => nomatch h), Or.inr ⟨hmatch, c :: cs, hnow, .stuck cs ?_⟩⟩
              exact o.fillWith_error hcounter.2.2.1 hfill
          | ok fill =>
              have t := hready.trade hmatch hfill
              have hcompletes := (hf.history.conserves hk hgrid).completes hk t
              obtain ⟨g, hrun, hg', hstore, hnext⟩ := hnow.fill hg clock t hcompletes hticker
              have hterms := t.incomingFilled.terms
              have hamounts := t.map_commit (·.amount) hterms.amount t.counterFilled.terms.amount
              -- What is left of the order goes on from where its fill is settled.
              obtain ⟨r, h, last, hwalk, hwalked⟩ := ih hg' (hstore ▸ hamounts.symm ▸ hgrid)
                (hstore ▸ (hready.next t).found) t.incoming_ne_cancelled
                (hterms.ticker.trans hticker) hnext
              exact ⟨_, h, last, undisturbed_walk_fill hmatch hfill t.committed.1 hrun hwalk,
                hwalked.earlier t.incoming_id hterms fun _ => rfl⟩

/-! ### What the next turn comes to -/

end Floor

/-- The report of a turn like this one that makes no fill and takes nothing out of the index. -/
def MatchReport.idle (report : MatchReport) : MatchReport :=
  { report with fills := [], executions := [], staleRemoved := 0 }

/-- Where all who are listed can be met, they are read and nobody is dropped. -/
theorem Order.nominated_of_fit {o : Order} {loaded : List Order} {ids : List OrderId}
    (h : ∀ id ∈ ids, ∃ c, loaded.find? (·.id == id) = some c ∧ c.opposes o = true) :
    o.nominated loaded ids = .done
      ((ids.filterMap fun id => loaded.find? (·.id == id)).filter o.mayMeet, 0) := by
  induction ids with
  | nil => rfl
  | cons id ids ih =>
      obtain ⟨⟨c, hfind, hopposes⟩, hids⟩ := List.forall_mem_cons.mp h
      unfold nominated
      rw [List.filterMap_cons, hfind, ih hids]
      dsimp only
      rw [if_pos hopposes, done_bind, List.filter_cons]
      unfold mayMeet
      rw [hopposes, Bool.true_and]
      cases o.accepts c.price <;> rfl

namespace Floor

variable {f g l : Floor} {o last : Order} {id : OrderId} {ticker : String}

/-- What another turn would come to, and that there is nothing for it to do. -/
inductive Settled (scale : Nat) (f : Floor) (id : OrderId) (ticker : String) :
    Except Failure MatchReport → Prop
  | unknown (hfind : f.store.find? id = none) :
      Settled scale f id ticker (.ok ⟨id, none, [], [], 0⟩)
  | misplaced {o : Order} (hfind : f.store.find? id = some o) (hticker : o.ticker ≠ ticker) :
      Settled scale f id ticker (.error (.error (misindexed o ticker)))
  | gone {o : Order} (hfind : f.store.find? id = some o) (hticker : o.ticker = ticker)
      (hmatch : o.matchable = false) (hout : id ∉ f.index.waiting o.side ticker) :
      Settled scale f id ticker (.ok ⟨id, some o.status, [], [], 0⟩)
  | waits {o : Order} {counters : List Order} {r : Except Failure Unit}
      (hfind : f.store.find? id = some o) (hticker : o.ticker = ticker)
      (hmatch : o.matchable = true) (hfaces : f.Faces o counters)
      (hblocked : o.Blocked scale counters r) :
      Settled scale f id ticker (r.map fun _ => ⟨id, some o.status, [], [], 0⟩)

/-- A walk that has failed fails again. -/
theorem Walked.settled_error {e : Failure} (h : Walked scale o (.error e) g last)
    (hticker : o.ticker = ticker) : g.Settled scale o.id ticker (.error e) := by
  obtain ⟨-, hfound, hterms, -, ⟨⟨a, ha⟩, -⟩ | ⟨hmatch, counters, hfaces, hblocked⟩⟩ := h
  · cases ha
  · exact .waits hfound (hterms.ticker.trans hticker) hmatch hfaces hblocked

/-- A walk that is done has filled its order, or it has nobody to go on with. -/
theorem Walked.settled {a : Order × List FillEvent × List Execution}
    (h : Walked scale o (.ok a) g last) (hticker : o.ticker = ticker) (hstore : l.store = g.store)
    (hindex : l.index = if last.status = .filled then (g.index.remove last.side ticker last.id).2
      else g.index) :
    l.Settled scale o.id ticker (.ok ⟨o.id, some last.status, [], [], 0⟩) := by
  obtain ⟨htidy, hfound, hterms, -, hstopped⟩ := h
  obtain ⟨-, hmatch, hfilled⟩ | ⟨hmatch, counters, hfaces, hblocked⟩ := hstopped
  · refine .gone (hstore ▸ hfound) (hterms.ticker.trans hticker) hmatch ?_
    rw [hindex, if_pos hfilled, hterms.id]
    exact fun hin => (htidy.mem_waiting_remove.mp hin).2 rfl rfl
  · rw [if_neg (Order.ne_filled_of_matchable hmatch)] at hindex
    exact .waits (hstore ▸ hfound) (hterms.ticker.trans hticker) hmatch
      (hfaces.of_same hstore hindex) hblocked

/-- **A turn leaves nothing for another one to do**, however it has ended. -/
theorem processOrder_settles (hk : k ≤ 28) (clock : Nat → Instant) (hf : f.Orderly scale)
    (hgrid : ∀ a ∈ f.store.orders.map (·.amount), OnGrid k a.units) (id : OrderId)
    (ticker : String) : ∃ r g, f.undisturbed clock (processOrder scale id ticker) = (r, g) ∧
      g.Settled scale id ticker (r.map MatchReport.idle) := by
  have hloaded (a) : (f.after (.store (.load id)) a).Orderly scale := hf.of_quiet rfl a
  cases hfind : f.store.find? id with
  | none => exact ⟨_, _, undisturbed_turn_unknown hfind, .unknown hfind⟩
  | some o =>
      by_cases hticker : o.ticker = ticker
      · cases hmatch : o.matchable with
        | false =>
            refine ⟨_, _, undisturbed_turn_gone hfind hticker hmatch, ?_⟩
            exact .gone hfind hticker hmatch (not_waiting_removed (hloaded _).tidy _)
        | true =>
            obtain rfl := (Store.mem_of_find? hfind).2
            have hread := hloaded (.ok (some o))
            obtain ⟨g, hcandidates, hpurged⟩ := undisturbed_candidates clock o hread.tidy
            have hg : g.Orderly scale := by
              have hkept := ((Order.candidates_ensures hread o).of_leads
                (leads_undisturbed clock _ _) hread).1
              rwa [hcandidates] at hkept
            have hstore : g.store = f.store := hpurged.store
            have hfaces := hpurged.faces hread.tidy hfind
            obtain ⟨r, h, last, hwalk, hwalked⟩ := undisturbed_walk hk clock hg (hstore ▸ hgrid)
              hfaces.found (Order.ne_cancelled_of_matchable hmatch) hticker fun _ => hfaces
            cases r with
            | error e =>
                exact ⟨_, h, undisturbed_turn_failed hfind hticker hmatch hcandidates hwalk,
                  hwalked.settled_error hticker⟩
            | ok walked =>
                obtain rfl := hwalked.reported walked rfl
                obtain ⟨l, hdrop, hl, hindex⟩ := undisturbed_dropFilled clock h walked.1 ticker
                exact ⟨_, l, undisturbed_turn_done hfind hticker hmatch hcandidates hwalk hdrop,
                  hwalked.settled hticker hl hindex⟩
      · exact ⟨_, _, undisturbed_turn_misplaced hfind hticker, .misplaced hfind hticker⟩

/-! ### Another turn -/

/-- Nothing has come of what was done from `f` to `g`. -/
structure Unchanged (f g : Floor) : Prop extends f.Silent g where
  books : ∀ side ticker, g.index.book? side ticker = f.index.book? side ticker
  /-- No call has taken an entry out. -/
  untaken : ∀ side ticker id, ⟨.index (.remove side ticker id), .ok true⟩ ∉ f.since g

theorem Unchanged.refl (f : Floor) : f.Unchanged f := by
  refine ⟨.refl f, fun _ _ => rfl, fun _ _ _ => ?_⟩
  rw [since_self]
  exact List.not_mem_nil

theorem Unchanged.trans (hfg : f.Unchanged g) (hgl : g.Unchanged l) : f.Unchanged l := by
  refine ⟨hfg.toSilent.trans hgl.toSilent, fun side ticker => ?_, fun side ticker id hin => ?_⟩
  · rw [hgl.books, hfg.books]
  · rw [since_trans hfg.log hgl.log] at hin
    rcases List.mem_append.mp hin with hin | hin
    · exact hfg.untaken side ticker id hin
    · exact hgl.untaken side ticker id hin

/-- A call that only looks around. -/
theorem unchanged_after {c : Call} {a : c.Answer} (hc : c.quiet = true)
    (hevent : Answered.event? ⟨c, a⟩ = none)
    (hbooks : ∀ side ticker, (f.indexAfter c a).book? side ticker = f.index.book? side ticker)
    (huntaken : ∀ side ticker id,
      (⟨c, a⟩ : Answered) ≠ ⟨.index (.remove side ticker id), .ok true⟩) :
    f.Unchanged (f.after c a) := by
  refine ⟨silent_of_quiet hc hevent, hbooks, fun side ticker id hin => ?_⟩
  rw [since_after] at hin
  exact huntaken side ticker id (List.mem_singleton.mp hin).symm

/-- **An order that faces its queue reads just that**, and drops nobody. -/
theorem Faces.undisturbed_candidates (hfaces : f.Faces o counters) (clock : Nat → Instant) :
    ∃ g, f.undisturbed clock o.candidates = (.ok (counters, 0), g) ∧ f.Unchanged g := by
  obtain ⟨-, hfit, hqueue⟩ := hfaces
  have hlist (ids : List OrderId) : f.Unchanged
      (f.after (.index (.list o.side.opposite o.ticker)) (.ok ids)) :=
    unchanged_after rfl rfl (fun _ _ => rfl) fun _ _ _ h => nomatch h
  unfold Floor.queue at hqueue
  unfold Order.candidates
  rw [undisturbed_bind, undisturbed_index]
  have hids : (f.index.perform (.list o.side.opposite o.ticker)).1 =
    f.index.waiting o.side.opposite o.ticker := rfl
  rw [hids]
  generalize f.index.waiting o.side.opposite o.ticker = ids at hfit hqueue
  cases ids with
  | nil =>
      refine ⟨_, ?_, hlist []⟩
      rw [← hqueue]
      rfl
  | cons id ids =>
      have hload : (f.after (.index (.list o.side.opposite o.ticker)) (.ok (id :: ids))).Unchanged
          ((f.after (.index (.list o.side.opposite o.ticker)) (.ok (id :: ids))).after
            (.store (.loadMany (id :: ids))) (.ok ((id :: ids).filterMap f.store.find?))) :=
        unchanged_after rfl rfl (fun _ _ => rfl) fun _ _ _ h => nomatch h
      have hnominated : o.nominated ((id :: ids).filterMap f.store.find?) (id :: ids) =
          .done (f.store.rivals o (id :: ids), 0) := by
        rw [Order.nominated_of_fit fun id' hid' => ?_, Store.filterMap_loaded]
        · rfl
        · rw [Store.find?_loaded, if_pos hid']
          exact opposes_of_fit (hfit id' hid')
      refine ⟨_, ?_, (hlist _).trans hload⟩
      simp only [List.isEmpty_cons, Bool.false_eq_true, if_false]
      rw [undisturbed_bind, undisturbed_store]
      dsimp only
      rw [show ((f.after (.index (.list o.side.opposite o.ticker))
          (.ok (id :: ids))).store.perform (.loadMany (id :: ids))).1 =
            (id :: ids).filterMap f.store.find? from rfl, hnominated, ← hqueue]
      rfl

/-- To take out what is not there leaves every book as it is. -/
theorem unchanged_remove (hkept : f.index.Kept) (htidy : f.index.Tidy) {side : Side}
    (hout : id ∉ f.index.waiting side ticker) :
    (f.index.perform (.remove side ticker id)).1 = false ∧
      f.Unchanged (f.after (.index (.remove side ticker id)) (.ok false)) := by
  have hfalse : (f.index.remove side ticker id).1 = false :=
    Bool.eq_false_iff.mpr fun htrue => hout (htidy.fst_remove.mp htrue)
  refine ⟨hfalse, unchanged_after rfl rfl (fun side' ticker' => ?_) fun _ _ _ h => nomatch h⟩
  exact hkept.book?_remove htidy hout side' ticker'

/-- The walk of an order that is blocked reads the clock at most. -/
theorem undisturbed_blocked {r : Except Failure Unit} (h : o.Blocked scale counters r)
    (hmatch : o.matchable = true) (clock : Nat → Instant) (f : Floor) (ticker : String) :
    ∃ g, f.undisturbed clock (walk scale ticker counters o) = (r.map fun _ => (o, [], []), g) ∧
      f.Unchanged g := by
  cases h with
  | alone => exact ⟨f, rfl, .refl f⟩
  | stuck cs hfill =>
      exact ⟨_, undisturbed_walk_stuck hmatch (hfill _),
        unchanged_after rfl rfl (fun _ _ => rfl) fun _ _ _ h => nomatch h⟩

/-- **Another turn comes to what was foreseen, and nothing comes of it.** -/
theorem Settled.undisturbed_turn {r : Except Failure MatchReport} (h : f.Settled scale id ticker r)
    (htidy : f.index.Tidy) (hkept : f.index.Kept) (clock : Nat → Instant) :
    ∃ g, f.undisturbed clock (processOrder scale id ticker) = (r, g) ∧ f.Unchanged g := by
  have hload (a) : f.Unchanged (f.after (.store (.load id)) a) :=
    unchanged_after rfl rfl (fun _ _ => rfl) fun _ _ _ h => nomatch h
  cases h with
  | unknown hfind => exact ⟨_, undisturbed_turn_unknown hfind, hload _⟩
  | misplaced hfind hticker => exact ⟨_, undisturbed_turn_misplaced hfind hticker, hload _⟩
  | @gone o hfind hticker hmatch hout =>
      obtain ⟨hanswer, hremove⟩ := unchanged_remove (f := f.after (.store (.load id))
        (.ok (some o))) hkept htidy hout
      refine ⟨_, ?_, (hload _).trans hremove⟩
      rw [undisturbed_turn_gone hfind hticker hmatch,
        show (f.index.remove o.side ticker id).1 = false from hanswer]
      rfl
  | @waits o counters r hfind hticker hmatch hfaces hblocked =>
      obtain ⟨g, hcandidates, hread⟩ := (hfaces.of_same (g := f.after (.store (.load id))
        (.ok (some o))) rfl rfl).undisturbed_candidates clock
      obtain ⟨l, hwalk, hwalked⟩ := undisturbed_blocked hblocked hmatch clock g ticker
      refine ⟨l, ?_, ((hload _).trans hread).trans hwalked⟩
      cases r with
      | error e => exact undisturbed_turn_failed hfind hticker hmatch hcandidates hwalk
      | ok _ =>
          refine undisturbed_turn_done hfind hticker hmatch hcandidates hwalk ?_
          unfold Order.dropFilled
          rw [if_neg (Order.ne_filled_of_matchable hmatch)]
          rfl

theorem kept_after (h : f.index.Kept) (htidy : f.index.Tidy) (c : Call) (a : c.Answer) :
    (f.after c a).index.Kept := by
  cases c with
  | index c =>
      cases a with
      | error e => exact h
      | ok a => exact h.perform htidy c
  | _ => exact h

theorem Leads.kept {α : Type} {work rest : Action α} (hlead : f.Leads work rest g)
    (htidy : f.index.Tidy) (h : f.index.Kept) : g.index.Kept := by
  induction hlead with
  | here work f => exact h
  | call a hmay _ ih => exact ih (indexAfter_tidy htidy _ a) (kept_after h htidy _ a)

theorem Seen.kept (h : f.Seen scale) : f.index.Kept :=
  h.along WaitingIndex.kept_empty fun a hf _ _ hkept => kept_after hkept hf.tidy _ a

/--
**A turn that is taken again comes to nothing.**  On a grid, while no call fails, the
second turn ends as the first one has ended, with the same error or with an empty report:
no fill is committed, no entry is taken out, and the store and all books are as before.
-/
theorem Seen.again (h : f.Seen scale) (hk : k ≤ 28)
    (hgrid : ∀ o ∈ f.store.orders, OnGrid k o.amount.units) (clock : Nat → Instant)
    (id : OrderId) (ticker : String) :
    let (result, g) := f.undisturbed clock (processOrder scale id ticker)
    let (result', l) := g.undisturbed clock (processOrder scale id ticker)
    result' = result.map MatchReport.idle ∧ g.Unchanged l := by
  have hf := h.orderly
  obtain ⟨r, g, hrun, hsettled⟩ := processOrder_settles hk clock hf (List.forall_mem_map.mpr hgrid)
    id ticker
  have hlead := leads_undisturbed clock f (processOrder scale id ticker)
  rw [hrun] at hlead ⊢
  have hkept : g.index.Kept := hlead.kept hf.tidy h.kept
  obtain ⟨l, hagain, hunchanged⟩ := hsettled.undisturbed_turn (hlead.tidy hf.tidy) hkept clock
  dsimp only
  rw [hagain]
  exact ⟨rfl, hunchanged⟩

/-- A buy order that can pay for one of the two orders it may meet, but not for the other. -/
def dearOffer : Floor :=
  session 2 .epoch [.order .sell (.ofDigits 1 0) (.ofDigits 1 0),
    .order .sell .greatest (.ofDigits 2 0), .order .buy .greatest (.ofDigits 3 0)]

/-- The first turn fails after a fill, the second one fails without any. -/
theorem again_dearOffer :
    let (result, g) := dearOffer.undisturbed (fun _ => .epoch) (processOrder 2 3 "X")
    let (result', l) := g.undisturbed (fun _ => .epoch) (processOrder 2 3 "X")
    dearOffer.Seen 2 ∧ (∀ o ∈ dearOffer.store.orders, OnGrid 0 o.amount.units) ∧
      (dearOffer.fillsSince g).length = 1 ∧
      result = .error (.error (FillFault.fillValueOverflow.error 3)) ∧
      result' = result.map MatchReport.idle ∧ g.Unchanged l := by
  have hseen : dearOffer.Seen 2 := (reached_session _ _ _).seen
  have hgrid : ∀ o ∈ dearOffer.store.orders, OnGrid 0 o.amount.units :=
    Store.onGrid_of_places (by decide) (by decide +kernel)
  exact ⟨hseen, hgrid, by decide +kernel, by decide +kernel,
    Seen.again hseen (by decide) hgrid (fun _ => .epoch) 3 "X"⟩

end Floor

end Bourse
