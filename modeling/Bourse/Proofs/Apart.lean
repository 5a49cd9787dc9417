/-
Tickers do not interfere.

Whoever works on a ticker changes its orders, their executions and its books, and leaves
alone what is of any other ticker (`Confined`).  What he sees is the part of the floor
that is of his ticker, and that part is all he goes by, as `Proofs/Likeness.lean` shows.
So passes over different tickers may take turns in any way.  Each of them comes to what
it would have come to by itself, and leaves of its ticker what it would have left.

What they share is the count of executions and the clock, and these show in what is
recorded: the identifiers of executions, and times.
-/
import Bourse.Proofs.Fans
import Bourse.Proofs.Likeness
import Bourse.Proofs.Nomination

namespace Bourse

open Bourse.Action

/-! ### What is compared -/

/-- An order but for when it last changed. -/
def Order.untimed (o : Order) : Order := { o with updatedAt := .epoch }

/-- An execution but for its own identifier and its time. -/
def Execution.bare (e : Execution) : Execution := { e with id := 0, executedAt := .epoch }

theorem Execution.map_bare_filter (es : List Execution) (id : OrderId) :
    (es.filter (·.order == id)).map (·.bare) = (es.map (·.bare)).filter (·.order == id) := by
  rw [List.filter_map]
  rfl

theorem Order.eq_of_untimed {o p : Order} (h : o.untimed = p.untimed) :
    p = { o with updatedAt := p.updatedAt } := by
  cases o
  cases p
  unfold untimed at h
  simp_all

theorem Order.Own.untimed_eq {filed : OrderId → Option String} {ticker : String} {o p : Order}
    (h : o.Own filed ticker p) : o.untimed = p.untimed := by
  obtain ⟨_, rfl⟩ := h.same
  rfl

namespace Floor

/-- The ticker that the order of an identifier trades. -/
def filing (f : Floor) (id : OrderId) : Option String := (f.store.find? id).map (·.ticker)

/-- The same orders, executions and books, but for times and the identifiers of executions. -/
structure Agrees (f g : Floor) : Prop where
  orders : ∀ id, (f.store.find? id).map (·.untimed) = (g.store.find? id).map (·.untimed)
  executions : ∀ id,
    (f.store.executionsOf id).map (·.bare) = (g.store.executionsOf id).map (·.bare)
  books : ∀ side ticker, f.index.book? side ticker = g.index.book? side ticker

/-- From `f` to `g` nothing has changed but what is of the ticker. -/
structure Confined (ticker : String) (f g : Floor) : Prop where
  filing : g.filing = f.filing
  orders : ∀ id, f.filing id ≠ some ticker → g.store.find? id = f.store.find? id
  executions : ∀ id, f.filing id ≠ some ticker → g.store.executionsOf id = f.store.executionsOf id
  books : ∀ side other, other ≠ ticker → g.index.book? side other = f.index.book? side other

/--
To whoever works on the ticker the two floors are the same.  Executions of what is no
order are nobody's, and they are compared for every ticker.
-/
structure Like (filed : OrderId → Option String) (ticker : String) (f g : Floor) : Prop where
  filing : f.filing = filed
  filing' : g.filing = filed
  orders : ∀ id, filed id = some ticker →
    (f.store.find? id).map (·.untimed) = (g.store.find? id).map (·.untimed)
  executions : ∀ id, (∀ other, filed id = some other → other = ticker) →
    (f.store.executionsOf id).map (·.bare) = (g.store.executionsOf id).map (·.bare)
  books : ∀ side, f.index.book? side ticker = g.index.book? side ticker

variable {filed : OrderId → Option String} {ticker other : String} {f g h : Floor}

theorem Confined.refl (ticker : String) (f : Floor) : f.Confined ticker f :=
  ⟨rfl, fun _ _ => rfl, fun _ _ => rfl, fun _ _ _ => rfl⟩

theorem Confined.trans (hfg : f.Confined ticker g) (hgh : g.Confined ticker h) :
    f.Confined ticker h where
  filing := hgh.filing.trans hfg.filing
  orders id hid := (hgh.orders id (hfg.filing ▸ hid)).trans (hfg.orders id hid)
  executions id hid := (hgh.executions id (hfg.filing ▸ hid)).trans (hfg.executions id hid)
  books side other hne := (hgh.books side other hne).trans (hfg.books side other hne)

theorem Like.refl (hfiling : f.filing = filed) (ticker : String) : f.Like filed ticker f :=
  ⟨hfiling, hfiling, fun _ _ => rfl, fun _ _ => rfl, fun _ => rfl⟩

/-- What is confined to one ticker makes no difference to work on another. -/
theorem Like.of_confined (hfh : f.Like filed ticker h) (hfg : f.Confined other g)
    (hne : other ≠ ticker) : g.Like filed ticker h where
  filing := hfg.filing.trans hfh.filing
  filing' := hfh.filing'
  orders id hid := by
    rw [hfg.orders id]
    · exact hfh.orders id hid
    · rw [hfh.filing, hid]
      exact fun hsome => hne (Option.some.inj hsome).symm
  executions id hid := by
    rw [hfg.executions id]
    · exact hfh.executions id hid
    · rw [hfh.filing]
      exact fun hother => hne (hid other hother)
  books side := (hfg.books side ticker hne.symm).trans (hfh.books side)

/-- What is looked up is the same, or an order of another ticker. -/
theorem Like.found (h : f.Like filed ticker g) (id : OrderId) :
    Option.Rel (Order.Like filed ticker) (f.store.find? id) (g.store.find? id) := by
  have hfiling : f.filing id = g.filing id := congrFun (h.filing.trans h.filing'.symm) id
  unfold Floor.filing at hfiling
  cases hf : f.store.find? id with
  | none =>
      cases hg : g.store.find? id with
      | none => exact .none
      | some p =>
          rw [hf, hg] at hfiling
          cases hfiling
  | some o =>
      cases hg : g.store.find? id with
      | none =>
          rw [hf, hg] at hfiling
          cases hfiling
      | some p =>
          obtain ⟨-, rfl⟩ := Store.mem_of_find? hf
          obtain ⟨-, hid⟩ := Store.mem_of_find? hg
          rw [hf, hg] at hfiling
          have hticker : o.ticker = p.ticker := Option.some.inj hfiling
          refine .some ?_
          by_cases htrades : o.ticker = ticker
          · have hfiled : filed o.id = some ticker := by
              rw [← h.filing]
              unfold Floor.filing
              rw [hf, ← htrades]
              rfl
            have hsame := h.orders o.id hfiled
            rw [hf, hg] at hsame
            exact .own ⟨htrades, hfiled, _, Order.eq_of_untimed (Option.some.inj hsame)⟩
          · exact .foreign hid hticker.symm htrades

end Floor

/-! ### A fill on two floors -/

namespace Store

variable {s s' : Store} {fill : FillCommit}

/-- Whether an order is current does not depend on when it last changed. -/
theorem current_congr {id : OrderId}
    (h : (s.find? id).map (·.untimed) = (s'.find? id).map (·.untimed)) (remaining : Decimal) :
    s.current id remaining = s'.current id remaining := by
  unfold current
  cases hs : s.find? id with
  | none =>
      rw [hs] at h
      rw [Option.map_eq_none_iff.mp h.symm]
  | some o =>
      rw [hs] at h
      obtain ⟨p, hp, hsame⟩ := Option.map_eq_some_iff.mp h.symm
      rw [hp, Order.eq_of_untimed hsame.symm]
      rfl

theorem commit_of_incoming_stale
    (h : s.current fill.incoming.id fill.incomingExpected = false) :
    s.commit fill = (.incomingUnavailable, s) := by
  simp [commit, h]

theorem commit_of_counter_stale
    (hincoming : s.current fill.incoming.id fill.incomingExpected = true)
    (hcounter : s.current fill.counter.id fill.counterExpected = false) :
    s.commit fill = (.counterUnavailable, s) := by
  simp [commit, hincoming, hcounter]

/-- A fill between orders that are current goes through. -/
theorem takes_of_current (hincoming : s.current fill.incoming.id fill.incomingExpected = true)
    (hcounter : s.current fill.counter.id fill.counterExpected = true) :
    ∃ o p, s.Takes fill o p := by
  rcases s.commit_cases fill with htakes | ⟨-, hturned⟩
  · exact htakes
  · exact absurd (commit_of_current hincoming hcounter).1 (hturned _)

/-- The executions of a fill are those of its two orders. -/
theorem Takes.executionsOf_pair {o p : Order} (h : s.Takes fill o p) (id : OrderId) :
    (s.commit fill).2.executionsOf id = s.executionsOf id ++
      [(s.executionPair fill).incoming, (s.executionPair fill).counter].filter (·.order == id) := by
  obtain ⟨-, hexecutions, -⟩ := h.committed
  unfold executionsOf
  rw [hexecutions, List.filter_append]

end Store

namespace Floor

variable {filed : OrderId → Option String} {ticker : String} {f g : Floor}
  {fill fill' : FillCommit}

/-- A fill between orders of a ticker files no order anew. -/
theorem filing_commit {o p : Order} (htakes : f.store.Takes fill o p)
    (hfill : fill.Like f.filing ticker fill') {index : WaitingIndex} {log : List Answered} :
    (⟨(f.store.commit fill).2, index, log⟩ : Floor).filing = f.filing := by
  funext id
  show ((f.store.commit fill).2.find? id).map (·.ticker) = f.filing id
  rw [htakes.find?_commit]
  split
  · rename_i hid
    rw [hid, hfill.counter.filing, ← hfill.counter.trades]
    rfl
  · split
    · rename_i hid
      rw [hid, hfill.incoming.filing, ← hfill.incoming.trades]
      rfl
    · rfl

theorem Confined.of_same (hstore : g.store = f.store) (hindex : g.index = f.index) :
    f.Confined ticker g := by
  cases f
  cases g
  subst hstore hindex
  exact ⟨rfl, fun _ _ => rfl, fun _ _ => rfl, fun _ _ _ => rfl⟩

/-- A fill between orders of a ticker is confined to it. -/
theorem confined_commit (hfill : fill.Like f.filing ticker fill') (outcome : FillOutcome) :
    f.Confined ticker (f.after (.store (.commit fill)) (.ok outcome)) := by
  rcases f.store.commit_cases fill with ⟨o, p, htakes⟩ | ⟨hsame, -⟩
  · have hne {id : OrderId} (hid : f.filing id ≠ some ticker) :
        id ≠ fill.counter.id ∧ id ≠ fill.incoming.id :=
      ⟨fun h => hid (h ▸ hfill.counter.filing), fun h => hid (h ▸ hfill.incoming.filing)⟩
    refine ⟨filing_commit htakes hfill, fun id hid => ?_, fun id hid => ?_, fun _ _ _ => rfl⟩
    · obtain ⟨hcounter, hincoming⟩ := hne hid
      show (f.store.commit fill).2.find? id = f.store.find? id
      rw [htakes.find?_commit, if_neg hcounter, if_neg hincoming]
    · obtain ⟨hcounter, hincoming⟩ := hne hid
      show (f.store.commit fill).2.executionsOf id = f.store.executionsOf id
      rw [htakes.executionsOf_pair]
      simp [Store.executionPair, hcounter.symm, hincoming.symm]
  · exact .of_same hsame rfl

theorem Like.of_same {f' g' : Floor} (h : f.Like filed ticker g) (hstore : f'.store = f.store)
    (hindex : f'.index = f.index) (hstore' : g'.store = g.store) (hindex' : g'.index = g.index) :
    f'.Like filed ticker g' := by
  cases f
  cases g
  cases f'
  cases g'
  subst hstore hindex hstore' hindex'
  exact ⟨h.filing, h.filing', h.orders, h.executions, h.books⟩

/-- The same fill, when it goes through on both floors, leaves them the same. -/
theorem Like.commit_takes (h : f.Like filed ticker g) (hfill : fill.Like filed ticker fill')
    {o p o' p' : Order} (htakes : f.store.Takes fill o p) (htakes' : g.store.Takes fill' o' p')
    (outcome outcome' : FillOutcome) :
    (f.after (.store (.commit fill)) (.ok outcome)).Like filed ticker
      (g.after (.store (.commit fill')) (.ok outcome')) where
  filing := (filing_commit htakes (h.filing ▸ hfill)).trans h.filing
  filing' := (filing_commit htakes' (h.filing' ▸ hfill.symm)).trans h.filing'
  orders id hid := by
    show ((f.store.commit fill).2.find? id).map _ = ((g.store.commit fill').2.find? id).map _
    rw [htakes.find?_commit, htakes'.find?_commit, hfill.incoming.id_eq, hfill.counter.id_eq]
    split
    · exact congrArg some hfill.counter.untimed_eq
    · split
      · exact congrArg some hfill.incoming.untimed_eq
      · exact h.orders id hid
  executions id hid := by
    show ((f.store.commit fill).2.executionsOf id).map _ =
      ((g.store.commit fill').2.executionsOf id).map _
    rw [htakes.executionsOf_pair, htakes'.executionsOf_pair, List.map_append, List.map_append,
      h.executions id hid, Execution.map_bare_filter, Execution.map_bare_filter]
    simp only [Store.executionPair, hfill.incoming.id_eq, hfill.counter.id_eq, hfill.price,
      hfill.amount, List.map_cons, List.map_nil, Execution.bare]
  books := h.books

/-- **The same fill on two floors** is taken or turned away on both, and to the same effect. -/
theorem Like.commit (h : f.Like filed ticker g) (hfill : fill.Like filed ticker fill') :
    FillOutcome.Like (f.store.commit fill).1 (g.store.commit fill').1 ∧
      (f.after (.store (.commit fill)) (.ok (f.store.commit fill).1)).Like filed ticker
        (g.after (.store (.commit fill')) (.ok (g.store.commit fill').1)) := by
  have hincoming : g.store.current fill'.incoming.id fill'.incomingExpected =
      f.store.current fill.incoming.id fill.incomingExpected := by
    rw [hfill.incoming.id_eq, hfill.incomingExpected]
    exact (Store.current_congr (h.orders _ hfill.incoming.filing) _).symm
  have hcounter : g.store.current fill'.counter.id fill'.counterExpected =
      f.store.current fill.counter.id fill.counterExpected := by
    rw [hfill.counter.id_eq, hfill.counterExpected]
    exact (Store.current_congr (h.orders _ hfill.counter.filing) _).symm
  cases hin : f.store.current fill.incoming.id fill.incomingExpected with
  | false =>
      have hf := Store.commit_of_incoming_stale hin
      have hg := Store.commit_of_incoming_stale (hincoming.trans hin)
      rw [hf, hg]
      exact ⟨.incomingUnavailable,
        h.of_same (congrArg Prod.snd hf) rfl (congrArg Prod.snd hg) rfl⟩
  | true =>
      cases hout : f.store.current fill.counter.id fill.counterExpected with
      | false =>
          have hf := Store.commit_of_counter_stale hin hout
          have hg := Store.commit_of_counter_stale (hincoming.trans hin) (hcounter.trans hout)
          rw [hf, hg]
          exact ⟨.counterUnavailable,
            h.of_same (congrArg Prod.snd hf) rfl (congrArg Prod.snd hg) rfl⟩
      | true =>
          obtain ⟨o, p, htakes⟩ := Store.takes_of_current hin hout
          obtain ⟨o', p', htakes'⟩ :=
            Store.takes_of_current (hincoming.trans hin) (hcounter.trans hout)
          refine ⟨?_, h.commit_takes hfill htakes htakes' _ _⟩
          rw [htakes.committed.1, htakes'.committed.1]
          exact .committed _ _

end Floor

/-! ### A call -/

namespace Floor

variable {f : Floor}

theorem ok_of_given_store {c : StoreCall} {a : (Call.store c).Answer} (hmay : f.May (.store c) a)
    (hgiven : Answered.refused ⟨.store c, a⟩ = false) : a = .ok (f.store.perform c).1 := by
  cases a with
  | ok a => exact congrArg Except.ok hmay
  | error e => cases hgiven

theorem ok_of_given_index {c : IndexCall} {a : (Call.index c).Answer} (hmay : f.May (.index c) a)
    (hgiven : Answered.refused ⟨.index c, a⟩ = false) : a = .ok (f.index.perform c).1 := by
  cases a with
  | ok a => exact congrArg Except.ok hmay
  | error e => cases hgiven

theorem refused_grant (f : Floor) (time : Instant) (c : Call) :
    Answered.refused ⟨c, f.grant time c⟩ = false := by
  cases c <;> rfl

end Floor

namespace Call.Like

variable {filed : OrderId → Option String} {ticker : String} {f g : Floor} {c c' : Call}
  {Q : c.Answer → c'.Answer → Prop} {a : c.Answer} {a' : c'.Answer}

/-- **The same call on two floors** is answered alike, and to the same effect. -/
theorem step (hc : c.Like filed ticker c' Q) (h : f.Like filed ticker g) (hmay : f.May c a)
    (hgiven : Answered.refused ⟨c, a⟩ = false) (hmay' : g.May c' a')
    (hgiven' : Answered.refused ⟨c', a'⟩ = false) :
    Q a a' ∧ (f.after c a).Like filed ticker (g.after c' a') := by
  cases hc with
  | load id =>
      obtain rfl := Floor.ok_of_given_store hmay hgiven
      obtain rfl := Floor.ok_of_given_store hmay' hgiven'
      exact ⟨.ok (h.found id), h.of_same rfl rfl rfl rfl⟩
  | loadMany ids =>
      obtain rfl := Floor.ok_of_given_store hmay hgiven
      obtain rfl := Floor.ok_of_given_store hmay' hgiven'
      refine ⟨.ok ?_, h.of_same rfl rfl rfl rfl⟩
      refine List.rel_filterMap (R := Eq) (fun id _ hid => ?_) (List.forall₂_refl ids)
      exact hid ▸ h.found id
  | commit hfill =>
      obtain rfl := Floor.ok_of_given_store hmay hgiven
      obtain rfl := Floor.ok_of_given_store hmay' hgiven'
      obtain ⟨houtcome, hafter⟩ := h.commit hfill
      exact ⟨.ok houtcome, hafter⟩
  | list side =>
      obtain rfl := Floor.ok_of_given_index hmay hgiven
      obtain rfl := Floor.ok_of_given_index hmay' hgiven'
      refine ⟨.ok ?_, h.of_same rfl rfl rfl rfl⟩
      show f.index.waiting side ticker = g.index.waiting side ticker
      unfold WaitingIndex.waiting
      rw [h.books side]
  | remove side id =>
      obtain rfl := Floor.ok_of_given_index hmay hgiven
      obtain rfl := Floor.ok_of_given_index hmay' hgiven'
      obtain ⟨hremoved, hleft⟩ := WaitingIndex.remove_congr (h.books side) id
      refine ⟨.ok hremoved, h.filing, h.filing', h.orders, h.executions, fun side' => ?_⟩
      show (f.index.remove side ticker id).2.book? side' ticker =
        (g.index.remove side ticker id).2.book? side' ticker
      by_cases hside : side' = side
      · rw [hside, hleft]
      · have hne : (side', ticker) ≠ (side, ticker) := fun hbook => hside (Prod.mk.inj hbook).1
        rw [WaitingIndex.book?_remove_of_ne hne, WaitingIndex.book?_remove_of_ne hne, h.books]
  | now | notify | count | recordFill => exact ⟨trivial, h.of_same rfl rfl rfl rfl⟩

/-- **A call of work on a ticker is confined to it**, however it is answered. -/
theorem confined (hc : c.Like f.filing ticker c' Q) (a : c.Answer) :
    f.Confined ticker (f.after c a) := by
  cases hc with
  | load | loadMany =>
      refine .of_same ?_ rfl
      cases a <;> rfl
  | commit hfill =>
      cases a with
      | ok outcome => exact Floor.confined_commit hfill outcome
      | error e => exact .of_same rfl rfl
  | list =>
      refine .of_same rfl ?_
      cases a <;> rfl
  | remove side id =>
      cases a with
      | error e => exact .of_same rfl rfl
      | ok removed =>
          refine ⟨rfl, fun _ _ => rfl, fun _ _ => rfl, fun side' other hother => ?_⟩
          exact WaitingIndex.book?_remove_of_ne fun hbook => hother (Prod.mk.inj hbook).2
  | now | notify | count | recordFill => exact .of_same rfl rfl

/-- However a call is answered, the same call can be answered alike. -/
theorem answered (hc : c.Like f.filing ticker c' Q) (hmay : f.May c a) : ∃ a', Q a a' := by
  by_cases hgiven : Answered.refused ⟨c, a⟩ = false
  · exact ⟨_, (hc.step (.refl rfl ticker) hmay hgiven (f.may_grant .epoch c')
      (f.refused_grant .epoch c')).1⟩
  · cases hc with
    | load | loadMany | commit | list | remove =>
        cases a with
        | ok a => exact absurd rfl hgiven
        | error e => exact ⟨.error e, .error e⟩
    | now | notify | count | recordFill => exact absurd rfl hgiven

end Call.Like

/-! ### Work on one ticker -/

namespace Action

variable {α : Type} {ticker : String}

/-- The work goes by what is of the ticker. -/
def Within (filed : OrderId → Option String) (ticker : String) (work : Action α) : Prop :=
  ∃ left : Action α, work.Like filed ticker Eq left

theorem Like.of_ended {filed : OrderId → Option String} {r : Except Failure α} {left : Action α}
    (h : (ended r).Like filed ticker Eq left) : left = ended r := by
  cases r with
  | ok a =>
      cases h with
      | done h =>
          subst h
          rfl
  | error e =>
      cases h
      rfl

theorem Within.call {f : Floor} {c : Call} {rest : c.Answer → Action α} {a : c.Answer}
    (h : (call c rest).Within f.filing ticker) (hmay : f.May c a) :
    f.Confined ticker (f.after c a) ∧ (rest a).Within f.filing ticker := by
  obtain ⟨left, hlike⟩ := h
  cases hlike with
  | call hc hrest =>
      obtain ⟨a', ha⟩ := hc.answered hmay
      exact ⟨hc.confined a, _, hrest a a' ha⟩

end Action

namespace Floor

variable {α : Type} {filed : OrderId → Option String} {ticker : String} {f g s : Floor}

/-- **Work on a ticker changes nothing of another one**, wherever it stops. -/
theorem Leads.confined {work rest : Action α} (hlead : f.Leads work rest g)
    (h : work.Within f.filing ticker) : f.Confined ticker g := by
  induction hlead with
  | here work f => exact .refl ticker f
  | call a hmay _ ih =>
      obtain ⟨hafter, hrest⟩ := h.call hmay
      exact hafter.trans (ih (hafter.filing ▸ hrest))

theorem perform_call (f : Floor) (time : Instant) (c : Call) (rest : c.Answer → Action α) :
    f.perform time (.call c rest) =
      (f.after c (f.grant time c)).perform time (rest (f.grant time c)) := rfl

theorem perform_ended (f : Floor) (time : Instant) (r : Except Failure α) :
    f.perform time (ended r) = (r, f) := by
  cases r <;> rfl

/-! ### Work on many tickers at once -/

/--
What can come of one piece of work for each ticker if no call fails.  Between two calls of
one of them the others may make any number of theirs.
-/
inductive Abreast : Floor → (String → Action α) → (String → Action α) → Floor → Prop
  | here (f : Floor) (works : String → Action α) : Abreast f works works f
  | call {f g : Floor} {works works' : String → Action α} {ticker : String} {c : Call}
      {rest : c.Answer → Action α} (hwork : works ticker = .call c rest) (a : c.Answer)
      (hmay : f.May c a) (hgiven : Answered.refused ⟨c, a⟩ = false)
      (h : Abreast (f.after c a) (Function.update works ticker (rest a)) works' g) :
      Abreast f works works' g

/-- If no call was refused, this is how work for each ticker goes. -/
theorem Fans.abreast {works works' : String → Action α} {trace : List (String × Answered)}
    (hfan : f.Fans works trace works' g) (hgiven : ∀ x ∈ trace, x.2.refused = false) :
    f.Abreast works works' g := by
  induction hfan with
  | here f works => exact .here f works
  | call hwork a hmay _ ih =>
      obtain ⟨hcall, hgiven⟩ := List.forall_mem_cons.mp hgiven
      exact .call hwork a hmay hcall (ih hgiven)

/--
**Each comes to what it comes to by itself.**  By itself it may be done on any floor that
is the same to it, at any time.
-/
theorem Abreast.alone {works works' : String → Action α} {results : String → Except Failure α}
    (hrun : f.Abreast works works' g) (hend : works' = fun ticker => ended (results ticker))
    (hworks : ∀ ticker, (works ticker).Within filed ticker) {left : Action α}
    (hlike : (works ticker).Like filed ticker Eq left) (hfs : f.Like filed ticker s) :
    (s.perform .epoch left).1 = results ticker ∧
      g.Like filed ticker (s.perform .epoch left).2 := by
  induction hrun generalizing left s with
  | here f works =>
      subst hend
      rw [hlike.of_ended, perform_ended]
      exact ⟨rfl, hfs⟩
  | @call f g works works' other c rest hwork a hmay hgiven _ ih =>
      have hother := hworks other
      rw [hwork, ← hfs.filing] at hother
      obtain ⟨hconfined, hrest⟩ := hother.call hmay
      rw [hfs.filing] at hrest
      have hworks' := (Function.forall_update_iff works fun t work => work.Within filed t).mpr
        ⟨hrest, fun t _ => hworks t⟩
      -- A call of this ticker is made by itself, too; a call of another one goes unnoticed.
      by_cases hticker : other = ticker
      · subst hticker
        rw [hwork] at hlike
        cases hlike with
        | @call _ c' _ rest' Q hc hnext =>
            obtain ⟨hanswer, hafter⟩ := hc.step hfs hmay hgiven (s.may_grant .epoch c')
              (s.refused_grant .epoch c')
            rw [perform_call]
            refine ih hend hworks' ?_ hafter
            rw [Function.update_self]
            exact hnext _ _ hanswer
      · refine ih hend hworks' ?_ (hfs.of_confined hconfined hticker)
        rw [Function.update_of_ne (Ne.symm hticker)]
        exact hlike

/-- Floors that are the same to all agree. -/
theorem agrees_of_like {h : String → Floor} (hf : ∀ ticker, f.Like filed ticker (h ticker))
    (hg : ∀ ticker, g.Like filed ticker (h ticker)) : f.Agrees g where
  orders id := by
    cases hid : filed id with
    | some ticker => exact ((hf ticker).orders id hid).trans ((hg ticker).orders id hid).symm
    | none =>
        have hnone {k : Floor} (hk : k.filing = filed) : k.store.find? id = none :=
          Option.map_eq_none_iff.mp ((congrFun hk id).trans hid)
        rw [hnone (hf "").filing, hnone (hg "").filing]
  executions id := by
    have hsole (other : String) (h : filed id = some other) : other = (filed id).getD "" := by
      rw [h]
      rfl
    exact ((hf _).executions id hsole).trans ((hg _).executions id hsole).symm
  books side ticker := ((hf ticker).books side).trans ((hg ticker).books side).symm

/-- Undisturbed, work has no call refused. -/
theorem given_undisturbed (clock : Nat → Instant) (f : Floor) (work : Action α) :
    ∀ x ∈ f.since (f.undisturbed clock work).2, x.refused = false := by
  induction work generalizing f with
  | done a => exact (since_self f).symm ▸ List.forall_mem_nil _
  | fail e => exact (since_self f).symm ▸ List.forall_mem_nil _
  | call c rest ih =>
      rw [undisturbed_call, (leads_undisturbed clock _ _).since_call]
      exact List.forall_mem_cons.mpr ⟨f.refused_grant _ c, ih _ _⟩

end Floor

/-! ### The passes of a tick -/

/-- A pass for each of the tickers, and nothing for any other. -/
def passes (scale : Nat) (tickers : List String) (ticker : String) : Action TickReport :=
  if ticker ∈ tickers then drainTicker scale ticker else .done .zero

theorem passes_like (scale : Nat) (tickers : List String) (filed : OrderId → Option String)
    (ticker : String) : (passes scale tickers ticker).Like filed ticker Eq
      (passes scale tickers ticker) := by
  unfold passes
  split
  · exact drainTicker_like scale filed ticker
  · exact .done rfl

/-- To drain some of the tickers, one after the other, is one way for these passes to go. -/
theorem Floor.Leads.passed {scale : Nat} {f g : Floor} {tickers order : List String}
    (hperm : order.Perm tickers) (hnodup : order.Nodup)
    {r : Except Failure (List (Except Failure TickReport))}
    (hlead : f.Leads (drainTickers scale order) (.ended r) g) :
    ∃ (results : String → Except Failure TickReport) (trace : List (String × Answered)),
      r = .ok (order.map results) ∧
        f.Fans (passes scale tickers) trace (fun ticker => ended (results ticker)) g ∧
          trace.map (·.2) = order.flatMap (callsOf trace) := by
  have hworks : ∀ ticker ∈ order, passes scale tickers ticker = drainTicker scale ticker :=
    fun ticker hin => if_pos (hperm.mem_iff.mp hin)
  obtain ⟨results, trace, rfl, hfan, -, hserial⟩ := Floor.Leads.drained hnodup hworks hlead
  refine ⟨fun ticker => if ticker ∈ order then results ticker else .ok .zero, trace, ?_, ?_,
    hserial⟩
  · exact congrArg Except.ok (List.map_congr_left fun ticker hin => (if_pos hin).symm)
  · have hend : (fun ticker => if ticker ∈ order then ended (results ticker) else
        passes scale tickers ticker) =
        fun ticker => ended (if ticker ∈ order then results ticker else .ok .zero) := by
      funext ticker
      by_cases hin : ticker ∈ order
      · rw [if_pos hin, if_pos hin]
      · rw [if_neg hin, if_neg hin]
        exact if_neg fun hin' => hin (hperm.mem_iff.mpr hin')
    rwa [hend] at hfan

/-- So it is one way for the passes over these tickers, in whatever order they are drained. -/
theorem passes_abreast (scale : Nat) (clock : Nat → Instant) {tickers order : List String}
    (hperm : order.Perm tickers) (hnodup : order.Nodup) (f : Floor) :
    ∃ results : String → Except Failure TickReport,
      (f.undisturbed clock (drainTickers scale order)).1 = .ok (order.map results) ∧
        f.Abreast (passes scale tickers) (fun ticker => ended (results ticker))
          (f.undisturbed clock (drainTickers scale order)).2 := by
  obtain ⟨results, trace, hresults, hfan, -⟩ :=
    (f.leads_undisturbed clock (drainTickers scale order)).passed hperm hnodup
  refine ⟨results, hresults, hfan.abreast fun x hx => ?_⟩
  have hgiven := f.given_undisturbed clock (drainTickers scale order)
  rw [Floor.since_eq hfan.log] at hgiven
  exact hgiven x.2 (List.mem_map_of_mem hx)

/--
**Tickers do not interfere.**  However the passes over some tickers take turns, call by
call, if no call fails they come to the same reports and leave the same orders, executions
and books, whatever the clock shows.  Draining the tickers one after the other, in any
order, is one way of taking turns.  And a pass over a ticker changes no order and no book
of another one, whatever is listed and whatever fails.
-/
theorem tickers_apart (scale : Nat) (f : Floor) (tickers : List String) :
    (∀ (results results' : String → Except Failure TickReport) (g g' : Floor),
      f.Abreast (passes scale tickers) (fun ticker => ended (results ticker)) g →
      f.Abreast (passes scale tickers) (fun ticker => ended (results' ticker)) g' →
        results = results' ∧ g.Agrees g') ∧
    (∀ (order : List String) (clock : Nat → Instant), order.Perm tickers → order.Nodup →
      ∃ results : String → Except Failure TickReport,
        (f.undisturbed clock (drainTickers scale order)).1 = .ok (order.map results) ∧
          f.Abreast (passes scale tickers) (fun ticker => ended (results ticker))
            (f.undisturbed clock (drainTickers scale order)).2) ∧
    ∀ (ticker : String) (rest : Action TickReport) (g : Floor),
      f.Leads (drainTicker scale ticker) rest g → f.Confined ticker g := by
  have hlike (ticker : String) := passes_like scale tickers f.filing ticker
  have halone {results : String → Except Failure TickReport} {g : Floor}
      (hrun : f.Abreast (passes scale tickers) (fun ticker => ended (results ticker)) g)
      (ticker : String) :=
    hrun.alone rfl (fun other => ⟨_, hlike other⟩) (hlike ticker) (.refl rfl ticker)
  refine ⟨fun results results' g g' hrun hrun' => ⟨?_, ?_⟩, fun order clock hperm hnodup => ?_,
    fun ticker rest g hlead => ?_⟩
  · funext ticker
    exact (halone hrun ticker).1.symm.trans (halone hrun' ticker).1
  · exact Floor.agrees_of_like (fun ticker => (halone hrun ticker).2)
      fun ticker => (halone hrun' ticker).2
  · exact passes_abreast scale clock hperm hnodup f
  · exact hlead.confined ⟨_, drainTicker_like scale f.filing ticker⟩

/-- A sell and a buy order for each of two tickers, those for X listed under Y as well. -/
def Floor.misfiled : Floor :=
  let f := session 2 .epoch (["X", "Y"].flatMap fun ticker =>
    [.submit [] ⟨ticker, .sell, .ofDigits 5 0, .ofDigits 1 0⟩,
      .submit [] ⟨ticker, .buy, .ofDigits 6 0, .ofDigits 1 0⟩])
  let index := f.index.enqueue .sell "Y" 1 (.ofDigits 5 0)
  { f with index := index.enqueue .buy "Y" 2 (.ofDigits 6 0) }

/--
Under Y the orders for X are of no use: the sell order is dropped when it would be met and
the turn of the buy order fails.  Which ticker comes first shows in the ledger only.
-/
theorem tickers_apart_misfiled :
    let later := { Instant.epoch with day := 1, day_mem := by decide }
    let run := Floor.misfiled.undisturbed (fun _ => .epoch) (drainTickers 2 ["X", "Y"])
    let run' := Floor.misfiled.undisturbed (fun _ => later) (drainTickers 2 ["Y", "X"])
    (run.1.toOption.map fun reports => reports.map fun report => report.toOption.map fun r =>
      (r.ordersProcessed, r.ordersFailed, r.fills)) = some [some (1, 0, 1), some (2, 1, 1)] ∧
      run.2.store.executions.map (·.order) = [2, 1, 4, 3] ∧
      run'.2.store.executions.map (·.order) = [4, 3, 2, 1] ∧ run.2.Agrees run'.2 ∧
      Floor.misfiled.Confined "Y"
        (Floor.misfiled.undisturbed (fun _ => later) (drainTicker 2 "Y")).2 := by
  obtain ⟨hsame, hone, hconfined⟩ := tickers_apart 2 Floor.misfiled ["X", "Y"]
  refine ⟨by decide +kernel, by decide +kernel, by decide +kernel, ?_,
    hconfined _ _ _ (Floor.leads_undisturbed _ _ _)⟩
  obtain ⟨_, -, hrun⟩ := hone ["X", "Y"] (fun _ => .epoch) (.refl _) (by decide)
  obtain ⟨_, -, hrun'⟩ := hone ["Y", "X"] (fun _ => _) (.swap _ _ _) (by decide)
  exact (hsame _ _ _ _ hrun hrun').2

end Bourse
