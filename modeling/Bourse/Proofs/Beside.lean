/-
Reconciling while orders are placed.

`Beside` is what can come of one reconciliation and any number of submissions that work
on a floor at once, when no call fails.  Reconciling takes entries out by what it read
before, so the submissions beside it cannot rely on being spared, and nothing that was
shown of them on that ground is of use here.

What is used instead is where each call stands.  All calls together make a `Way` from the
first floor to the last, and they are those of the errands, in some order.  And each call
of an errand was made at some floor on that way, after the earlier calls of the same
errand and before all that came later (`Errand.Follows`).  An errand's own calls are told
by its trace alone, so that the two together say which of its calls were made when.
-/
import Bourse.Proofs.Crowd
import Bourse.Proofs.Mending

namespace Bourse

open Bourse.Action

/-! ### Ways -/

namespace Floor

variable {α β : Type} {f g h : Floor}

theorem Leads.bind {work : Action α} {next : α → Action β} {rest : Action β} {a : α}
    (hfg : f.Leads work (.done a) g) (hgh : g.Leads (next a) rest h) :
    f.Leads (work >>= next) rest h := by
  induction work generalizing f with
  | done b =>
      cases hfg
      exact hgh
  | fail e => cases hfg
  | call c rest' ih =>
      cases hfg with
      | call b hmay hfg => exact .call b hmay (ih b hfg)

/-- Some calls, whoever makes them, lead from the one floor to the other. -/
def Way (f g : Floor) : Prop := ∃ work : Action Unit, f.Leads work (.done ()) g

theorem Way.refl (f : Floor) : f.Way f := ⟨.done (), .here _ f⟩

theorem Way.call (hfg : f.Way g) {c : Call} {a : c.Answer} (hmay : g.May c a) :
    f.Way (g.after c a) := by
  obtain ⟨work, hlead⟩ := hfg
  exact ⟨work >>= fun _ => .call c fun _ => .done (), hlead.bind (.call a hmay (.here _ _))⟩

theorem Way.log (hfg : f.Way g) : f.log <+: g.log := by
  obtain ⟨work, hlead⟩ := hfg
  exact hlead.log

theorem Way.tidy (hfg : f.Way g) (hf : f.index.Tidy) : g.index.Tidy := by
  obtain ⟨work, hlead⟩ := hfg
  exact hlead.tidy hf

/-- From where a call was made, the way goes on with it. -/
theorem Way.before {c : Call} {a : c.Answer} (hmay : g.May c a) (hgh : (g.after c a).Way h) :
    g.Way h := by
  obtain ⟨work, hlead⟩ := hgh
  exact ⟨.call c fun _ => work, .call a hmay hlead⟩

/-- What was called after a moment was called on the way. -/
theorem Way.since_after {c : Call} {a : c.Answer} (hfg : f.Way g) (hgh : (g.after c a).Way h) :
    f.since h = f.since g ++ ⟨c, a⟩ :: (g.after c a).since h := by
  have hlog := (g.log_after c a).trans hgh.log
  rw [since_trans hfg.log hlog, since_trans (g.log_after c a) hgh.log, Floor.since_after,
    List.singleton_append]

end Floor

/-! ### Calls that fill nothing -/

/-- The call commits no fill, and the order that it places, if any, may be placed. -/
def Call.Plain : Call → Prop
  | store (.commit _) => False
  | store (.insert request _) => request.amount.positive = true ∧ request.price.positive = true
  | _ => True

/-- Does the call place the order with this identifier? -/
def Answered.places (id : OrderId) : Answered → Bool
  | ⟨.store (.insert ..), .ok o⟩ => o.id == id
  | _ => false

namespace Floor

variable {α : Type} {scale : Nat} {f g : Floor} {c : Call} {a : c.Answer} {id : OrderId}
  {work rest : Action α}

theorem becomes_of_plain (hmay : f.May c a) (hc : c.Plain) {o : Order}
    (hfind : f.store.find? id = some o) :
    ∃ p, (f.after c a).store.find? id = some p ∧ o.Becomes p := by
  by_cases hquiet : c.quiet = true
  · refine ⟨o, ?_, .refl o⟩
    rw [after_store, storeAfter_of_quiet hquiet]
    exact hfind
  · cases c with
    | store c =>
        cases a with
        | error e => exact ⟨o, hfind, .refl o⟩
        | ok a =>
            cases (show a = (f.store.perform c).1 from hmay)
            cases c with
            | insert request time => exact (Spares.place f request time).orders id o hfind
            | cancel id' time => exact (Withdraws.cancel f id' time).orders id o hfind
            | commit => exact hc.elim
            | load | loadMany | executions | live => exact absurd rfl hquiet
    | _ => exact absurd rfl hquiet

theorem history_of_plain (hf : f.store.History scale) (hmay : f.May c a) (hc : c.Plain) :
    (f.after c a).store.History scale := by
  by_cases hquiet : c.quiet = true
  · rw [after_store, storeAfter_of_quiet hquiet]
    exact hf
  · cases c with
    | store c =>
        cases a with
        | error e => exact hf
        | ok a =>
            cases (show a = (f.store.perform c).1 from hmay)
            cases c with
            | insert request time => exact hf.place request time hc.1 hc.2
            | cancel id' time => exact hf.after_cancel id' time
            | commit => exact hc.elim
            | load | loadMany | executions | live => exact absurd rfl hquiet
    | _ => exact absurd rfl hquiet

theorem Leads.becomes_of_plain (hlead : f.Leads work rest g)
    (hplain : ∀ e ∈ f.since g, e.call.Plain) {o : Order} (hfind : f.store.find? id = some o) :
    ∃ p, g.store.find? id = some p ∧ o.Becomes p := by
  induction hlead generalizing o with
  | here work f => exact ⟨o, hfind, .refl o⟩
  | @call c next f rest g a hmay hlead ih =>
      rw [hlead.since_call] at hplain
      obtain ⟨hc, hrest⟩ := List.forall_mem_cons.mp hplain
      obtain ⟨p, hp, hbecomes⟩ := Floor.becomes_of_plain hmay hc hfind
      obtain ⟨q, hq, hbecomes'⟩ := ih hrest hp
      exact ⟨q, hq, hbecomes.trans hbecomes'⟩

theorem Leads.history_of_plain (hlead : f.Leads work rest g) (hf : f.store.History scale)
    (hplain : ∀ e ∈ f.since g, e.call.Plain) : g.store.History scale := by
  induction hlead with
  | here work f => exact hf
  | @call c next f rest g a hmay hlead ih =>
      rw [hlead.since_call] at hplain
      obtain ⟨hc, hrest⟩ := List.forall_mem_cons.mp hplain
      exact ih (Floor.history_of_plain hf hmay hc) hrest

/-- An order on record was there before, or it was placed on the way as what it is. -/
theorem Leads.placed_of_plain (hlead : f.Leads work rest g)
    (hplain : ∀ e ∈ f.since g, e.call.Plain) {o : Order} (ho : o ∈ g.store.orders) :
    (∃ p, f.store.find? o.id = some p) ∨ o.placing ∈ f.since g := by
  induction hlead with
  | here work f => exact Or.inl ⟨o, Store.mem_orders_iff.mp ho⟩
  | @call c next f rest g a hmay hlead ih =>
      rw [hlead.since_call] at hplain ⊢
      obtain ⟨-, hrest⟩ := List.forall_mem_cons.mp hplain
      rcases ih hrest ho with ⟨p, hfind⟩ | hplaced
      · obtain ⟨q, hfind', hbecomes⟩ := hlead.becomes_of_plain hrest hfind
        rw [Store.mem_orders_iff.mp ho, Option.some.injEq] at hfind'
        subst hfind'
        obtain ⟨hp, hid⟩ := Store.mem_of_find? hfind
        rw [← hid, hbecomes.terms.placing]
        exact (Floor.known_or_placed hmay hp).imp_right fun hplaced =>
          List.mem_cons.mpr (Or.inl hplaced)
      · exact Or.inr (List.mem_cons_of_mem _ hplaced)

/-- What places an order gives it an identifier that none on record has. -/
theorem find?_of_places (hmay : f.May c a) (hplaces : Answered.places id ⟨c, a⟩ = true) :
    f.store.find? id = none ∧ ∃ o, (f.after c a).store.find? id = some o := by
  unfold Answered.places at hplaces
  split at hplaces
  · rename_i request time o heq
    cases heq
    obtain rfl : o = (f.store.insert request time).1 := hmay
    have hid : (f.store.insert request time).1.id = id := by simpa using hplaces
    obtain rfl : f.store.nextOrderId = id := hid
    exact ⟨f.store.find?_nextOrderId,
      _, (f.store.find?_insert request time _).trans (if_pos rfl)⟩
  · cases hplaces

/-- **An identifier is given once**, and never to an order when another one has it. -/
theorem Leads.countP_places (hlead : f.Leads work rest g)
    (hplain : ∀ e ∈ f.since g, e.call.Plain) (id : OrderId) :
    (f.since g).countP (Answered.places id) ≤ 1 ∧
      ((∃ o, f.store.find? id = some o) → (f.since g).countP (Answered.places id) = 0) := by
  induction hlead with
  | here work f => simp [since_self]
  | @call c next f rest g a hmay hlead ih =>
      rw [hlead.since_call] at hplain ⊢
      obtain ⟨hc, hrest⟩ := List.forall_mem_cons.mp hplain
      obtain ⟨honce, hnever⟩ := ih hrest
      rw [List.countP_cons]
      by_cases hplaces : Answered.places id ⟨c, a⟩ = true
      · obtain ⟨hnone, hknown⟩ := find?_of_places hmay hplaces
        rw [hnever hknown, if_pos hplaces]
        exact ⟨Nat.le_refl _, fun ⟨o, hfind⟩ => nomatch hnone.symm.trans hfind⟩
      · rw [if_neg hplaces]
        refine ⟨honce, fun ⟨o, hfind⟩ => ?_⟩
        obtain ⟨p, hp, -⟩ := Floor.becomes_of_plain hmay hc hfind
        exact hnever ⟨p, hp⟩

end Floor

/-! ### Errands beside each other -/

/-- What can come of a reconciliation and of submissions at once, if no call fails. -/
inductive Beside (scale : Nat) (f₀ : Floor) : Floor → List Errand → Prop
  | start : Beside scale f₀ f₀ [⟨.recover, [], Operation.recover.work scale⟩]
  | join {f errands} (h : Beside scale f₀ f errands) (tradable : List String)
      (request : OrderRequest) : Beside scale f₀ f (errands ++
        [⟨.submit tradable request, [], (Operation.submit tradable request).work scale⟩])
  | call {f before after op log c rest}
      (h : Beside scale f₀ f (before ++ ⟨op, log, .call c rest⟩ :: after)) (a : c.Answer)
      (hmay : f.May c a) (hgiven : (Answered.mk c a).refused = false) :
      Beside scale f₀ (f.after c a) (before ++ ⟨op, log ++ [⟨c, a⟩], rest a⟩ :: after)

/-- The call was made on the way, after those calls. -/
def Floor.Made (f₀ f : Floor) (earlier : List Answered) (x : Answered) : Prop :=
  ∃ k, f₀.Way k ∧ earlier ⊆ f₀.since k ∧ k.May x.call x.answer ∧
    (k.after x.call x.answer).Way f

/-- The errand keeps to its trace, and each of its calls was made after its earlier ones. -/
def Errand.Follows (scale : Nat) (f₀ f : Floor) (e : Errand) : Prop :=
  ∀ {step : List Answered → Call → Prop} {goal : Except Failure Unit → List Answered → Prop},
    (e.operation.work scale).Traced step goal [] → e.rest.Traced step goal e.log ∧
      ∀ x ∈ e.log, ∃ earlier, earlier <+: e.log ∧ step earlier x.call ∧ f₀.Made f earlier x

variable {scale : Nat} {f₀ f : Floor} {r : Errand} {errands es : List Errand}

/-- An errand that has ended has come to what its trace says. -/
theorem Errand.Follows.result {e : Errand} (h : e.Follows scale f₀ f) (hend : e.rest.Ended)
    {step : List Answered → Call → Prop} {goal : Except Failure Unit → List Answered → Prop}
    (htraced : (e.operation.work scale).Traced step goal []) : ∃ result, goal result e.log := by
  obtain ⟨op, log, rest⟩ := e
  cases rest with
  | done a => exact ⟨.ok a, (h htraced).1⟩
  | fail failure => exact ⟨.error failure, (h htraced).1⟩
  | call => exact hend.elim

theorem Floor.Made.call {earlier : List Answered} {x : Answered} (h : f₀.Made f earlier x)
    {c : Call} {a : c.Answer} (hmay : f.May c a) : f₀.Made (f.after c a) earlier x := by
  obtain ⟨k, hway, hsub, hmade, hafter⟩ := h
  exact ⟨k, hway, hsub, hmade, hafter.call hmay⟩

/-- What is so of errands beside each other at any moment. -/
structure Beside.Kept (scale : Nat) (f₀ f : Floor) (errands : List Errand) : Prop where
  way : f₀.Way f
  /-- The calls on the way are those of the errands. -/
  logs : (f₀.since f).Perm (errands.flatMap (·.log))
  given : ∀ x ∈ f₀.since f, x.refused = false
  operations : ∃ ops, errands.map (·.operation) = .recover :: ops ∧
    ∀ op ∈ ops, ∃ tradable request, op = .submit tradable request
  follows : ∀ e ∈ errands, e.Follows scale f₀ f

theorem Errand.follows_new (op : Operation) : Errand.Follows scale f₀ f ⟨op, [], op.work scale⟩ :=
  fun htraced => ⟨htraced, List.forall_mem_nil _⟩

theorem Beside.kept (h : Beside scale f₀ f errands) : Kept scale f₀ f errands := by
  induction h with
  | start =>
      refine ⟨.refl f₀, by simp [Floor.since_self], by simp [Floor.since_self],
        ⟨[], rfl, List.forall_mem_nil _⟩, ?_⟩
      exact List.forall_mem_singleton.mpr (Errand.follows_new .recover)
  | @join f errands _ tradable request ih =>
      obtain ⟨ops, hops, hsubmits⟩ := ih.operations
      refine ⟨ih.way, by simpa using ih.logs, ih.given,
        ⟨ops ++ [.submit tradable request], by simp [hops], ?_⟩, ?_⟩
      · exact List.forall_mem_append.mpr
          ⟨hsubmits, List.forall_mem_singleton.mpr ⟨tradable, request, rfl⟩⟩
      · exact List.forall_mem_append.mpr
          ⟨ih.follows, List.forall_mem_singleton.mpr (Errand.follows_new _)⟩
  | @call f before after op log c rest _ a hmay hgiven ih =>
      have hlog : f₀.since (f.after c a) = f₀.since f ++ [⟨c, a⟩] := by
        rw [ih.way.since_after (.refl _), Floor.since_self]
      have hbeside : ∀ e : Errand, e.Follows scale f₀ f → e.Follows scale f₀ (f.after c a) := by
        intro e he step goal htraced
        refine ⟨(he htraced).1, fun x hx => ?_⟩
        obtain ⟨earlier, hearlier, hstep, hmade⟩ := (he htraced).2 x hx
        exact ⟨earlier, hearlier, hstep, hmade.call hmay⟩
      refine ⟨ih.way.call hmay, ?_, ?_, by simpa using ih.operations, ?_⟩
      · rw [hlog]
        refine (ih.logs.append_right _).trans ?_
        simp only [List.flatMap_append, List.flatMap_cons, List.append_assoc]
        exact ((List.perm_append_comm.append_left log)).append_left _
      · rw [hlog]
        exact List.forall_mem_append.mpr ⟨ih.given, List.forall_mem_singleton.mpr hgiven⟩
      · intro e he
        rcases List.mem_append.mp he with hin | hin
        · exact hbeside e (ih.follows e (List.mem_append_left _ hin))
        · rcases List.mem_cons.mp hin with rfl | hin
          · -- Its own call comes after all that it has called so far.
            intro step goal htraced
            obtain ⟨⟨hstep, hrest⟩, hmade⟩ := ih.follows ⟨op, log, .call c rest⟩ (by simp) htraced
            refine ⟨hrest a, List.forall_mem_append.mpr ⟨fun x hx => ?_, ?_⟩⟩
            · obtain ⟨earlier, hearlier, hstep, hmade⟩ := hmade x hx
              exact ⟨earlier, hearlier.trans (List.prefix_append _ _), hstep, hmade.call hmay⟩
            · refine List.forall_mem_singleton.mpr
                ⟨log, List.prefix_append _ _, hstep, f, ih.way, fun x hx => ?_, hmay, .refl _⟩
              exact ih.logs.mem_iff.mpr
                (List.mem_flatMap.mpr ⟨⟨op, log, .call c rest⟩, by simp, hx⟩)
          · exact hbeside e (ih.follows e (by simp [hin]))

namespace Beside.Kept

theorem recovers (h : Kept scale f₀ f (r :: es)) : r.operation = .recover := by
  obtain ⟨ops, hops, -⟩ := h.operations
  exact (List.cons.inj hops).1

theorem submits (h : Kept scale f₀ f (r :: es)) :
    ∀ e ∈ es, ∃ tradable request, e.operation = .submit tradable request := by
  obtain ⟨ops, hops, hsubmits⟩ := h.operations
  obtain ⟨-, rfl⟩ := List.cons.inj hops
  exact fun e he => hsubmits e.operation (List.mem_map_of_mem he)

theorem log_subset (h : Kept scale f₀ f errands) {e : Errand} (he : e ∈ errands) :
    e.log ⊆ f₀.since f :=
  fun _ hx => h.logs.mem_iff.mpr (List.mem_flatMap.mpr ⟨e, he, hx⟩)

end Beside.Kept

/-! ### For examples -/

/-- Does it bring in a submission or give an answer? -/
def Crowd.Event.submits : Crowd.Event → Bool
  | .join (.submit ..) => true
  | .call _ => true
  | _ => false

/-- What comes of some events, once it has been begun to reconcile. -/
def Beside.run (scale : Nat) (f₀ : Floor) (events : List Crowd.Event) : Floor × List Errand :=
  events.foldl (Crowd.next scale .epoch) (f₀, [⟨.recover, [], Operation.recover.work scale⟩])

theorem Beside.of_run (scale : Nat) (f₀ : Floor) {events : List Crowd.Event}
    (hevents : ∀ event ∈ events, event.submits = true) :
    Beside scale f₀ (run scale f₀ events).1 (run scale f₀ events).2 := by
  refine List.foldlRecOn events _
    (motive := fun (s : Floor × List Errand) => Beside scale f₀ s.1 s.2) .start ?_
  intro s h event he
  obtain ⟨f, errands⟩ := s
  cases event with
  | join op =>
      cases op with
      | submit tradable request => exact h.join tradable request
      | cancel | tick | process | recover => cases hevents _ he
  | call place =>
      show Beside scale f₀ (Crowd.serve place (f.grant .epoch) (f, errands)).1
        (Crowd.serve place (f.grant .epoch) (f, errands)).2
      rcases Crowd.serve_cases place (f.grant .epoch) f errands with
        hsame | ⟨_, _, _, _, c, _, rfl, hserved⟩
      · rw [hsame]
        exact h
      · rw [hserved]
        exact h.call _ (f.may_grant .epoch c) (by cases c <;> rfl)
  | refuse place => cases hevents _ he

end Bourse
