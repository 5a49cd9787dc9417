/-
Many operations at once.

A `Crowd` is what has come of operations that work on one floor side by side.  Someone
new may come in at any moment, and between two calls of one of them the others may make
any number of theirs.  Which operations come in and which answers may be given is left
open.

Nothing that can be matched is lost as long as no one reconciles.  Every order is covered
or is still being placed, and each call keeps that: whoever makes it spares the orders
that are covered, and if it is the last of a placing, its order is covered then.
-/
import Bourse.Proofs.Conduct
import Bourse.Proofs.Trace

namespace Bourse

/-- An operation at work. -/
structure Errand where
  operation : Operation
  /-- The calls it has made. -/
  log : List Answered
  /-- What is left of it to be done. -/
  rest : Action Unit

/-- What operations that `joins` lets in can come to, if only answers of a kind are given. -/
inductive Crowd (joins : Operation → Prop) (given : Answered → Prop) :
    Floor → List Errand → Prop
  | opened : Crowd joins given .opened []
  | join {f errands} (h : Crowd joins given f errands) (scale : Nat) {op : Operation}
      (hop : joins op) : Crowd joins given f (errands ++ [⟨op, [], op.work scale⟩])
  | call {f before after op log c rest}
      (h : Crowd joins given f (before ++ ⟨op, log, .call c rest⟩ :: after)) (a : c.Answer)
      (hmay : f.May c a) (hgiven : given ⟨c, a⟩) :
      Crowd joins given (f.after c a) (before ++ ⟨op, log ++ [⟨c, a⟩], rest a⟩ :: after)

/-! ### Coming in beside others -/

namespace Operation

theorem gives_within {op : Operation} (h : op ≠ recover) : op.gives.Within .sparing := by
  intro f g hfg
  cases op with
  | submit => exact hfg
  | cancel => exact Floor.Withdraws.toSpares hfg
  | tick | process => exact (Floor.Trades.toWithdraws hfg).toSpares
  | recover => exact absurd rfl h

theorem sparing_within (op : Operation) : Change.sparing.Within op.relies := by
  intro f g hfg
  cases op with
  | submit => exact hfg
  | cancel | tick | process | recover => exact Floor.Spares.toBecomes hfg

theorem leaves_spares {op : Operation} {f g : Floor} {mine : List Answered}
    (h : op.leaves mine f) (hfg : f.Spares g) (hf : f.Sound) : op.leaves mine g := by
  cases op with
  | submit => exact Floor.CoversAll.spares h hfg hf
  | cancel | tick | process | recover => trivial

/-- Only a submission places an order. -/
theorem submit_of_not_withdraws {op : Operation} {f g : Floor} (hop : op ≠ recover)
    (h : op.gives.holds f g) (hplaces : ¬ f.Withdraws g) :
    ∃ tradable request, op = submit tradable request := by
  cases op with
  | submit tradable request => exact ⟨tradable, request, rfl⟩
  | cancel => exact absurd h hplaces
  | tick | process => exact absurd (Floor.Trades.toWithdraws h) hplaces
  | recover => exact absurd rfl hop

end Operation

namespace Floor

variable {f : Floor} {c : Call} {a : c.Answer}

/-- An order on record after a call was there before, or the call has placed it. -/
theorem known_or_placed (hmay : f.May c a) {o : Order} (ho : o ∈ (f.after c a).store.orders) :
    (∃ p, f.store.find? o.id = some p) ∨ o.placing = ⟨c, a⟩ := by
  have hsame (h : (f.after c a).store.find? o.id = f.store.find? o.id) :
      ∃ p, f.store.find? o.id = some p := ⟨o, h ▸ Store.mem_orders_iff.mp ho⟩
  by_cases hquiet : c.quiet = true
  · refine Or.inl (hsame ?_)
    rw [after_store, storeAfter_of_quiet hquiet]
  · cases c with
    | store c =>
        cases a with
        | error e => exact Or.inl (hsame rfl)
        | ok a =>
            cases (show a = (f.store.perform c).1 from hmay)
            cases c with
            | insert request time =>
                rcases List.mem_append.mp ho with hin | hnew
                · exact Or.inl ⟨o, Store.mem_orders_iff.mp hin⟩
                · rw [List.mem_singleton.mp hnew]
                  exact Or.inr rfl
            | cancel id time =>
                exact Or.inl ((Withdraws.cancel f id time).known _ o (Store.mem_orders_iff.mp ho))
            | commit fill =>
                rcases f.store.commit_cases fill with ⟨p, q, takes⟩ | ⟨hstore, -⟩
                · have hfind : (f.store.commit fill).2.find? o.id = some o :=
                    Store.mem_orders_iff.mp ho
                  rw [takes.find?_commit] at hfind
                  split at hfind
                  · rename_i hid
                    exact Or.inl ⟨q, hid ▸ takes.counterFound⟩
                  · split at hfind
                    · rename_i hid
                      exact Or.inl ⟨p, hid ▸ takes.incomingFound⟩
                    · exact Or.inl ⟨o, hfind⟩
                · exact Or.inl (hsame (congrArg (·.find? o.id) hstore))
            | load | loadMany | executions | live => exact absurd rfl hquiet
    | _ => exact absurd rfl hquiet

/-- An order on record was there before, or it was placed on the way. -/
theorem Leads.known_or_placed {α : Type} {g : Floor} {work rest : Action α}
    (hlead : f.Leads work rest g) {o : Order} (ho : o ∈ g.store.orders) :
    (∃ p, f.store.find? o.id = some p) ∨
      ∃ p : Order, p.id = o.id ∧ p.placing ∈ f.since g := by
  induction hlead with
  | here work f => exact Or.inl ⟨o, Store.mem_orders_iff.mp ho⟩
  | @call c next f rest g a hmay hlead ih =>
      rw [hlead.since_call]
      rcases ih ho with ⟨p, hfind⟩ | ⟨p, hid, hplaced⟩
      · obtain ⟨hp, hid⟩ := Store.mem_of_find? hfind
        rw [← hid]
        refine (Floor.known_or_placed hmay hp).imp_right fun hplaced => ⟨p, rfl, ?_⟩
        exact List.mem_cons.mpr (Or.inl hplaced)
      · exact Or.inr ⟨p, hid, List.mem_cons_of_mem _ hplaced⟩

/-- What places an order does not withdraw. -/
theorem not_withdraws_of_placing {o : Order} (hmay : f.May c a) (h : o.placing = ⟨c, a⟩) :
    ¬ f.Withdraws (f.after c a) := by
  unfold Order.placing at h
  cases h
  intro hwithdraws
  obtain ⟨p, hfind⟩ := hwithdraws.known f.store.nextOrderId _
    ((f.store.find?_insert o.request o.createdAt _).trans (if_pos rfl))
  rw [Store.find?_nextOrderId] at hfind
  cases hfind

end Floor

/-! ### What every call keeps -/

namespace Errand

/-- How an operation works beside others, if no call on the store fails. -/
structure Behaves (e : Errand) (f : Floor) : Prop where
  reconciles : e.operation ≠ .recover
  working : e.rest.Among e.operation.relies e.operation.gives (fun _ => e.operation.leaves)
    e.log f
  stored : ∀ a ∈ e.log, a.unstored = false
  /-- Only a submission has placed an order. -/
  places : ∀ o : Order, o.placing ∈ e.log →
    ∃ tradable request, e.operation = .submit tradable request

/-- The operation has placed the order and has not returned yet. -/
def Placing (e : Errand) (o : Order) : Prop := o.placing ∈ e.log ∧ ¬ e.rest.Ended

variable {e : Errand} {f g : Floor}

theorem behaves_new (scale : Nat) {op : Operation} (hop : op ≠ .recover) (hf : f.Sound) :
    Behaves ⟨op, [], op.work scale⟩ f :=
  ⟨hop, op.work_among hf, List.forall_mem_nil _, fun _ ho => nomatch ho⟩

theorem Behaves.beside (h : e.Behaves f) (hf : f.Sound) (hfg : f.Spares g) : e.Behaves g where
  reconciles := h.reconciles
  working := h.working.later (fun _ hleaves => Operation.leaves_spares hleaves hfg hf)
    (e.operation.sparing_within hfg)
  stored := h.stored
  places := h.places

theorem Behaves.call {op : Operation} {log : List Answered} {c : Call}
    {rest : c.Answer → Action Unit} (h : Behaves ⟨op, log, .call c rest⟩ f) {a : c.Answer}
    (hmay : f.May c a) (hstored : (Answered.mk c a).unstored = false) :
    f.Spares (f.after c a) ∧ Behaves ⟨op, log ++ [⟨c, a⟩], rest a⟩ (f.after c a) := by
  obtain ⟨hcall, hrest⟩ := h.working f (op.relies.of_same rfl rfl) a hmay
  refine ⟨Operation.gives_within h.reconciles hcall, h.reconciles, hrest, ?_, fun o ho => ?_⟩
  · intro x hx
    rcases List.mem_append.mp hx with hin | hnew
    · exact h.stored x hin
    · rw [List.mem_singleton.mp hnew]
      exact hstored
  · rcases List.mem_append.mp ho with hin | hnew
    · exact h.places o hin
    · exact op.submit_of_not_withdraws h.reconciles hcall
        (Floor.not_withdraws_of_placing hmay (List.mem_singleton.mp hnew))

/-- An order that was placed is covered once its placing has returned. -/
theorem Behaves.covers_or_placing (h : e.Behaves f) {o : Order} (ho : o.placing ∈ e.log) :
    f.Covers o.id ∨ e.Placing o := by
  by_cases hend : e.rest.Ended
  · refine Or.inl ?_
    obtain ⟨tradable, request, hop⟩ := h.places o ho
    obtain ⟨op, log, rest⟩ := e
    have hworking := h.working
    subst hop
    cases rest with
    | done a => exact hworking h.stored o ho
    | fail e => exact hworking h.stored o ho
    | call c rest => exact absurd hend id
  · exact Or.inr ⟨ho, hend⟩

end Errand

/-- What is so of a crowd in which no one reconciles and the store never fails. -/
structure Crowd.Kept (f : Floor) (errands : List Errand) : Prop where
  sound : f.Sound
  behaves : ∀ e ∈ errands, e.Behaves f
  covered : ∀ o ∈ f.store.orders, f.Covers o.id ∨ ∃ e ∈ errands, e.Placing o

theorem Crowd.Kept.call {f : Floor} {before after : List Errand} {op : Operation}
    {log : List Answered} {c : Call} {rest : c.Answer → Action Unit}
    (h : Kept f (before ++ ⟨op, log, .call c rest⟩ :: after)) {a : c.Answer} (hmay : f.May c a)
    (hstored : (Answered.mk c a).unstored = false) :
    Kept (f.after c a) (before ++ ⟨op, log ++ [⟨c, a⟩], rest a⟩ :: after) := by
  obtain ⟨hspares, hbehaves⟩ := (h.behaves ⟨op, log, .call c rest⟩ (by simp)).call hmay hstored
  refine ⟨hspares.sound h.sound, fun e he => ?_, fun o ho => ?_⟩
  · rcases List.mem_append.mp he with hin | hin
    · exact (h.behaves e (List.mem_append_left _ hin)).beside h.sound hspares
    · rcases List.mem_cons.mp hin with rfl | hin
      · exact hbehaves
      · exact (h.behaves e (by simp [hin])).beside h.sound hspares
  · -- Whoever has just placed an order either has more to do or leaves it covered.
    have hcaller {o : Order} (ho : o.placing ∈ log ++ [⟨c, a⟩]) : (f.after c a).Covers o.id ∨
        ∃ e ∈ before ++ ⟨op, log ++ [⟨c, a⟩], rest a⟩ :: after, e.Placing o :=
      (hbehaves.covers_or_placing ho).imp_right fun hplacing => ⟨_, by simp, hplacing⟩
    rcases Floor.known_or_placed hmay ho with ⟨p, hfind⟩ | hplaced
    · obtain ⟨o', hfind', hbecomes⟩ := hspares.orders _ p hfind
      rw [Store.mem_orders_iff.mp ho, Option.some.injEq] at hfind'
      subst hfind'
      rw [hbecomes.terms.id] at hfind ⊢
      rcases h.covered p (Store.mem_of_find? hfind).1 with hcovers | ⟨e, he, hplacing⟩
      · exact Or.inl (hspares.covers h.sound p.id hcovers)
      · have hplacing' : e.Placing o := by
          unfold Errand.Placing
          rw [hbecomes.terms.placing]
          exact hplacing
        rcases List.mem_append.mp he with hin | hin
        · exact Or.inr ⟨e, by simp [hin], hplacing'⟩
        · rcases List.mem_cons.mp hin with rfl | hin
          · rw [← hbecomes.terms.id]
            exact hcaller (List.mem_append_left _ hplacing'.1)
          · exact Or.inr ⟨e, by simp [hin], hplacing'⟩
    · exact hcaller (hplaced ▸ by simp)

theorem Crowd.kept {f : Floor} {errands : List Errand}
    (h : Crowd (· ≠ .recover) (·.unstored = false) f errands) : Kept f errands := by
  induction h with
  | opened => exact ⟨Floor.sound_opened, List.forall_mem_nil _, List.forall_mem_nil _⟩
  | join _ scale hop ih =>
      refine ⟨ih.sound, fun e he => ?_, fun o ho => (ih.covered o ho).imp_right ?_⟩
      · rcases List.mem_append.mp he with hin | hnew
        · exact ih.behaves e hin
        · rw [List.mem_singleton.mp hnew]
          exact Errand.behaves_new scale hop ih.sound
      · exact fun ⟨e, he, hplacing⟩ => ⟨e, List.mem_append_left _ he, hplacing⟩
  | call _ a hmay hgiven ih => exact ih.call hmay hgiven

/-! ### A crowd for examples -/

namespace Crowd

/-- What happens next in a crowd. -/
inductive Event
  | join (op : Operation)
  /-- The next call of the operation in this place. -/
  | call (place : Nat)
  /-- The same, but the index refuses it. -/
  | refuse (place : Nat)

/-- A floor and the crowd on it after the next call of one operation. -/
def serve (place : Nat) (answer : (c : Call) → c.Answer) (s : Floor × List Errand) :
    Floor × List Errand :=
  match s.2[place]? with
  | some ⟨op, log, .call c rest⟩ =>
    (s.1.after c (answer c), s.2.set place ⟨op, log ++ [⟨c, answer c⟩], rest (answer c)⟩)
  | _ => s

/-- What the index answers when it refuses a call. -/
def refusal (f : Floor) (time : Instant) : (c : Call) → c.Answer
  | .index _ => .error (.indexUnavailable "")
  | c => f.grant time c

def next (scale : Nat) (time : Instant) (s : Floor × List Errand) : Event → Floor × List Errand
  | .join op => (s.1, s.2 ++ [⟨op, [], op.work scale⟩])
  | .call place => serve place (s.1.grant time) s
  | .refuse place => serve place (refusal s.1 time) s

/-- What comes of some events, from the start. -/
def run (scale : Nat) (time : Instant) (events : List Event) : Floor × List Errand :=
  events.foldl (next scale time) (.opened, [])

theorem serve_cases (place : Nat) (answer : (c : Call) → c.Answer) (f : Floor)
    (errands : List Errand) : serve place answer (f, errands) = (f, errands) ∨
      ∃ before after op log c rest, errands = before ++ ⟨op, log, .call c rest⟩ :: after ∧
        serve place answer (f, errands) = (f.after c (answer c),
          before ++ ⟨op, log ++ [⟨c, answer c⟩], rest (answer c)⟩ :: after) := by
  unfold serve
  split
  · rename_i op log c rest he
    obtain ⟨hlt, he⟩ := List.getElem?_eq_some_iff.mp he
    refine Or.inr ⟨errands.take place, errands.drop (place + 1), op, log, c, rest, ?_, ?_⟩
    · rw [← he, ← List.drop_eq_getElem_cons hlt, List.take_append_drop]
    · rw [List.set_eq_take_append_cons_drop, if_pos hlt]
  · exact Or.inl rfl

variable {joins : Operation → Prop} {given : Answered → Prop}

theorem serve_crowd {s : Floor × List Errand} (h : Crowd joins given s.1 s.2) (place : Nat)
    {answer : (c : Call) → c.Answer} (hmay : ∀ c, s.1.May c (answer c))
    (hgiven : ∀ c, given ⟨c, answer c⟩) :
    Crowd joins given (serve place answer s).1 (serve place answer s).2 := by
  obtain ⟨f, errands⟩ := s
  rcases serve_cases place answer f errands with hsame | ⟨_, _, _, _, c, _, rfl, hserved⟩
  · rw [hsame]
    exact h
  · rw [hserved]
    exact h.call (answer c) (hmay c) (hgiven c)

/-- Nobody reconciles, and only the index refuses a call. -/
theorem run_crowd (scale : Nat) (time : Instant) {events : List Event}
    (hevents : ∀ e ∈ events, e ≠ .join .recover) :
    Crowd (· ≠ .recover) (·.unstored = false) (run scale time events).1
      (run scale time events).2 := by
  refine List.foldlRecOn events _
    (motive := fun (s : Floor × List Errand) => Crowd _ _ s.1 s.2) .opened fun s h e he => ?_
  cases e with
  | join op => exact h.join scale fun hop => hevents _ he (hop ▸ rfl)
  | call place =>
      exact serve_crowd h place (fun c => by cases c <;> trivial) fun c => by cases c <;> rfl
  | refuse place =>
      exact serve_crowd h place (fun c => by cases c <;> trivial) fun c => by cases c <;> rfl

end Crowd

/--
**No order that can be matched is lost from the index.**  However orders are placed,
cancelled and matched beside each other, if only calls on the store do not fail, every
order that can be matched is listed under its side and ticker, or the submission that
placed it has not returned yet.
-/
theorem Crowd.listed {f : Floor} {errands : List Errand}
    (h : Crowd (· ≠ .recover) (·.unstored = false) f errands) {o : Order}
    (ho : o ∈ f.store.orders) (hmatch : o.matchable = true) :
    o.id ∈ f.index.waiting o.side o.ticker ∨ ∃ e ∈ errands, o.placing ∈ e.log ∧
      ¬ e.rest.Ended ∧ ∃ tradable request, e.operation = .submit tradable request := by
  have hkept := h.kept
  rcases hkept.covered o ho with ⟨p, hfind, hlisted⟩ | ⟨e, he, hplacing⟩
  · rw [Store.mem_orders_iff.mp ho, Option.some.injEq] at hfind
    subst hfind
    exact Or.inl (hlisted hmatch)
  · exact Or.inr ⟨e, he, hplacing.1, hplacing.2, (hkept.behaves e he).places o hplacing.1⟩

/--
A sell order that is listed, a buy order that is on record and not yet in the index, and a
sell order that the index has refused; meanwhile the first two are being matched.
-/
def Crowd.rush : Floor × List Errand :=
  let order (side : Side) : Event := .join (.order side (.ofDigits 1 0) (.ofDigits 2 0))
  run 2 .epoch [order .buy, order .sell, .call 0, .call 1, .call 1, .call 0, .call 1, .call 1,
    order .sell, .call 2, .call 2, .refuse 2, .call 2, .join (.process 2 "X"), .call 3, .call 2,
    .call 3]

theorem Crowd.listed_rush :
    Crowd (· ≠ .recover) (·.unstored = false) rush.1 rush.2 ∧
      rush.1.store.orders.length = 3 ∧
      (∃ o ∈ rush.1.store.orders, o.matchable = true ∧
        o.id ∈ rush.1.index.waiting o.side o.ticker) ∧
      ∃ o ∈ rush.1.store.orders, o.matchable = true ∧
        o.id ∉ rush.1.index.waiting o.side o.ticker ∧ ∃ e ∈ rush.2, o.placing ∈ e.log ∧
          ¬ e.rest.Ended ∧ ∃ tradable request, e.operation = .submit tradable request := by
  have hrush : Crowd (· ≠ .recover) (·.unstored = false) rush.1 rush.2 := by
    refine run_crowd 2 .epoch fun e he => ?_
    rintro rfl
    simp [Operation.order] at he
  obtain ⟨hlength, hlisted, o, ho, hmatch, hunlisted⟩ : rush.1.store.orders.length = 3 ∧
      (∃ o ∈ rush.1.store.orders, o.matchable = true ∧
        o.id ∈ rush.1.index.waiting o.side o.ticker) ∧
      ∃ o ∈ rush.1.store.orders, o.matchable = true ∧
        o.id ∉ rush.1.index.waiting o.side o.ticker := by decide +kernel
  exact ⟨hrush, hlength, hlisted, o, ho, hmatch, hunlisted,
    (Crowd.listed hrush ho hmatch).resolve_left hunlisted⟩

end Bourse
