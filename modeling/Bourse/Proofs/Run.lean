/-
What a run can come to.

A `Floor` is a store and an index with a record of every call that has been made and of
how it was answered.  Work done on a floor makes its calls one after the other.  The
clock shows what it likes, the market is open when it likes, and any call on the store
or the index may fail, in which case nothing has changed.  `Leads` says where that can
lead, at the end of the work or at any moment before it.

Arguments about all runs go through `Ensures`: it follows the work call by call, and
whatever it finds to be kept, and to hold at the end, is so on every run.  The two meet
in `Ensures.of_leads`.
-/
import Bourse.Exchange
import Bourse.Reconciliation
import Bourse.Service
import Bourse.Tick

namespace Bourse

/-- A call that was made, and the answer it got. -/
structure Answered where
  call : Call
  answer : call.Answer

/-- Was the call carried out? -/
def Answered.served : Answered → Bool
  | ⟨.store _, .error _⟩ => false
  | ⟨.index _, .error _⟩ => false
  | ⟨.notify _, told⟩ => told
  | _ => true

/-- Where work is done. -/
structure Floor where
  store : Store
  index : WaitingIndex
  /-- All that has been asked, the first call first. -/
  log : List Answered

namespace Floor

/-- A floor on which nothing has been done. -/
def opened : Floor := ⟨.empty, .empty, []⟩

/-- Can the call be answered like this? -/
def May (f : Floor) : (c : Call) → c.Answer → Prop
  | .store c, .ok a => a = (f.store.perform c).1
  | .index c, .ok a => a = (f.index.perform c).1
  | _, _ => True

/-- The store once a call has been answered. -/
def storeAfter (f : Floor) : (c : Call) → c.Answer → Store
  | .store c, .ok _ => (f.store.perform c).2
  | _, _ => f.store

/-- The index once a call has been answered. -/
def indexAfter (f : Floor) : (c : Call) → c.Answer → WaitingIndex
  | .index c, .ok _ => (f.index.perform c).2
  | _, _ => f.index

/-- The floor once a call has been answered. -/
def after (f : Floor) (c : Call) (a : c.Answer) : Floor where
  store := f.storeAfter c a
  index := f.indexAfter c a
  log := f.log ++ [⟨c, a⟩]

@[simp] theorem after_store (f : Floor) (c : Call) (a : c.Answer) :
    (f.after c a).store = f.storeAfter c a := rfl

@[simp] theorem after_index (f : Floor) (c : Call) (a : c.Answer) :
    (f.after c a).index = f.indexAfter c a := rfl

@[simp] theorem after_log (f : Floor) (c : Call) (a : c.Answer) :
    (f.after c a).log = f.log ++ [⟨c, a⟩] := rfl

/-- Done on the floor `f`, the work can come to where `rest` is left of it on the floor `g`. -/
inductive Leads {α : Type} : Action α → Floor → Action α → Floor → Prop
  | here (work : Action α) (f : Floor) : Leads work f work f
  | call {c : Call} {rest : c.Answer → Action α} {f : Floor} {work : Action α} {g : Floor}
      (a : c.Answer) (hmay : f.May c a) (h : Leads (rest a) (f.after c a) work g) :
      Leads (.call c rest) f work g

end Floor

/-! ### The operations of a service -/

/-- What a service can be asked to do. -/
inductive Operation
  | submit (tradable : List String) (request : OrderRequest)
  | cancel (id : OrderId)
  | tick
  | recover
  /-- Matches one order, outside of a tick. -/
  | process (id : OrderId) (ticker : String)

/-- An operation, its result put aside. -/
def Operation.work (scale : Nat) : Operation → Action Unit
  | submit tradable request => do let _ ← Bourse.submit tradable request
  | cancel id => do let _ ← Bourse.cancel id
  | tick => do let _ ← Bourse.tick scale
  | recover => do let _ ← reconcile
  | process id ticker => do let _ ← processOrder scale id ticker

/-- Is nothing left to be done? -/
def Action.Ended {α : Type} : Action α → Prop
  | done _ => True
  | fail _ => True
  | call _ _ => False

instance {α : Type} (work : Action α) : Decidable work.Ended :=
  match work with
  | .done _ | .fail _ => isTrue trivial
  | .call _ _ => isFalse id

/-- A floor on which operations were done, each after the end of the one before. -/
inductive Floor.Reached (scale : Nat) : Floor → Prop
  | opened : Reached scale .opened
  | after {f g : Floor} {rest : Action Unit} (h : Reached scale f) (op : Operation)
      (hlead : Leads (op.work scale) f rest g) (hend : rest.Ended) : Reached scale g

/-- A floor as it may be seen at any moment, perhaps in the middle of an operation. -/
def Floor.Seen (scale : Nat) (g : Floor) : Prop :=
  ∃ f, f.Reached scale ∧ ∃ (op : Operation) (rest : Action Unit), Leads (op.work scale) f rest g

theorem Floor.Reached.seen {scale : Nat} {f : Floor} (h : f.Reached scale) : f.Seen scale :=
  ⟨f, h, .recover, _, .here _ f⟩

/-! ### Runs whose answers are known -/

/-- Does work to its end on a floor whose calls are answered by `answer`. -/
def Floor.answering {α : Type} (answer : Floor → (c : Call) → c.Answer) (f : Floor)
    (work : Action α) : Except Failure α × Floor :=
  work.run (fun c f => (answer f c, f.after c (answer f c))) f

/-- Work that has come to its end. -/
def Action.ended {α : Type} : Except Failure α → Action α
  | .ok a => done a
  | .error e => fail e

/-- Work that has ended has ended in something. -/
theorem Action.Ended.result {α : Type} {work : Action α} (h : work.Ended) :
    ∃ r, work = ended r := by
  cases work with
  | done a => exact ⟨.ok a, rfl⟩
  | fail e => exact ⟨.error e, rfl⟩
  | call => exact h.elim

/-!
Work that is done or has failed leads nowhere, and a call leads where its answer does.  Work
in parts leads where its parts do.
-/

namespace Floor

variable {α β : Type} {f g : Floor} {c : Call}

theorem Leads.of_done {a : α} {r : Except Failure α} (hlead : f.Leads (.done a) (.ended r) g) :
    r = .ok a ∧ g = f := by
  cases r with
  | ok b =>
      cases hlead
      exact ⟨rfl, rfl⟩
  | error e => cases hlead

theorem Leads.of_fail {e : Failure} {r : Except Failure α}
    (hlead : f.Leads (.fail e) (.ended r) g) : r = .error e ∧ g = f := by
  cases r with
  | ok a => cases hlead
  | error e' =>
      cases hlead
      exact ⟨rfl, rfl⟩

theorem Leads.of_call {rest : c.Answer → Action α} {r : Except Failure α}
    (hlead : f.Leads (.call c rest) (.ended r) g) :
    ∃ a, f.May c a ∧ (f.after c a).Leads (rest a) (.ended r) g := by
  cases r with
  | ok b =>
      cases hlead with
      | call a hmay hlead => exact ⟨a, hmay, hlead⟩
  | error e =>
      cases hlead with
      | call a hmay hlead => exact ⟨a, hmay, hlead⟩

/-- Where work in two parts has ended, its first part has ended on the way. -/
theorem Leads.of_bind {work : Action α} {next : α → Action β} {r : Except Failure β}
    (hlead : f.Leads (work >>= next) (.ended r) g) :
    (∃ a w, f.Leads work (.done a) w ∧ w.Leads (next a) (.ended r) g) ∨
      ∃ e, f.Leads work (.fail e) g ∧ r = .error e := by
  induction work generalizing f with
  | done a => exact Or.inl ⟨a, f, .here _ f, hlead⟩
  | fail e =>
      obtain ⟨rfl, rfl⟩ := Leads.of_fail hlead
      exact Or.inr ⟨e, .here _ _, rfl⟩
  | call c rest ih =>
      obtain ⟨a, hmay, hlead⟩ := Leads.of_call hlead
      rcases ih a hlead with ⟨b, w, hwork, hnext⟩ | ⟨e, hwork, hr⟩
      · exact Or.inl ⟨b, w, .call a hmay hwork, hnext⟩
      · exact Or.inr ⟨e, .call a hmay hwork, hr⟩

/-- Where work in two parts is done, the first part is done on the way. -/
theorem Leads.of_bind_done {work : Action α} {next : α → Action β} {b : β}
    (hlead : f.Leads (work >>= next) (.done b) g) :
    ∃ a w, f.Leads work (.done a) w ∧ w.Leads (next a) (.done b) g := by
  rcases Leads.of_bind (r := .ok b) hlead with hdone | ⟨e, -, hfailed⟩
  · exact hdone
  · cases hfailed

/-- The end of work can be put aside, whatever it is. -/
theorem Leads.attempt {work : Action α} {r : Except Failure α}
    (hlead : f.Leads work (.ended r) g) : f.Leads work.attempt (.done r) g := by
  induction work generalizing f with
  | done a =>
      obtain ⟨rfl, rfl⟩ := hlead.of_done
      exact .here _ _
  | fail e =>
      obtain ⟨rfl, rfl⟩ := hlead.of_fail
      exact .here _ _
  | call c rest ih =>
      obtain ⟨a, hmay, hlead⟩ := hlead.of_call
      exact .call a hmay (ih a hlead)

/-- Where an attempt has ended, the work has ended in what it has come to. -/
theorem Leads.of_attempt {work : Action α} {r : Except Failure (Except Failure α)}
    (hlead : f.Leads work.attempt (.ended r) g) :
    ∃ s, r = .ok s ∧ f.Leads work (.ended s) g := by
  induction work generalizing f with
  | done a =>
      obtain ⟨rfl, rfl⟩ := Leads.of_done hlead
      exact ⟨.ok a, rfl, .here _ _⟩
  | fail e =>
      obtain ⟨rfl, rfl⟩ := Leads.of_done hlead
      exact ⟨.error e, rfl, .here _ _⟩
  | call c rest ih =>
      obtain ⟨a, hmay, hlead⟩ := Leads.of_call hlead
      obtain ⟨s, hs, hlead⟩ := ih a hlead
      exact ⟨s, hs, .call a hmay hlead⟩

end Floor

theorem Floor.leads_answering {α : Type} {answer : Floor → (c : Call) → c.Answer}
    (hmay : ∀ (f : Floor) (c : Call), f.May c (answer f c)) (f : Floor) (work : Action α) :
    f.Leads work (.ended (f.answering answer work).1) (f.answering answer work).2 := by
  induction work generalizing f with
  | done a => exact .here _ f
  | fail e => exact .here _ f
  | call c rest ih => exact .call (answer f c) (hmay f c) (ih _ _)

/-- The answer of a floor that refuses nothing, at a time when the market is open. -/
def Floor.grant (f : Floor) (time : Instant) : (c : Call) → c.Answer
  | .store c => .ok (f.store.perform c).1
  | .index c => .ok (f.index.perform c).1
  | .notify _ => true
  | .now => time
  | .marketOpen _ => true
  | .beginTick => true
  | .endTick => ()
  | .count _ => ()
  | .recordFill _ _ => ()

theorem Floor.may_grant (f : Floor) (time : Instant) (c : Call) : f.May c (f.grant time c) := by
  cases c <;> trivial

/-- Does work to its end on a floor that refuses nothing. -/
def Floor.perform {α : Type} (f : Floor) (time : Instant) (work : Action α) :
    Except Failure α × Floor :=
  f.answering (fun f => f.grant time) work

theorem Floor.leads_perform {α : Type} (f : Floor) (time : Instant) (work : Action α) :
    f.Leads work (.ended (f.perform time work).1) (f.perform time work).2 :=
  leads_answering (fun f => f.may_grant time) f work

/-- Operations done one after another from the start, with no call failing. -/
def Floor.session (scale : Nat) (time : Instant) (ops : List Operation) : Floor :=
  ops.foldl (fun f op => (f.perform time (op.work scale)).2) opened

theorem Floor.reached_session (scale : Nat) (time : Instant) (ops : List Operation) :
    (session scale time ops).Reached scale := by
  suffices ∀ f : Floor, f.Reached scale →
      (ops.foldl (fun f op => (f.perform time (op.work scale)).2) f).Reached scale from
    this opened .opened
  induction ops with
  | nil => exact fun f hf => hf
  | cons op ops ih =>
      refine fun f hf => ih _ (hf.after op (f.leads_perform time _) ?_)
      cases (f.perform time (op.work scale)).1 <;> trivial

/-! For the sessions that serve as examples. -/

/-- The decimal with these digits, of which so many are places. -/
def Decimal.ofDigits (digits places : Nat) : Decimal := (ofParts? false digits places).getD zero

/-- An order for the one ticker that is traded in the examples. -/
def Operation.order (side : Side) (price amount : Decimal) : Operation :=
  submit [] ⟨"X", side, price, amount⟩

/-! ### What is so on every run -/

namespace Action

variable {α β : Type} {keep : Floor → Prop} {f : Floor}

/--
Done on a floor, the work keeps `keep` after each of its calls, and if it ends, it ends
in `goal`.
-/
def Ensures (keep : Floor → Prop) (goal : Except Failure α → Floor → Prop) :
    Action α → Floor → Prop
  | done a, f => goal (.ok a) f
  | fail e, f => goal (.error e) f
  | call c rest, f => ∀ a, f.May c a →
      keep (f.after c a) ∧ (rest a).Ensures keep goal (f.after c a)

/-- **What work ensures is so wherever it leads.** -/
theorem Ensures.of_leads {goal : Except Failure α → Floor → Prop} {work rest : Action α}
    {g : Floor} (hlead : f.Leads work rest g) (hkeep : keep f) (h : work.Ensures keep goal f) :
    keep g ∧ rest.Ensures keep goal g := by
  induction hlead with
  | here work f => exact ⟨hkeep, h⟩
  | call a hmay _ ih =>
      obtain ⟨hafter, hrest⟩ := h a hmay
      exact ih hafter hrest

theorem Ensures.mono {goal goal' : Except Failure α → Floor → Prop}
    (himp : ∀ r g, keep g → goal r g → goal' r g) {work : Action α} {f : Floor} (hkeep : keep f)
    (h : work.Ensures keep goal f) : work.Ensures keep goal' f := by
  induction work generalizing f with
  | done a => exact himp _ f hkeep h
  | fail e => exact himp _ f hkeep h
  | call c rest ih =>
      intro a hmay
      obtain ⟨hafter, hrest⟩ := h a hmay
      exact ⟨hafter, ih a hafter hrest⟩

theorem Ensures.weaken {keep' : Floor → Prop} {goal : Except Failure α → Floor → Prop}
    {work : Action α} (h : work.Ensures keep goal f) (himp : ∀ g, keep g → keep' g) :
    work.Ensures keep' goal f := by
  induction work generalizing f with
  | done a => exact h
  | fail e => exact h
  | call c rest ih =>
      intro a hmay
      obtain ⟨hafter, hrest⟩ := h a hmay
      exact ⟨himp _ hafter, ih a hrest⟩

theorem Ensures.and {keep' : Floor → Prop} {goal goal' : Except Failure α → Floor → Prop}
    {work : Action α} (h : work.Ensures keep goal f) (h' : work.Ensures keep' goal' f) :
    work.Ensures (fun g => keep g ∧ keep' g) (fun r g => goal r g ∧ goal' r g) f := by
  induction work generalizing f with
  | done a => exact ⟨h, h'⟩
  | fail e => exact ⟨h, h'⟩
  | call c rest ih =>
      intro a hmay
      obtain ⟨hafter, hrest⟩ := h a hmay
      obtain ⟨hafter', hrest'⟩ := h' a hmay
      exact ⟨⟨hafter, hafter'⟩, ih a hrest hrest'⟩

/-- Work in two parts ends as its second part does, or where the first one fails. -/
theorem Ensures.bind {goal : Except Failure β → Floor → Prop}
    {middle : Except Failure α → Floor → Prop} {work : Action α} {next : α → Action β}
    (hwork : work.Ensures keep middle f) (hkeep : keep f)
    (hnext : ∀ a g, keep g → middle (.ok a) g → (next a).Ensures keep goal g)
    (hfail : ∀ e g, keep g → middle (.error e) g → goal (.error e) g) :
    (work >>= next).Ensures keep goal f := by
  induction work generalizing f with
  | done a => exact hnext a f hkeep hwork
  | fail e => exact hfail e f hkeep hwork
  | call c rest ih =>
      intro a hmay
      obtain ⟨hafter, hrest⟩ := hwork a hmay
      exact ⟨hafter, ih a hrest hafter⟩

/-- Of work in two parts, what is so if it is done. -/
theorem Ensures.bind_ok {goal : α → Floor → Prop} {goal' : β → Floor → Prop} {work : Action α}
    {next : α → Action β}
    (hwork : work.Ensures keep (fun r g => ∀ a, r = .ok a → goal a g) f) (hkeep : keep f)
    (hnext : ∀ a g, keep g → goal a g →
      (next a).Ensures keep (fun r g => ∀ b, r = .ok b → goal' b g) g) :
    (work >>= next).Ensures keep (fun r g => ∀ b, r = .ok b → goal' b g) f :=
  hwork.bind hkeep (fun a g hg h => hnext a g hg (h a rfl)) fun _ _ _ _ _ h => nomatch h

theorem Ensures.attempt {goal : Except Failure (Except Failure α) → Floor → Prop}
    {work : Action α} (h : work.Ensures keep (fun r g => goal (.ok r) g) f) :
    work.attempt.Ensures keep goal f := by
  induction work generalizing f with
  | done a => exact h
  | fail e => exact h
  | call c rest ih =>
      intro a hmay
      obtain ⟨hafter, hrest⟩ := h a hmay
      exact ⟨hafter, ih a hrest⟩

theorem Ensures.attemptError {goal : Except Failure (Except Error α) → Floor → Prop}
    {work : Action α} (h : work.Ensures keep (fun r g => match r with
      | .ok a => goal (.ok (.ok a)) g
      | .error (.error e) => goal (.ok (.error e)) g
      | .error o => goal (.error o) g) f) :
    work.attemptError.Ensures keep goal f := by
  induction work generalizing f with
  | done a => exact h
  | fail e =>
      cases e with
      | error e => exact h
      | overflow o => exact h
  | call c rest ih =>
      intro a hmay
      obtain ⟨hafter, hrest⟩ := h a hmay
      exact ⟨hafter, ih a hrest⟩

end Action

end Bourse
