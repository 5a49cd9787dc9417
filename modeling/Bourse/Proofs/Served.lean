/-
What a service has done, one thing after another.

`Served` is a run as `Reached` is, with two differences: a tick may go in any of the ways
in which its passes can take turns, and orders may be looked up.  All that was done is on
record, each thing with the floors before and after it.  To drain the tickers one after the
other is one of those ways, so whatever is reached has been served (`Reached.served`).

What every call preserves holds of each floor that was served (`Served.along`).  A rule of
calls is another matter.  The passes of a tick each uphold it, but their calls are mixed up,
so of the calls of a tick it is known only that they can be put into an order in which they
uphold the rule.  That order is their own if the passes were one after the other.
-/
import Bourse.Proofs.Neighbours
import Bourse.Proofs.Upheld

namespace Bourse

open Bourse.Action

variable {scale : Nat}

/-! ### One thing -/

/-- Something that was done, between two floors. -/
structure Serving where
  before : Floor
  /-- How its passes went and what has become of it, if it was a tick. -/
  tick? : Option (Fan × Except Failure TickOutcome)
  after : Floor

namespace Serving

/-- The calls that were made. -/
def calls (s : Serving) : List Answered := s.before.since s.after

/-- Is it a tick that has returned, whatever its outcome? -/
def ticked (s : Serving) : Bool :=
  match s.tick? with
  | some (_, .ok _) => true
  | _ => false

/-- Unless it was a tick whose passes were not one after the other. -/
def Serial (s : Serving) : Prop := ∀ fan r, s.tick? = some (fan, r) → fan.Serial

/-- What can be done: an operation, or looking up an order, or a tick. -/
inductive Done (scale : Nat) : Serving → Prop
  | operation {f g : Floor} {r : Except Failure Unit} (op : Operation) (hop : op ≠ .tick)
      (hlead : f.Leads (op.work scale) (.ended r) g) : Done scale ⟨f, none, g⟩
  | find {f g : Floor} {r : Except Failure Order} (id : OrderId)
      (hlead : f.Leads (findOrder id) (.ended r) g) : Done scale ⟨f, none, g⟩
  | tick {f g : Floor} {fan : Fan} {r : Except Failure TickOutcome}
      (hticks : f.Ticks scale fan r g) : Done scale ⟨f, some (fan, r), g⟩

end Serving

theorem findOrder_keeps (id : OrderId) : (findOrder id).Keeps scale := by
  unfold findOrder
  refine (keeps_load id).bind fun found => ?_
  cases found with
  | none => exact keeps_fail _
  | some o => exact keeps_done o

theorem findOrder_gives (f : Floor) (id : OrderId) : (findOrder id).Gives .any .trading f := by
  unfold findOrder
  refine Gives.bind (gives_store fun _ _ => .of_same rfl rfl) fun found _ _ => ?_
  cases found with
  | none => exact gives_fail _
  | some o => exact gives_done o

/-- What every call preserves is preserved by work that changes a floor as it may be changed. -/
theorem Floor.Leads.along_among {α : Type} {f g : Floor} {work rest : Action α} {rely give : Change}
    {mine : List Answered} {goal : Except Failure α → Floor → Prop}
    {goal' : Except Failure α → List Answered → Floor → Prop} {Q : Floor → Prop}
    (hlead : f.Leads work rest g) (hkeeps : work.Ensures (Floor.Orderly scale) goal f)
    (hamong : work.Among rely give goal' mine f) (hf : f.Orderly scale)
    (hcall : Floor.Preserved scale Q) (hQ : Q f) : Q g := by
  induction hlead generalizing mine with
  | here work f => exact hQ
  | call a hmay _ ih =>
      obtain ⟨hafter, hkeeps⟩ := hkeeps a hmay
      obtain ⟨hgive, hamong⟩ := hamong _ (rely.of_same rfl rfl) a hmay
      exact ih hkeeps hamong hafter (hcall a hf hafter hmay (give.becomes hgive) hQ)

theorem Floor.Ticks.log {f g : Floor} {fan : Fan} {r : Except Failure TickOutcome}
    (h : f.Ticks scale fan r g) : f.log <+: g.log := by
  cases h with
  | idle hopen => exact hopen.log
  | fanned hopen _ _ hfan hclose =>
      exact hopen.log.trans (List.IsPrefix.trans ⟨_, hfan.log.symm⟩ hclose.log)

namespace Serving.Done

variable {s : Serving}

theorem log (h : s.Done scale) : s.before.log <+: s.after.log := by
  cases h with
  | operation op hop hlead => exact hlead.log
  | find id hlead => exact hlead.log
  | tick hticks => exact hticks.log

theorem sound (h : s.Done scale) (hf : s.before.Orderly scale) (hsound : s.before.Sound) :
    s.after.Sound := by
  cases h with
  | operation op hop hlead =>
      exact (op.gives.becomes ((op.work_among hsound).of_leads hlead)).sound hsound
  | find id hlead =>
      have htrades : Floor.Trades _ _ := (findOrder_gives _ id []).of_leads hlead
      exact htrades.sound hsound
  | tick hticks => exact (hticks.trail hf hsound).1.trading.sound hsound

/-- What every call preserves is preserved by what is done. -/
theorem along {Q : Floor → Prop} (h : s.Done scale) (hf : s.before.Orderly scale)
    (hsound : s.before.Sound) (hcall : Floor.Preserved scale Q) (hQ : Q s.before) :
    Q s.after := by
  cases h with
  | operation op hop hlead =>
      exact hlead.along_among (op.work_keeps _ hf) (op.work_among hsound) hf hcall hQ
  | find id hlead =>
      exact hlead.along_among (findOrder_keeps id _ hf) (findOrder_gives _ id []) hf hcall hQ
  | tick hticks => exact (hticks.trail hf hsound).1.along hf hcall hQ

end Serving.Done

/-! ### One after another -/

/-- What was done, each thing after the end of the one before. -/
inductive Floor.Served (scale : Nat) : List Serving → Floor → Prop
  | opened : Served scale [] .opened
  | next {servings : List Serving} {s : Serving} (h : Served scale servings s.before)
      (hdone : s.Done scale) : Served scale (servings ++ [s]) s.after

namespace Floor

variable {f g : Floor} {servings : List Serving}

namespace Served

theorem sane (h : f.Served scale servings) : f.Orderly scale ∧ f.Sound := by
  induction h with
  | opened => exact ⟨orderly_opened scale, sound_opened⟩
  | next _ hdone ih =>
      exact ⟨hdone.along ih.1 ih.2 (fun _ _ hafter _ _ _ => hafter) ih.1, hdone.sound ih.1 ih.2⟩

theorem orderly (h : f.Served scale servings) : f.Orderly scale := h.sane.1

theorem sound (h : f.Served scale servings) : f.Sound := h.sane.2

/-- **What every call preserves holds whatever was done.** -/
theorem along {Q : Floor → Prop} (h : f.Served scale servings) (hcall : Preserved scale Q)
    (hopened : Q .opened) : Q f := by
  induction h with
  | opened => exact hopened
  | next h hdone ih => exact hdone.along h.orderly h.sound hcall ih

/-- Each thing was done when others had been. -/
theorem each (h : f.Served scale servings) : ∀ s ∈ servings, s.Done scale ∧
    ∃ earlier, s.before.Served scale earlier := by
  induction h with
  | opened => exact List.forall_mem_nil _
  | next h hdone ih =>
      exact List.forall_mem_append.mpr
        ⟨ih, List.forall_mem_singleton.mpr ⟨hdone, _, h⟩⟩

/-- All calls are those of what was done. -/
theorem log_eq (h : f.Served scale servings) : f.log = servings.flatMap (·.calls) := by
  induction h with
  | opened => rfl
  | @next _ s _ hdone ih =>
      rw [Floor.log_eq hdone.log, ih, List.flatMap_append, List.flatMap_singleton]
      rfl

end Served

/-- **Whatever is reached has been served**, with the passes of every tick one after the other. -/
theorem Reached.served (h : f.Reached scale) :
    ∃ servings, f.Served scale servings ∧ ∀ s ∈ servings, s.Serial := by
  induction h with
  | opened => exact ⟨[], .opened, List.forall_mem_nil _⟩
  | @after f g rest h op hlead hend ih =>
      obtain ⟨servings, hserved, hserial⟩ := ih
      obtain ⟨r, rfl⟩ := hend.result
      by_cases hop : op = .tick
      · subst hop
        obtain ⟨s, hlead⟩ : ∃ s, f.Leads (Bourse.tick scale) (.ended s) g := by
          rcases hlead.of_bind with ⟨a, w, hlead, hdone⟩ | ⟨e, hlead, -⟩
          · obtain ⟨-, rfl⟩ := Leads.of_done hdone
            exact ⟨.ok a, hlead⟩
          · exact ⟨.error e, hlead⟩
        obtain ⟨fan, hfan, hticks⟩ := hlead.ticks
        refine ⟨_, hserved.next (s := ⟨f, some (fan, s), g⟩) (.tick hticks), ?_⟩
        refine List.forall_mem_append.mpr ⟨hserial, List.forall_mem_singleton.mpr ?_⟩
        intro _ _ hsome
        cases hsome
        exact hfan
      · refine ⟨_, hserved.next (s := ⟨f, none, g⟩) (.operation op hop hlead), ?_⟩
        exact List.forall_mem_append.mpr ⟨hserial, List.forall_mem_singleton.mpr nofun⟩

end Floor

/-! ### A tick whose passes overlap -/

namespace Floor

variable {f : Floor}

/-- Makes at most so many calls of some work on a floor that refuses nothing. -/
def started {α : Type} (time : Instant) : Nat → Floor → Action α → Action α × Floor
  | n + 1, f, .call c rest => started time n (f.after c (f.grant time c)) (rest (f.grant time c))
  | _, f, work => (work, f)

theorem leads_started {α : Type} (time : Instant) (n : Nat) (f : Floor) (work : Action α) :
    f.Leads work (started time n f work).1 (started time n f work).2 := by
  induction n generalizing f work with
  | zero => exact .here work f
  | succ n ih =>
      cases work with
      | done a => exact .here _ f
      | fail e => exact .here _ f
      | call c rest => exact .call _ (f.may_grant time c) (ih _ _)

/--
A tick on a floor that refuses nothing: once the pass over one ticker has made so many calls,
the pass over another one is made from its beginning to its end.
-/
def overlapping (scale n : Nat) (first second : String) (f : Floor) :
    Except Failure TickOutcome × Floor :=
  let begun := started .epoch n (f.perform .epoch openTick).2 (drainTicker scale first)
  let between := begun.2.perform .epoch (drainTicker scale second)
  let rest := between.2.perform .epoch begun.1
  rest.2.perform .epoch (closeTick [between.1, rest.1])

/-- A tick can go like this if these two tickers are active. -/
theorem Ticks.overlapping {first second : String} (hne : first ≠ second)
    (htickers : f.index.tickers.Perm [first, second]) (n : Nat) : ∃ fan,
      f.Ticks scale fan (f.overlapping scale n first second).1
        (f.overlapping scale n first second).2 := by
  have hopen : f.Leads openTick (.done (.ok f.index.tickers)) (f.perform .epoch openTick).2 :=
    f.leads_perform .epoch openTick
  unfold Floor.overlapping
  dsimp only
  generalize (f.perform .epoch openTick).2 = v at hopen ⊢
  have hbegun := leads_started .epoch n v (drainTicker scale first)
  generalize started .epoch n v (drainTicker scale first) = begun at hbegun ⊢
  have hbetween := begun.2.leads_perform .epoch (drainTicker scale second)
  generalize begun.2.perform .epoch (drainTicker scale second) = between at hbetween ⊢
  have hrest := between.2.leads_perform .epoch begun.1
  generalize between.2.perform .epoch begun.1 = rest at hrest ⊢
  let works := passes scale [second, first]
  let results : String → Except Failure TickReport :=
    Function.update (Function.update (fun _ => .ok .zero) second between.1) first rest.1
  -- The first pass begins, the second one is made, and the first one goes on.
  have hfirst : works first = drainTicker scale first := if_pos (by simp)
  have hwaiting : Function.update works first begun.1 second = drainTicker scale second := by
    rw [Function.update_of_ne hne.symm]
    exact if_pos (by simp)
  have hgone : Function.update (Function.update works first begun.1) second (ended between.1)
      first = begun.1 := by
    rw [Function.update_of_ne hne, Function.update_self]
  have hfan := ((hbegun.fans hfirst).trans (hbetween.fans hwaiting)).trans (hrest.fans hgone)
  have hends : Function.update (Function.update (Function.update works first begun.1) second
      (ended between.1)) first (ended rest.1) = fun ticker => ended (results ticker) := by
    funext ticker
    by_cases hticker : ticker = first
    · simp [results, hticker]
    · by_cases hother : ticker = second
      · simp [results, hother, hne.symm]
      · simp [results, works, passes, hticker, hother, ended]
  have hclose := rest.2.leads_perform .epoch (closeTick [between.1, rest.1])
  have hjoined : [second, first].map results = [between.1, rest.1] := by
    simp [results, hne.symm]
  refine ⟨⟨[second, first], results, _⟩, .fanned hopen (by simp [hne.symm]) ?_ (hends ▸ hfan)
    (hjoined ▸ hclose) fun _ _ => ?_⟩
  · exact fun ticker hin => htickers.mem_iff.mpr (by simpa [or_comm] using hin)
  · exact fun ticker hin => by simpa [or_comm] using htickers.mem_iff.mp hin

/--
Orders for so much on X have traded, that a half more does not fit exactly, and there are
orders for half of one on X and for one on Y.
-/
def parted : Floor :=
  let pair (ticker : String) (amount : Decimal) : List Operation :=
    [.submit [] ⟨ticker, .buy, .ofDigits 1 0, amount⟩,
      .submit [] ⟨ticker, .sell, .ofDigits 1 0, amount⟩]
  session 2 .epoch (pair "X" (.ofDigits 79228162514264337593543950333 0) ++ [.tick] ++
    pair "X" (.ofDigits 5 1) ++ pair "Y" (.ofDigits 1 0))

/-- In the next tick, the pass over Y is made when that over X has just committed its fill. -/
def overtaken : Floor := (parted.overlapping 2 7 "X" "Y").2

theorem served_overtaken : ∃ servings, overtaken.Served 2 servings := by
  have hreached : parted.Reached 2 := reached_session _ _ _
  have htickers : parted.index.tickers.Perm ["X", "Y"] := by decide +kernel
  obtain ⟨servings, hserved, -⟩ := hreached.served
  obtain ⟨fan, hticks⟩ : ∃ fan, parted.Ticks 2 fan _ overtaken :=
    Ticks.overlapping (by decide) htickers 7
  exact ⟨_, hserved.next (s := ⟨parted, some (fan, _), overtaken⟩) (.tick hticks)⟩

end Floor

/-! ### Rules of calls -/

namespace Rule

variable {P : List Answered → Prop} (hP : Rule P)

include hP

theorem flatMap {α : Type} {as : List α} {calls : α → List Answered} (h : ∀ a ∈ as, P (calls a)) :
    P (as.flatMap calls) := by
  induction as with
  | nil => exact hP.nil
  | cons a as ih =>
      obtain ⟨ha, h⟩ := List.forall_mem_cons.mp h
      exact hP.append ha (ih h)

theorem each {calls : List Answered} (h : ∀ x ∈ calls, P [x]) : P calls := by
  rw [← List.flatMap_singleton' calls]
  exact hP.flatMap h

end Rule

/-- What comes before the passes upholds a rule that ticks keep. -/
theorem Opened.upholds {P : List Answered → Prop} {opened : Except TickOutcome (List String)}
    {calls : List Answered} (h : Opened opened calls) (hP : Rule P)
    (htick : CallKind.tick.Keeps P) : P calls := by
  have hkinds : ∀ x ∈ calls, x.call.kind = .plain ∨ x.call.kind = .tick := by
    cases h <;> simp [Call.kind]
  exact hP.each fun x hx => (hkinds x hx).elim (hP.plain x.answer) (htick x.answer)

/-- What comes after them does, too. -/
theorem Closed.upholds {P : List Answered → Prop} {passes : List (Except Failure TickReport)}
    {r : Except Failure TickOutcome} {calls : List Answered} (h : Closed passes r calls)
    (hP : Rule P) (htick : CallKind.tick.Keeps P) : P calls := by
  have hkinds : ∀ x ∈ calls, x.call.kind = .tick := by
    cases h <;> simp [Call.kind]
  exact hP.each fun x hx => htick x.answer (hkinds x hx)

/-- Each pass of a tick upholds a rule by its own calls. -/
theorem Rule.passes {P : List Answered → Prop} (hP : Rule P) {v w : Floor} {joined : List String}
    {trace : List (String × Answered)} {results : String → Except Failure TickReport}
    (hfan : v.Fans (passes scale joined) trace (fun ticker => ended (results ticker)) w)
    (ticker : String) : P (callsOf trace ticker) := by
  have hends := hfan.comesTo ticker rfl
  have hpass : (Bourse.passes scale joined ticker).Upholds P := by
    unfold Bourse.passes
    split
    · exact hP.drainTicker scale ticker
    · exact hP.done _
  exact Makes.of_comesTo hpass hends

/-- Put into some order, the calls of a tick uphold a rule that ticks keep. -/
theorem Floor.Ticks.upholds {P : List Answered → Prop} {f g : Floor} {fan : Fan}
    {r : Except Failure TickOutcome} (h : f.Ticks scale fan r g) (hP : Rule P)
    (htick : CallKind.tick.Keeps P) :
    ∃ calls, P calls ∧ calls.Perm (f.since g) ∧ (fan.Serial → calls = f.since g) := by
  cases h with
  | idle hopen =>
      obtain ⟨_, -, hcalls⟩ := openTick_makes.of_ended (r := .ok _) hopen
      exact ⟨f.since g, hcalls.upholds hP htick, .refl _, fun _ => rfl⟩
  | @fanned _ tickers v w _ _ hopen hnodup hactive hfan hclose =>
      have hsince := hfan.since_between hopen.log hclose.log
      have hwhole (order : List String) :
          P (f.since v ++ order.flatMap (callsOf fan.trace) ++ w.since g) := by
        obtain ⟨_, -, hbefore⟩ := openTick_makes.of_ended (r := .ok _) hopen
        have hafter := (closeTick_makes _).of_ended hclose
        refine hP.append (hP.append (hbefore.upholds hP htick) ?_) (hafter.upholds hP htick)
        exact hP.flatMap fun ticker _ => hP.passes hfan ticker
      by_cases hserial : fan.Serial
      · obtain ⟨order, -, horder⟩ := hserial
        rw [hsince, horder]
        exact ⟨_, hwhole order, .refl _, fun _ => rfl⟩
      · refine ⟨_, hwhole fan.joined, ?_, fun h => absurd h hserial⟩
        rw [hsince]
        exact ((callsOf_perm hnodup hfan.joined).append_left _).append_right _

/-- **What is done upholds a rule**, but for the order of the calls of a tick. -/
theorem Serving.Done.upholds {P : List Answered → Prop} {s : Serving} (h : s.Done scale)
    (hP : Rule P) (htick : CallKind.tick.Keeps P) (howner : CallKind.owner.Keeps P) :
    ∃ calls, P calls ∧ calls.Perm s.calls ∧ (s.Serial → calls = s.calls) := by
  cases h with
  | operation op hop hlead =>
      exact ⟨_, (hP.work scale howner hop).of_ended hlead, .refl _, fun _ => rfl⟩
  | find id hlead => exact ⟨_, (hP.findOrder id).of_ended hlead, .refl _, fun _ => rfl⟩
  | tick hticks =>
      obtain ⟨calls, hcalls, hperm, hserial⟩ := hticks.upholds hP htick
      exact ⟨calls, hcalls, hperm, fun h => hserial (h _ _ rfl)⟩

/-- What is read once of every fill is read of those that were committed. -/
theorem Serving.Done.echoes {β : Type} {read : Answered → Option β} {of : FillCommit → β}
    {s : Serving} (h : s.Done scale) (hreads : FillCommit.Reads read of) :
    (s.calls.filterMap read).Perm ((s.calls.filterMap (·.fill?)).map of) ∧
      (s.Serial → Echoes read of s.calls) := by
  obtain ⟨calls, hcalls, hperm, hserial⟩ :=
    h.upholds hreads.rule (hreads.keeps (by decide)) (hreads.keeps (by decide))
  refine ⟨?_, fun h => hserial h ▸ hcalls⟩
  have hsame : calls.filterMap read = (calls.filterMap (·.fill?)).map of := hcalls
  exact (hsame ▸ hperm.symm.filterMap read).trans ((hperm.filterMap _).map of)

theorem Floor.Served.echoes {β : Type} {read : Answered → Option β} {of : FillCommit → β}
    {f : Floor} {servings : List Serving} (h : f.Served scale servings)
    (hreads : FillCommit.Reads read of) :
    (f.log.filterMap read).Perm ((f.log.filterMap (·.fill?)).map of) := by
  rw [h.log_eq, List.filterMap_flatMap, List.filterMap_flatMap, List.map_flatMap]
  exact List.Perm.flatMap_left _ fun s hs => ((h.each s hs).1.echoes hreads).1

end Bourse
