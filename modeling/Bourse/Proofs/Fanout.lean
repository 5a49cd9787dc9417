/-
The passes of a tick beside each other.

A tick begins a pass for each ticker that is active and lets them go on side by side.
Between two calls of one pass the others may make any number of theirs (`Fans`), and the
reports are added up as the passes come to their ends, in whatever order they do.  When
there is no room for a report the tick fails at once.  Passes that have begun by then go
on to their ends, and the others never begin; so only of a tick that is completed is it
known that every ticker has had its pass (`Ticks`).

To drain the tickers one after the other, as `tick` does, is one way in which a tick can go
(`Leads.ticks`), and while no call is refused all ways agree on everything but the order of
what is written down (`Ticks.agrees`).

Of its own calls a pass makes what it makes of them wherever they stand among the calls of
the others.  So what `Makes` tells of a pass is so here too (`Fans.comesTo`).

How many passes may go on at once is left out: any number may, and fewer is a special case.
-/
import Bourse.Proofs.Alone
import Bourse.Proofs.Apart
import Bourse.Proofs.Tally

namespace Bourse

open Bourse.Action

/-! ### What is told of the calls of a pass -/

namespace Action

variable {α : Type} {calls : List Answered}

/-- **What work makes of its calls**, it makes of them however it was answered. -/
theorem Makes.of_comesTo {goal : Except Failure α → List Answered → Prop} {work : Action α}
    {r : Except Failure α} (h : work.Makes goal) (hends : work.ComesTo calls r) :
    goal r calls := by
  induction work generalizing goal calls with
  | done a =>
      obtain ⟨rfl, rfl⟩ := hends
      exact h
  | fail e =>
      obtain ⟨rfl, rfl⟩ := hends
      exact h
  | call c rest ih =>
      obtain ⟨a, later, rfl, hends⟩ := hends
      have hrest := ih a (h a) hends
      exact hrest

theorem Returns.of_comesTo {goal : α → Prop} {work : Action α} {a : α} (h : work.Returns goal)
    (hends : work.ComesTo calls (.ok a)) : goal a := by
  induction work generalizing calls with
  | done b =>
      obtain ⟨-, hb⟩ := hends
      cases hb
      exact h
  | fail e => exact nomatch hends.2
  | call c rest ih =>
      obtain ⟨b, later, -, hends⟩ := hends
      exact ih b (h b) hends

end Action

/-! ### A tick and its passes -/

/-- What comes before the passes: the active tickers, or what has become of the tick. -/
def openTick : Action (Except TickOutcome (List String)) := do
  let time ← Action.now
  if !(← Action.call (.marketOpen time) .done) then
    Action.count .ticksMarketClosed
    return .error .marketClosed
  else if !(← Action.call .beginTick .done) then
    Action.count .ticksOverlapped
    return .error .overlapped
  else
    match ← Action.call (.index .tickers) .done with
    | .ok tickers => return .ok tickers
    | .error _ =>
      Action.count .ticksIndexUnavailable
      Action.call .endTick .done
      return .error .indexUnavailable

/-- What comes after them: the totals, in the order in which the passes are added up. -/
def closeTick (passes : List (Except Failure TickReport)) : Action TickOutcome :=
  match passes.foldlM TickReport.withPass .zero with
  | some report => do
    Action.count .ticksRun
    Action.call .endTick .done
    return .completed report
  | none => do
    Action.call .endTick .done
    Action.fail (.overflow .addition)

theorem drainTickers_attempt {α : Type} (scale : Nat) (tickers : List String)
    (next : List (Except Failure TickReport) → Action α) :
    (drainTickers scale tickers >>= next).attempt =
      drainTickers scale tickers >>= fun passes => (next passes).attempt := by
  induction tickers generalizing next with
  | nil => rfl
  | cons ticker tickers ih =>
      unfold drainTickers
      rw [Action.bind_assoc, attempt_attempt_bind, Action.bind_assoc]
      refine congrArg (_ >>= ·) (funext fun first => ?_)
      rw [Action.bind_assoc, Action.bind_assoc]
      exact ih fun others => next (first :: others)

/-- The tick that drains the tickers one after the other does so between these two. -/
theorem tick_eq_openTick (scale : Nat) : tick scale = openTick >>= fun
    | .error outcome => done outcome
    | .ok tickers => drainTickers scale tickers >>= closeTick := by
  unfold tick openTick
  refine congrArg (call _) (funext fun time => congrArg (call _) (funext fun isOpen => ?_))
  cases isOpen with
  | false => rfl
  | true =>
      refine congrArg (call _) (funext fun begun => ?_)
      cases begun with
      | false => rfl
      | true =>
          show (tickPass scale).attempt >>= _ = _
          unfold tickPass
          rw [attemptError_index]
          refine congrArg (call _) (funext fun listed => ?_)
          cases listed with
          | error e => rfl
          | ok tickers =>
              show (drainTickers scale tickers >>= _).attempt >>= _ =
                drainTickers scale tickers >>= closeTick
              rw [drainTickers_attempt, Action.bind_assoc]
              refine congrArg (_ >>= ·) (funext fun passes => ?_)
              unfold closeTick
              cases passes.foldlM TickReport.withPass .zero <;> rfl

/-- How the passes of a tick went. -/
structure Fan where
  /-- The tickers whose passes have begun, in the order in which their reports are added up. -/
  joined : List String
  results : String → Except Failure TickReport
  /-- The calls of the passes, each with the ticker of its pass. -/
  trace : List (String × Answered)

namespace Fan

/-- No pass has begun. -/
def idle : Fan := ⟨[], fun _ => .ok .zero, []⟩

/-- The passes were one after the other, in some order. -/
def Serial (fan : Fan) : Prop := ∃ tickers : List String, tickers.Perm fan.joined ∧
  fan.trace.map (·.2) = tickers.flatMap (callsOf fan.trace)

end Fan

/-- What a tick can come to, and how its passes went. -/
inductive Floor.Ticks (scale : Nat) (f : Floor) :
    Fan → Except Failure TickOutcome → Floor → Prop
  | idle {outcome : TickOutcome} {g : Floor} (hopen : f.Leads openTick (.done (.error outcome)) g) :
      Ticks scale f .idle (.ok outcome) g
  | fanned {fan : Fan} {tickers : List String} {v w g : Floor} {r : Except Failure TickOutcome}
      (hopen : f.Leads openTick (.done (.ok tickers)) v) (hnodup : fan.joined.Nodup)
      (hactive : fan.joined ⊆ tickers)
      (hfan : v.Fans (passes scale fan.joined) fan.trace (fun ticker => ended (fan.results ticker))
        w)
      (hclose : w.Leads (closeTick (fan.joined.map fan.results)) (.ended r) g)
      (hall : ∀ outcome, r = .ok outcome → tickers ⊆ fan.joined) : Ticks scale f fan r g

/-- Only passes that have begun make calls. -/
theorem Floor.Fans.joined {scale : Nat} {joined : List String} {v w : Floor}
    {trace : List (String × Answered)} {works : String → Action TickReport}
    (hfan : v.Fans (passes scale joined) trace works w) : ∀ x ∈ trace, x.1 ∈ joined := by
  intro x hx
  by_contra hnew
  refine hfan.not_ended hx ?_
  rw [show passes scale joined x.1 = .done .zero from if_neg hnew]
  trivial

/-! ### Before and after the passes -/

/-- The calls before the passes, by what has become of the tick. -/
inductive Opened : Except TickOutcome (List String) → List Answered → Prop
  | marketClosed (time : Instant) : Opened (.error .marketClosed)
      [⟨.now, time⟩, ⟨.marketOpen time, false⟩, ⟨.count .ticksMarketClosed, ()⟩]
  | overlapped (time : Instant) : Opened (.error .overlapped)
      [⟨.now, time⟩, ⟨.marketOpen time, true⟩, ⟨.beginTick, false⟩, ⟨.count .ticksOverlapped, ()⟩]
  | indexUnavailable (time : Instant) (e : Error) : Opened (.error .indexUnavailable)
      [⟨.now, time⟩, ⟨.marketOpen time, true⟩, ⟨.beginTick, true⟩, ⟨.index .tickers, .error e⟩,
        ⟨.count .ticksIndexUnavailable, ()⟩, ⟨.endTick, ()⟩]
  | listed (time : Instant) (tickers : List String) : Opened (.ok tickers)
      [⟨.now, time⟩, ⟨.marketOpen time, true⟩, ⟨.beginTick, true⟩, ⟨.index .tickers, .ok tickers⟩]

theorem openTick_makes : openTick.Yields Opened := by
  unfold openTick
  intro time isOpen
  cases isOpen with
  | false => exact fun _ => ⟨_, rfl, .marketClosed time⟩
  | true =>
      intro begun
      cases begun with
      | false => exact fun _ => ⟨_, rfl, .overlapped time⟩
      | true =>
          intro listed
          cases listed with
          | error e => exact fun _ _ => ⟨_, rfl, .indexUnavailable time e⟩
          | ok tickers => exact ⟨_, rfl, .listed time tickers⟩

namespace Opened

variable {opened : Except TickOutcome (List String)} {calls : List Answered}

theorem posts (h : Opened opened calls) : Posts calls [] := by
  cases h <;> exact ⟨rfl, rfl⟩

theorem still (h : Opened opened calls) : ∀ x ∈ calls, x.call.still = true := by
  cases h <;> simp [Call.still, Call.quiet]

/-- Without its passes, a tick is not completed. -/
theorem ne_completed {outcome : TickOutcome} (h : Opened (.error outcome) calls)
    (report : TickReport) : outcome ≠ .completed report := by
  cases h <;> exact nofun

/-- The passes come if nothing is in their way. -/
theorem exists_tickers (h : Opened opened calls) (hgranted : ∀ x ∈ calls, x.granted = true) :
    ∃ tickers, opened = .ok tickers := by
  cases h with
  | listed time tickers => exact ⟨tickers, rfl⟩
  | marketClosed | overlapped | indexUnavailable => simp [Answered.granted] at hgranted

end Opened

/-- The calls after the passes, by whether there is room for the totals. -/
inductive Closed (passes : List (Except Failure TickReport)) :
    Except Failure TickOutcome → List Answered → Prop
  | completed {report : TickReport} (h : passes.foldlM TickReport.withPass .zero = some report) :
      Closed passes (.ok (.completed report)) [⟨.count .ticksRun, ()⟩, ⟨.endTick, ()⟩]
  | overflowed (h : passes.foldlM TickReport.withPass .zero = none) :
      Closed passes (.error (.overflow .addition)) [⟨.endTick, ()⟩]

theorem closeTick_makes (passes : List (Except Failure TickReport)) :
    (closeTick passes).Makes (Closed passes) := by
  unfold closeTick
  cases htotal : passes.foldlM TickReport.withPass .zero with
  | none => exact fun _ => .overflowed htotal
  | some report => exact fun _ _ => .completed htotal

namespace Closed

variable {passes : List (Except Failure TickReport)} {r : Except Failure TickOutcome}
  {calls : List Answered}

theorem posts (h : Closed passes r calls) : Posts calls [] := by
  cases h <;> exact ⟨rfl, rfl⟩

theorem still (h : Closed passes r calls) : ∀ x ∈ calls, x.call.still = true := by
  cases h <;> simp [Call.still, Call.quiet]

/-- The tick ends as its totals do. -/
theorem result (h : Closed passes r calls) :
    r = totalled ((passes.foldlM TickReport.withPass .zero).map .completed) := by
  cases h with
  | completed h | overflowed h => rw [h]; rfl

end Closed

namespace Floor

variable {α : Type} {scale : Nat} {f g v w : Floor}

/-- After calls that leave them as they are, the store and the index are what they were. -/
theorem Leads.same_of_still {work rest : Action α} (hlead : f.Leads work rest g)
    (hstill : ∀ x ∈ f.since g, x.call.still = true) : g.store = f.store ∧ g.index = f.index := by
  induction hlead with
  | here => exact ⟨rfl, rfl⟩
  | call a hmay hlead ih =>
      rw [hlead.since_call, List.forall_mem_cons] at hstill
      obtain ⟨hstore, hindex⟩ := ih hstill.2
      obtain ⟨hstore', hindex'⟩ := after_same hstill.1 a
      exact ⟨hstore.trans hstore', hindex.trans hindex'⟩

theorem Leads.same_of_closeTick {passes : List (Except Failure TickReport)}
    {r : Except Failure TickOutcome} (hlead : f.Leads (closeTick passes) (.ended r) g) :
    g.store = f.store ∧ g.index = f.index :=
  hlead.same_of_still ((closeTick_makes passes).of_ended hlead).still

/-- The tickers to be drained are those that were active when the tick began. -/
theorem Leads.of_openTick {tickers : List String}
    (hlead : f.Leads openTick (.done (.ok tickers)) v) :
    tickers = f.index.tickers ∧ v.store = f.store ∧ v.index = f.index := by
  obtain ⟨_, hopened, hcalls⟩ := openTick_makes.of_ended (r := .ok _) hlead
  cases hopened
  have hstill := hcalls.still
  have hlisted : (⟨.index .tickers, .ok tickers⟩ : Answered) ∈ f.since v := by
    generalize f.since v = calls at hcalls
    cases hcalls
    simp
  obtain ⟨k, next, hbefore, hmay, hlater⟩ := hlead.split hlisted
  have hsince := since_trans hbefore.log ((log_after k _ _).trans hlater.log)
  have hk := hbefore.same_of_still fun x hx => hstill x (hsince ▸ List.mem_append_left _ hx)
  have hmay : tickers = k.index.tickers := hmay
  exact ⟨hk.2 ▸ hmay, hlead.same_of_still hstill⟩

/-! ### One ticker after the other -/

/-- **A tick that drains the tickers one after the other** is one way for a tick to go. -/
theorem Leads.ticks {r : Except Failure TickOutcome} (hlead : f.Leads (tick scale) (.ended r) g) :
    ∃ fan : Fan, fan.Serial ∧ f.Ticks scale fan r g := by
  rw [tick_eq_openTick] at hlead
  rcases hlead.of_bind with ⟨opened, v, hopen, hlead⟩ | ⟨e, hopen, -⟩
  · cases opened with
    | error outcome =>
        obtain ⟨rfl, rfl⟩ := Leads.of_done hlead
        exact ⟨.idle, ⟨[], .nil, rfl⟩, .idle hopen⟩
    | ok tickers =>
        obtain ⟨htickers, -, -⟩ := hopen.of_openTick
        have hnodup : tickers.Nodup := htickers ▸ f.index.pairwise_tickers.imp ne_of_lt
        rcases hlead.of_bind with ⟨outcomes, w, hdrained, hclose⟩ | ⟨e, hdrained, -⟩
        · obtain ⟨results, trace, houtcomes, hfan, hserial⟩ :=
            Leads.passed (.refl tickers) hnodup (r := .ok outcomes) hdrained
          cases houtcomes
          refine ⟨⟨tickers, results, trace⟩, ⟨tickers, .refl _, hserial⟩, ?_⟩
          exact .fanned hopen hnodup (List.Subset.refl _) hfan hclose fun _ _ => .refl _
        · obtain ⟨_, _, hfailed, -⟩ := Leads.passed (.refl tickers) hnodup (r := .error e) hdrained
          cases hfailed
  · obtain ⟨_, hopened, -⟩ := openTick_makes.of_ended (r := .error e) hopen
    cases hopened

end Floor

/-! ### All ways to go agree -/

namespace Floor

variable {scale : Nat} {f g g' v w : Floor} {fan fan' : Fan}

/-- A tick that is completed has drained every ticker that was active when it began. -/
theorem Ticks.of_completed {report : TickReport}
    (h : f.Ticks scale fan (.ok (.completed report)) g) : ∃ v w,
      f.Leads openTick (.done (.ok f.index.tickers)) v ∧ fan.joined.Perm f.index.tickers ∧
        v.Fans (passes scale fan.joined) fan.trace (fun ticker => ended (fan.results ticker)) w ∧
          w.Leads (closeTick (fan.joined.map fan.results)) (.done (.completed report)) g := by
  cases h with
  | idle hopen =>
      obtain ⟨_, hopened, hcalls⟩ := openTick_makes.of_ended (r := .ok _) hopen
      cases hopened
      exact absurd rfl (hcalls.ne_completed report)
  | @fanned _ tickers v w _ _ hopen hnodup hactive hfan hclose hall =>
      obtain ⟨rfl, -, -⟩ := hopen.of_openTick
      have htickers : f.index.tickers.Nodup := f.index.pairwise_tickers.imp ne_of_lt
      refine ⟨v, w, hopen, (List.perm_ext_iff_of_nodup hnodup htickers).mpr fun ticker => ?_,
        hfan, hclose⟩
      exact ⟨fun hin => hactive hin, fun hin => hall _ rfl hin⟩

/-- What a tick comes to if no call of its passes is refused is what they come to by themselves. -/
theorem Ticks.alone {report : TickReport} (h : f.Ticks scale fan (.ok (.completed report)) g)
    (hgiven : ∀ x ∈ fan.trace, x.2.refused = false) (ticker : String) :
    (f.perform .epoch (passes scale f.index.tickers ticker)).1 = fan.results ticker ∧
      g.Like f.filing ticker (f.perform .epoch (passes scale f.index.tickers ticker)).2 := by
  obtain ⟨v, w, hopen, hperm, hfan, hclose⟩ := h.of_completed
  obtain ⟨-, hstore, hindex⟩ := hopen.of_openTick
  obtain ⟨hstore', hindex'⟩ := Leads.same_of_closeTick (r := .ok _) hclose
  have hpasses : passes scale fan.joined = passes scale f.index.tickers := by
    funext ticker
    unfold passes
    simp only [hperm.mem_iff]
  rw [hpasses] at hfan
  have hlike (other : String) := passes_like scale f.index.tickers f.filing other
  have hbegin : v.Like f.filing ticker f :=
    (Like.refl rfl ticker).of_same hstore hindex rfl rfl
  obtain ⟨hresult, hw⟩ := (hfan.abreast hgiven).alone rfl (fun other => ⟨_, hlike other⟩)
    (hlike ticker) hbegin
  exact ⟨hresult, hw.of_same hstore' hindex' rfl rfl⟩

/--
**However the passes take turns, a tick comes to the same**, if no call of theirs is
refused: the same pass for each ticker, and the same orders, executions and books.
-/
theorem Ticks.agrees {report report' : TickReport}
    (h : f.Ticks scale fan (.ok (.completed report)) g)
    (h' : f.Ticks scale fan' (.ok (.completed report')) g')
    (hgiven : ∀ x ∈ fan.trace, x.2.refused = false)
    (hgiven' : ∀ x ∈ fan'.trace, x.2.refused = false) :
    fan.joined.Perm fan'.joined ∧ fan.results = fan'.results ∧ g.Agrees g' := by
  obtain ⟨_, _, -, hperm, -⟩ := h.of_completed
  obtain ⟨_, _, -, hperm', -⟩ := h'.of_completed
  refine ⟨hperm.trans hperm'.symm, funext fun ticker => ?_, ?_⟩
  · exact (h.alone hgiven ticker).1.symm.trans (h'.alone hgiven' ticker).1
  · exact agrees_of_like (fun ticker => (h.alone hgiven ticker).2)
      fun ticker => (h'.alone hgiven' ticker).2

end Floor

end Bourse
