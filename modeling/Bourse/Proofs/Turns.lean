/-
A tick with a note of every turn.

What a tick reports are totals, and a pass that is given up reports nothing at all, so
which order's turn has failed cannot be told from it.  Here is the same tick once more,
with a note of what came of each turn and each listing, even of those in a pass that is
given up later.  `tick_attempt` says that it is the same: leave out the notes, and it makes the
same calls and ends the same way.

Held failures are what is in the way of seeing this, for a pass is attempted as a whole
while the notes outlive it.  So each part is compared in the form in which its outcome is
put aside, and `attempt_bind` takes such a part to pieces.
-/
import Bourse.Proofs.Run

namespace Bourse

/-! ### Notes -/

/-- The turn of one order and what came of it. -/
structure OrderTurn where
  order : OrderId
  outcome : Except Failure MatchReport

/-- What was done on one side of a ticker. -/
structure SidePass where
  side : Side
  /-- The orders that were listed. -/
  listing : Except Error (List OrderId)
  turns : List OrderTurn

/-- What was done on a ticker; with an error for an outcome, its pass was given up. -/
structure TickerPass where
  ticker : String
  sides : List SidePass
  outcome : Except Failure TickReport

/-- The turns of all passes. -/
def TickerPass.turns (p : TickerPass) : List OrderTurn := p.sides.flatMap (·.turns)

/-! ### The tick with notes -/

/-- Gives each listed order its turn; a turn or a total that overflows ends the pass. -/
def noteOrders (scale : Nat) (ticker : String) :
    List OrderId → TickReport → Action (List OrderTurn × Except Failure TickReport)
  | [], r => return ([], .ok r)
  | id :: ids, r => do
    Action.count .processed
    let r := { r with ordersProcessed := r.ordersProcessed + 1 }
    match ← (processOrder scale id ticker).attempt with
    | .ok report =>
      match report.executedAmount.bind r.executedAmount.add with
      | some amount =>
        let (turns, outcome) ← noteOrders scale ticker ids
          { r with fills := r.fills + report.fills.length, executedAmount := amount }
        return (⟨id, .ok report⟩ :: turns, outcome)
      | none => return ([⟨id, .ok report⟩], .error (.overflow .addition))
    | .error (.error e) =>
      Action.count .failed
      let (turns, outcome) ← noteOrders scale ticker ids
        { r with ordersFailed := r.ordersFailed + 1 }
      return (⟨id, .error (.error e)⟩ :: turns, outcome)
    | .error (.overflow o) => return ([⟨id, .error (.overflow o)⟩], .error (.overflow o))

/-- Lists a side and gives those that wait there their turns; a failed listing is noted, too. -/
def noteSide (scale : Nat) (ticker : String) (side : Side) (r : TickReport) :
    Action (SidePass × Except Failure TickReport) := do
  match ← Action.call (.index (.list side ticker)) .done with
  | .ok ids =>
    let (turns, outcome) ← noteOrders scale ticker ids r
    return (⟨side, .ok ids, turns⟩, outcome)
  | .error e => return (⟨side, .error e, []⟩, .ok { r with tickersFailed := 1 })

/-- The pass over one ticker, first the buy orders and then the sell orders. -/
def noteTicker (scale : Nat) (ticker : String) : Action TickerPass := do
  let (buys, outcome) ← noteSide scale ticker .buy { TickReport.zero with tickers := 1 }
  match outcome with
  | .ok r =>
    let (sells, outcome) ← noteSide scale ticker .sell r
    return ⟨ticker, [buys, sells], outcome⟩
  | .error f => return ⟨ticker, [buys], .error f⟩

/-- The passes over some tickers, one after the other, whatever becomes of each. -/
def noteTickers (scale : Nat) : List String → Action (List TickerPass)
  | [] => return []
  | ticker :: tickers => do
    let pass ← noteTicker scale ticker
    let passes ← noteTickers scale tickers
    return pass :: passes

/-- The totals of all passes, if there is room for them. -/
def TickerPass.total (passes : List TickerPass) : Option TickReport :=
  (passes.map (·.outcome)).foldlM TickReport.withPass .zero

/-- The passes over all active tickers, and their totals. -/
def notePass (scale : Nat) : Action (List TickerPass × Except Failure TickOutcome) := do
  match ← Action.call (.index .tickers) .done with
  | .error _ =>
    Action.count .ticksIndexUnavailable
    return ([], .ok .indexUnavailable)
  | .ok tickers =>
    let passes ← noteTickers scale tickers
    match TickerPass.total passes with
    | some report =>
      Action.count .ticksRun
      return (passes, .ok (.completed report))
    | none => return (passes, .error (.overflow .addition))

/-- One matching pass, with a note of every turn. -/
def noteTick (scale : Nat) : Action (List TickerPass × Except Failure TickOutcome) := do
  let time ← Action.now
  if !(← Action.call (.marketOpen time) .done) then
    Action.count .ticksMarketClosed
    return ([], .ok .marketClosed)
  else if !(← Action.call .beginTick .done) then
    Action.count .ticksOverlapped
    return ([], .ok .overlapped)
  else
    let (passes, outcome) ← notePass scale
    Action.call .endTick .done
    return (passes, outcome)

/-! ### Leaving out the notes -/

namespace Action

variable {α β γ : Type}

theorem attempt_bind (work : Action α) (next : α → Action β) :
    (work >>= next).attempt = work.attempt >>= fun
      | .ok a => (next a).attempt
      | .error e => done (.error e) := by
  induction work with
  | done a => rfl
  | fail e => rfl
  | call c rest ih => exact congrArg (call c) (funext ih)

/-- What is attempted once does not fail when it is attempted again. -/
theorem attempt_attempt_bind (work : Action α) (next : Except Failure α → Action β) :
    (work.attempt >>= next).attempt = work.attempt >>= fun r => (next r).attempt := by
  induction work with
  | done a => rfl
  | fail e => rfl
  | call c rest ih => exact congrArg (call c) (funext ih)

theorem attemptError_bind (work : Action α) (next : Except Error α → Action β) :
    work.attemptError >>= next = work.attempt >>= fun
      | .ok a => next (.ok a)
      | .error (.error e) => next (.error e)
      | .error (.overflow o) => fail (.overflow o) := by
  induction work with
  | done a => rfl
  | fail e => cases e <;> rfl
  | call c rest ih => exact congrArg (call c) (funext ih)

theorem attemptError_index (c : IndexCall) : (index c).attemptError = call (.index c) done := by
  refine congrArg (call (.index c)) (funext fun a => ?_)
  cases a <;> rfl

end Action

open Bourse.Action

variable (scale : Nat)

theorem drainOrders_attempt (ticker : String) (ids : List OrderId) (r : TickReport) :
    (drainOrders scale ticker ids r).attempt =
      noteOrders scale ticker ids r >>= fun n => done n.2 := by
  induction ids generalizing r with
  | nil => rfl
  | cons id ids ih =>
      unfold drainOrders noteOrders
      simp only [count, call_bind, done_bind, attemptError_bind]
      refine congrArg (call _) (funext fun _ => ?_)
      rw [Action.bind_assoc, attempt_attempt_bind]
      refine congrArg (_ >>= ·) (funext fun turn => ?_)
      match turn with
      | .ok report =>
          dsimp only
          cases hfilled : report.executedAmount with
          | none => rfl
          | some filled =>
              simp only [total, done_bind, Option.bind_some]
              cases hamount : r.executedAmount.add filled with
              | none => rfl
              | some amount =>
                  dsimp only [done_bind]
                  rw [ih, Action.bind_assoc]
                  rfl
      | .error (.error e) =>
          refine congrArg (call _) (funext fun _ => ?_)
          show (drainOrders scale ticker ids _).attempt =
            (noteOrders scale ticker ids _ >>= _) >>= _
          rw [ih, Action.bind_assoc]
          rfl
      | .error (.overflow o) => rfl

theorem drainSide_attempt (ticker : String) (side : Side) (r : TickReport) :
    (drainSide scale ticker side r).attempt =
      noteSide scale ticker side r >>= fun n => done n.2 := by
  unfold drainSide noteSide
  rw [attemptError_index]
  refine congrArg (call _) (funext fun ids => ?_)
  cases ids with
  | ok ids =>
      show (drainOrders scale ticker ids r).attempt = (noteOrders scale ticker ids r >>= _) >>= _
      rw [drainOrders_attempt, Action.bind_assoc]
      rfl
  | error e => rfl

theorem drainTicker_attempt (ticker : String) :
    (drainTicker scale ticker).attempt = noteTicker scale ticker >>= fun n => done n.outcome := by
  unfold drainTicker noteTicker
  rw [attempt_bind, drainSide_attempt, Action.bind_assoc, Action.bind_assoc]
  refine congrArg (_ >>= ·) (funext fun buys => ?_)
  obtain ⟨buys, r | r⟩ := buys
  · rfl
  · show (drainSide scale ticker .sell r).attempt = (noteSide scale ticker .sell r >>= _) >>= _
    rw [drainSide_attempt, Action.bind_assoc]
    rfl

theorem drainTickers_bind {β : Type} (tickers : List String)
    (next : List (Except Failure TickReport) → Action β) :
    (drainTickers scale tickers >>= next).attempt =
      noteTickers scale tickers >>= fun n => (next (n.map (·.outcome))).attempt := by
  induction tickers generalizing next with
  | nil => rfl
  | cons ticker tickers ih =>
      unfold drainTickers noteTickers
      rw [Action.bind_assoc, attempt_attempt_bind, drainTicker_attempt, Action.bind_assoc,
        Action.bind_assoc]
      refine congrArg (_ >>= ·) (funext fun pass => ?_)
      rw [done_bind, Action.bind_assoc, Action.bind_assoc]
      exact ih fun rs => next (pass.outcome :: rs)

theorem tickPass_attempt :
    (tickPass scale).attempt = notePass scale >>= fun n => done n.2 := by
  unfold tickPass notePass
  rw [attemptError_index]
  refine congrArg (call _) (funext fun tickers => ?_)
  cases tickers with
  | error e => rfl
  | ok tickers =>
      show (drainTickers scale tickers >>= _).attempt = (noteTickers scale tickers >>= _) >>= _
      rw [drainTickers_bind, Action.bind_assoc]
      refine congrArg (_ >>= ·) (funext fun passes => ?_)
      show (total .addition (TickerPass.total passes) >>= _).attempt = _
      cases TickerPass.total passes <;> rfl

/-- **The tick is the one with the notes, less the notes.** -/
theorem tick_attempt : (tick scale).attempt = noteTick scale >>= fun n => done n.2 := by
  unfold tick noteTick
  refine congrArg (call _) (funext fun time => congrArg (call _) (funext fun isOpen => ?_))
  cases isOpen with
  | false => rfl
  | true =>
      refine congrArg (call _) (funext fun begun => ?_)
      cases begun with
      | false => rfl
      | true =>
          show ((tickPass scale).attempt >>= _).attempt = (notePass scale >>= _) >>= _
          rw [attempt_attempt_bind, tickPass_attempt, Action.bind_assoc, Action.bind_assoc]
          refine congrArg (_ >>= ·) (funext fun n => ?_)
          obtain ⟨passes, outcome | outcome⟩ := n <;> rfl

/-- Every tick that has ended can be told with the notes of its turns, however it has. -/
theorem Floor.Leads.noted {f g : Floor} {r : Except Failure TickOutcome}
    (hlead : f.Leads (tick scale) (.ended r) g) :
    ∃ passes, f.Leads (noteTick scale) (.done (passes, r)) g := by
  have hattempt := hlead.attempt
  rw [tick_attempt] at hattempt
  obtain ⟨⟨passes, outcome⟩, w, hnoted, hend⟩ := hattempt.of_bind_done
  cases hend
  exact ⟨passes, hnoted⟩

/-! ### What the totals tell -/

namespace Action

variable {α β : Type}

/-- However its calls are answered, if the work is done, `goal` holds of its result. -/
def Returns (goal : α → Prop) : Action α → Prop
  | done a => goal a
  | fail _ => True
  | call _ rest => ∀ a, (rest a).Returns goal

theorem Returns.mono {goal goal' : α → Prop} {work : Action α} (h : work.Returns goal)
    (himp : ∀ a, goal a → goal' a) : work.Returns goal' := by
  induction work with
  | done a => exact himp a h
  | fail e => trivial
  | call c rest ih => exact fun a => ih a (h a)

theorem Returns.bind {middle : α → Prop} {goal : β → Prop} {work : Action α}
    {next : α → Action β} (h : work.Returns middle)
    (hnext : ∀ a, middle a → (next a).Returns goal) : (work >>= next).Returns goal := by
  induction work with
  | done a => exact hnext a h
  | fail e => trivial
  | call c rest ih => exact fun a => ih a (h a)

theorem returns_any (work : Action α) : work.Returns fun _ => True := by
  induction work with
  | done a => trivial
  | fail e => trivial
  | call c rest ih => exact ih

theorem Returns.of_leads {goal : α → Prop} {work : Action α} {f g : Floor} {a : α}
    (h : work.Returns goal) (hlead : f.Leads work (.done a) g) : goal a := by
  induction work generalizing f with
  | done b =>
      cases hlead
      exact h
  | fail e => cases hlead
  | call c rest ih =>
      cases hlead with
      | call answer hmay hlead => exact ih answer (h answer) hlead

end Action

/-- The turn has ended well. -/
def OrderTurn.Fine (t : OrderTurn) : Prop := ∃ report, t.outcome = .ok report

/-- Every order that was listed has had its turn. -/
def SidePass.Whole (s : SidePass) : Prop :=
  ∀ ids, s.listing = .ok ids → s.turns.map (·.order) = ids

/-- The side was listed, and every turn on it has ended well. -/
structure SidePass.Clean (s : SidePass) : Prop where
  listed : ∃ ids, s.listing = .ok ids
  fine : ∀ t ∈ s.turns, t.Fine

/-- How the totals after a side, `r'`, tell of what was done on it. -/
structure SidePass.Tells (s : SidePass) (r r' : TickReport) : Prop where
  whole : s.Whole
  ordersFailed : r'.ordersFailed = 0 → r.ordersFailed = 0 ∧ ∀ t ∈ s.turns, t.Fine
  tickersFailed : r'.tickersFailed = 0 → r.tickersFailed = 0 ∧ ∃ ids, s.listing = .ok ids

/-- How a ticker's outcome tells of what was done on it. -/
structure TickerPass.Tells (p : TickerPass) (r : TickReport) : Prop where
  sides : p.sides.map (·.side) = [.buy, .sell]
  whole : ∀ s ∈ p.sides, s.Whole
  clean : r.ordersFailed = 0 → r.tickersFailed = 0 → ∀ s ∈ p.sides, s.Clean

/-- The passes that a tick's report adds up; with no failure in it, none of them has one. -/
structure TickReport.ToldBy (report : TickReport) (passes : List TickerPass) : Prop where
  tells : ∀ p ∈ passes, ∀ r, p.outcome = .ok r → p.Tells r
  clean : report.ordersFailed = 0 → report.tickersFailed = 0 →
    ∀ p ∈ passes, (∃ r, p.outcome = .ok r) ∧ ∀ s ∈ p.sides, s.Clean

theorem noteOrders_returns (ticker : String) (ids : List OrderId) (r : TickReport) :
    (noteOrders scale ticker ids r).Returns fun n => ∀ r', n.2 = .ok r' →
      n.1.map (·.order) = ids ∧ r'.tickersFailed = r.tickersFailed ∧
        (r'.ordersFailed = 0 → r.ordersFailed = 0 ∧ ∀ t ∈ n.1, t.Fine) := by
  induction ids generalizing r with
  | nil =>
      intro r' h
      cases h
      exact ⟨rfl, rfl, fun h => ⟨h, List.forall_mem_nil _⟩⟩
  | cons id ids ih =>
      unfold noteOrders
      intro _
      show ((processOrder scale id ticker).attempt >>= _).Returns _
      refine (returns_any _).bind fun turn _ => ?_
      match turn with
      | .ok report =>
          dsimp only
          split
          · refine (ih _).bind fun n hn r' h => ?_
            obtain ⟨hids, htickers, horders⟩ := hn r' h
            refine ⟨congrArg (id :: ·) hids, htickers, fun hzero => ?_⟩
            obtain ⟨hzero, hfine⟩ := horders hzero
            exact ⟨hzero, List.forall_mem_cons.mpr ⟨⟨report, rfl⟩, hfine⟩⟩
          · exact fun r' h => nomatch h
      | .error (.error e) =>
          intro _
          show (noteOrders scale ticker ids _ >>= _).Returns _
          refine (ih _).bind fun n hn r' h => ?_
          obtain ⟨hids, htickers, horders⟩ := hn r' h
          exact ⟨congrArg (id :: ·) hids, htickers, fun hzero => nomatch (horders hzero).1⟩
      | .error (.overflow o) => exact fun r' h => nomatch h

theorem noteSide_returns (ticker : String) (side : Side) (r : TickReport) :
    (noteSide scale ticker side r).Returns fun n =>
      n.1.side = side ∧ ∀ r', n.2 = .ok r' → n.1.Tells r r' := by
  unfold noteSide
  intro ids
  cases ids with
  | error e =>
      refine ⟨rfl, fun r' h => ?_⟩
      cases h
      exact ⟨fun _ h => (nomatch h), fun h => ⟨h, List.forall_mem_nil _⟩, fun h => (nomatch h)⟩
  | ok ids =>
      refine (noteOrders_returns scale ticker ids r).bind fun n hn => ⟨rfl, fun r' h => ?_⟩
      obtain ⟨hids, htickers, horders⟩ := hn r' h
      refine ⟨fun ids' h => ?_, horders, fun hzero => ⟨htickers ▸ hzero, ids, rfl⟩⟩
      cases h
      exact hids

theorem noteTicker_returns (ticker : String) :
    (noteTicker scale ticker).Returns fun p => ∀ r, p.outcome = .ok r → p.Tells r := by
  unfold noteTicker
  refine (noteSide_returns scale ticker .buy _).bind ?_
  rintro ⟨buys, r | r⟩ ⟨hbuy, hbuys⟩
  · exact fun r h => nomatch h
  · refine (noteSide_returns scale ticker .sell r).bind ?_
    rintro ⟨sells, outcome⟩ ⟨hsell, hsells⟩ r' h
    have hbuys := hbuys r rfl
    have hsells := hsells r' h
    refine ⟨by rw [List.map_cons, List.map_cons, hbuy, hsell, List.map_nil], ?_,
      fun horders htickers => ?_⟩
    · exact List.forall_mem_cons.mpr ⟨hbuys.whole, List.forall_mem_singleton.mpr hsells.whole⟩
    · obtain ⟨horders, hfine⟩ := hsells.ordersFailed horders
      obtain ⟨htickers, hlisted⟩ := hsells.tickersFailed htickers
      have hclean : buys.Clean :=
        ⟨(hbuys.tickersFailed htickers).2, (hbuys.ordersFailed horders).2⟩
      exact List.forall_mem_cons.mpr
        ⟨hclean, List.forall_mem_singleton.mpr ⟨hlisted, hfine⟩⟩

/-- If no ticker has failed in all, none has in any part, and so for the orders. -/
theorem TickReport.withPass_zero {outcomes : List (Except Failure TickReport)}
    {r report : TickReport} (h : outcomes.foldlM withPass r = some report)
    (htickers : report.tickersFailed = 0) :
    (r.tickersFailed = 0 ∧ (report.ordersFailed = 0 → r.ordersFailed = 0)) ∧
      ∀ o ∈ outcomes, ∃ p, o = .ok p ∧ p.tickersFailed = 0 ∧
        (report.ordersFailed = 0 → p.ordersFailed = 0) := by
  induction outcomes generalizing r with
  | nil =>
      cases h
      exact ⟨⟨htickers, id⟩, List.forall_mem_nil _⟩
  | cons o outcomes ih =>
      rw [List.foldlM_cons] at h
      obtain ⟨r', hr', h⟩ := Option.bind_eq_some_iff.mp h
      obtain ⟨⟨htickers', horders'⟩, hrest⟩ := ih h
      cases o with
      | error e =>
          cases hr'
          cases htickers'
      | ok p =>
          obtain ⟨amount, -, hr'⟩ := Option.map_eq_some_iff.mp hr'
          subst hr'
          obtain ⟨hr, hp⟩ := Nat.add_eq_zero_iff.mp htickers'
          have horders (hzero : report.ordersFailed = 0) :
              r.ordersFailed = 0 ∧ p.ordersFailed = 0 := Nat.add_eq_zero_iff.mp (horders' hzero)
          exact ⟨⟨hr, fun hzero => (horders hzero).1⟩,
            List.forall_mem_cons.mpr ⟨⟨p, rfl, hp, fun hzero => (horders hzero).2⟩, hrest⟩⟩

theorem noteTickers_returns (tickers : List String) :
    (noteTickers scale tickers).Returns fun passes =>
      ∀ p ∈ passes, ∀ r, p.outcome = .ok r → p.Tells r := by
  induction tickers with
  | nil => exact List.forall_mem_nil _
  | cons ticker tickers ih =>
      exact (noteTicker_returns scale ticker).bind fun p hp => ih.bind fun passes hpasses =>
        List.forall_mem_cons.mpr ⟨hp, hpasses⟩

/-- How the notes of a tick tell of its passes, whatever has come of the tick. -/
structure TickOutcome.ToldBy (outcome : Except Failure TickOutcome) (passes : List TickerPass) :
    Prop where
  tells : ∀ p ∈ passes, ∀ r, p.outcome = .ok r → p.Tells r
  completed : ∀ report, outcome = .ok (.completed report) → report.ToldBy passes

theorem notePass_told : (notePass scale).Returns fun n => TickOutcome.ToldBy n.2 n.1 := by
  unfold notePass
  intro tickers
  cases tickers with
  | error e => exact fun _ => ⟨List.forall_mem_nil _, nofun⟩
  | ok tickers =>
      show (noteTickers scale tickers >>= _).Returns _
      refine (noteTickers_returns scale tickers).bind fun passes hpasses => ?_
      cases htotal : TickerPass.total passes with
      | none => exact ⟨hpasses, nofun⟩
      | some total =>
          refine fun _ => ⟨hpasses, fun report h => ?_⟩
          cases h
          refine ⟨hpasses, fun horders htickers p hp => ?_⟩
          obtain ⟨r, hr, htickers, horders'⟩ :=
            (TickReport.withPass_zero htotal htickers).2 p.outcome (List.mem_map_of_mem hp)
          exact ⟨⟨r, hr⟩, (hpasses p hp r hr).clean (horders' horders) htickers⟩

theorem noteTick_told : (noteTick scale).Returns fun n => TickOutcome.ToldBy n.2 n.1 := by
  unfold noteTick
  intro time isOpen
  cases isOpen with
  | false => exact fun _ => ⟨List.forall_mem_nil _, nofun⟩
  | true =>
      intro begun
      cases begun with
      | false => exact fun _ => ⟨List.forall_mem_nil _, nofun⟩
      | true => exact (notePass_told scale).bind fun n hn _ => hn

/-- **A tick that tells of no failure has had none.** -/
theorem noteTick_returns : (noteTick scale).Returns fun n => ∀ report,
    n.2 = .ok (.completed report) → report.ToldBy n.1 :=
  (noteTick_told scale).mono fun _ h => h.completed

end Bourse
