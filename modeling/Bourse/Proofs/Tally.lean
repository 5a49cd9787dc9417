/-
What the calls of a tick tell of its turns.

A fill shows twice among the calls: once where it is committed and once where it is
counted.  `Makes` follows work with nothing but its own calls in view, so what is told of
one turn can be put behind what is told of another, and `Yields` is the same for work
that does not fail.  `Posts` says of some calls which fills they have committed, and that
each of them was counted.

A turn that fails tells nothing of the fills that it has committed before, and a pass that
is given up nothing of its turns.  So the notes of a tick are read once more with the
fills of every turn beside them: a `Round` is a turn with its fills, and a `Visit` a pass
with its rounds.  What the tick reports is then a matter of sums, and `withTurn` and
`withSide` are the steps of these.
-/
import Bourse.Proofs.Cut
import Bourse.Proofs.Turns

namespace Bourse

/-! ### What calls have committed and counted -/

namespace Answered

/-- The amount of the fill that the call counts. -/
def counted? : Answered → Option Decimal
  | ⟨.recordFill amount _, _⟩ => some amount
  | _ => none

/-- Is it a call that went as it goes when nothing fails and nothing is in the way of a tick? -/
def granted : Answered → Bool
  | ⟨.store _, .error _⟩ | ⟨.index _, .error _⟩ => false
  | ⟨.marketOpen _, isOpen⟩ => isOpen
  | ⟨.beginTick, begun⟩ => begun
  | _ => true

end Answered

/-- The calls have committed these fills and no others, and counted each of them. -/
structure Posts (calls : List Answered) (fills : List FillCommit) : Prop where
  committed : calls.filterMap (·.fill?) = fills
  counted : calls.filterMap (·.counted?) = fills.map (·.amount)

namespace Posts

variable {calls later : List Answered} {fills more : List FillCommit}

theorem nil : Posts [] [] := ⟨rfl, rfl⟩

theorem append (h : Posts calls fills) (h' : Posts later more) :
    Posts (calls ++ later) (fills ++ more) := by
  refine ⟨?_, ?_⟩
  · rw [List.filterMap_append, h.committed, h'.committed]
  · rw [List.filterMap_append, h.counted, h'.counted, List.map_append]

theorem cons {x : Answered} (h : Posts calls fills) (hfill : x.fill? = none)
    (hcounted : x.counted? = none) : Posts (x :: calls) fills := by
  refine ⟨?_, ?_⟩
  · rw [List.filterMap_cons_none hfill, h.committed]
  · rw [List.filterMap_cons_none hcounted, h.counted]

/-- A fill is counted as soon as it is committed. -/
theorem fill (h : Posts calls fills) (fill : FillCommit) (receipt : FillReceipt) :
    Posts (⟨.store (.commit fill), .ok (.committed receipt)⟩ ::
      ⟨.recordFill fill.amount fill.completed, ()⟩ :: calls) (fill :: fills) := by
  refine ⟨?_, ?_⟩
  · exact congrArg (fill :: ·) h.committed
  · exact congrArg (fill.amount :: ·) h.counted

/-- What is done before and after some calls fills nothing: the calls have committed it all. -/
theorem around {before after : List Answered} (hbefore : Posts before []) (hafter : Posts after [])
    (calls : List Answered) :
    (before ++ calls ++ after).filterMap (·.fill?) = calls.filterMap (·.fill?) ∧
      (before ++ calls ++ after).filterMap (·.counted?) = calls.filterMap (·.counted?) := by
  have hcommitted := hbefore.committed
  have hcounted := hbefore.counted
  simp [List.filterMap_append, hcommitted, hcounted, hafter.committed, hafter.counted]

end Posts

/-! ### The calls of work -/

namespace Action

variable {α β : Type} {f g : Floor}

/-- However its calls are answered, the work ends in `goal` with the calls it has made. -/
def Makes (goal : Except Failure α → List Answered → Prop) : Action α → Prop
  | done a => goal (.ok a) []
  | fail e => goal (.error e) []
  | call c rest => ∀ a, (rest a).Makes fun r calls => goal r (⟨c, a⟩ :: calls)

theorem Makes.mono {goal goal' : Except Failure α → List Answered → Prop} {work : Action α}
    (h : work.Makes goal) (himp : ∀ r calls, goal r calls → goal' r calls) :
    work.Makes goal' := by
  induction work generalizing goal goal' with
  | done a => exact himp _ _ h
  | fail e => exact himp _ _ h
  | call c rest ih => exact fun a => ih a (h a) fun r calls => himp r (⟨c, a⟩ :: calls)

/-- Work in two parts makes the calls of the first one and then those of the second. -/
theorem Makes.bind {middle : Except Failure α → List Answered → Prop}
    {goal : Except Failure β → List Answered → Prop} {work : Action α} {next : α → Action β}
    (h : work.Makes middle)
    (hnext : ∀ a calls, middle (.ok a) calls →
      (next a).Makes fun r later => goal r (calls ++ later))
    (hfail : ∀ e calls, middle (.error e) calls → goal (.error e) calls) :
    (work >>= next).Makes goal := by
  induction work generalizing middle goal with
  | done a => exact hnext a [] h
  | fail e => exact hfail e [] h
  | call c rest ih =>
      intro a
      exact ih a (h a) (fun b calls => hnext b (⟨c, a⟩ :: calls))
        fun e calls => hfail e (⟨c, a⟩ :: calls)

/-- However its calls are answered, the work does not fail, and is done in `goal`. -/
def Yields (goal : α → List Answered → Prop) (work : Action α) : Prop :=
  work.Makes fun r calls => ∃ a, r = .ok a ∧ goal a calls

/-- What comes after work that does not fail can be told from there on. -/
theorem Yields.bind {middle : α → List Answered → Prop}
    {goal : Except Failure β → List Answered → Prop} {work : Action α} {next : α → Action β}
    (h : work.Yields middle)
    (hnext : ∀ a calls, middle a calls → (next a).Makes fun r later => goal r (calls ++ later)) :
    (work >>= next).Makes goal := by
  refine Makes.bind h (fun a calls hmiddle => ?_) fun e calls hmiddle => ?_
  · obtain ⟨b, hb, hmiddle⟩ := hmiddle
    cases hb
    exact hnext a calls hmiddle
  · obtain ⟨b, hb, -⟩ := hmiddle
    cases hb

theorem Makes.attempt {goal : Except Failure α → List Answered → Prop} {work : Action α}
    (h : work.Makes goal) : work.attempt.Yields goal := by
  induction work generalizing goal with
  | done a => exact ⟨_, rfl, h⟩
  | fail e => exact ⟨_, rfl, h⟩
  | call c rest ih => exact fun a => ih a (h a)

/-- **What work makes of its calls is so of every run.** -/
theorem Makes.of_ended {goal : Except Failure α → List Answered → Prop} {work : Action α}
    {r : Except Failure α} (h : work.Makes goal) (hlead : f.Leads work (.ended r) g) :
    goal r (f.since g) := by
  induction work generalizing f goal with
  | done a =>
      obtain ⟨rfl, rfl⟩ := hlead.of_done
      rw [Floor.since_self]
      exact h
  | fail e =>
      obtain ⟨rfl, rfl⟩ := hlead.of_fail
      rw [Floor.since_self]
      exact h
  | call c rest ih =>
      obtain ⟨a, -, hlead⟩ := hlead.of_call
      rw [hlead.since_call]
      exact ih a (h a) hlead

end Action

open Bourse.Action

/-! ### A turn -/

/-- How what has come of some work tells of the fills that it has committed. -/
structure Settles {α : Type} (events : α → List FillEvent) (outcome : Except Failure α)
    (fills : List FillCommit) : Prop where
  told : ∀ a, outcome = .ok a → events a = fills.map FillCommit.event
  room : ∀ o, outcome ≠ .error (.overflow o)

namespace Settles

variable {α β : Type} {events : α → List FillEvent} {fills : List FillCommit}

theorem done {a : α} (h : events a = fills.map FillCommit.event) :
    Settles events (.ok a) fills := by
  refine ⟨fun b hb => ?_, fun o ho => ?_⟩
  · cases hb
    exact h
  · cases ho

theorem failed (events : α → List FillEvent) (e : Error) (fills : List FillCommit) :
    Settles events (.error (.error e)) fills := by
  refine ⟨fun a ha => ?_, fun o ho => ?_⟩
  · cases ha
  · cases ho

/-- What has failed has failed, however much was filled before. -/
theorem of_error {e : Failure} (h : Settles events (.error e) fills)
    (events' : β → List FillEvent) (more : List FillCommit) :
    Settles events' (.error e) more := by
  cases e with
  | error e => exact failed events' e more
  | overflow o => exact absurd rfl (h.room o)

end Settles

/-- The work has committed these fills, and tells of them if it is done. -/
def Action.Fills {α : Type} (events : α → List FillEvent) (work : Action α) : Prop :=
  work.Makes fun r calls => ∃ fills, Posts calls fills ∧ Settles events r fills

/-- Work that only looks around fills nothing. -/
theorem Action.Strict.fills {α : Type} {work : Action α} (h : work.Strict) :
    work.Fills fun _ => [] := by
  -- Nothing is told by the one call that has failed.
  have hfail {x : Answered} {e : Error} (hfill : x.fill? = none) (hcounted : x.counted? = none) :
      (fail (.error e) : Action α).Makes fun r calls => ∃ fills, Posts (x :: calls) fills ∧
        Settles (fun _ => []) r fills :=
    ⟨[], .cons .nil hfill hcounted, .failed _ e _⟩
  induction work with
  | done a => exact ⟨[], .nil, .done rfl⟩
  | fail e => cases h
  | call c rest ih =>
      intro a
      cases c with
      | store c =>
          obtain ⟨hquiet, hrefused, hrest⟩ := h
          have hother : Answered.fill? ⟨.store c, a⟩ = none := by
            cases c with
            | insert | commit | cancel => cases hquiet
            | load | loadMany | executions | live => rfl
          cases a with
          | error e =>
              rw [hrefused]
              exact hfail hother rfl
          | ok a =>
              refine (ih _ (hrest a)).mono fun r calls hcalls => ?_
              exact hcalls.imp fun fills h => ⟨h.1.cons hother rfl, h.2⟩
      | index c =>
          obtain ⟨hrefused, hrest⟩ := h
          cases a with
          | error e =>
              rw [hrefused]
              exact hfail rfl rfl
          | ok a =>
              refine (ih _ (hrest a)).mono fun r calls hcalls => ?_
              exact hcalls.imp fun fills h => ⟨h.1.cons rfl rfl, h.2⟩
      | _ => cases h

theorem Order.dropFilled_makes (o : Order) (ticker : String) :
    (o.dropFilled ticker).Yields fun _ calls => Posts calls [] := by
  unfold Order.dropFilled
  split
  · intro a
    cases a <;> exact ⟨(), rfl, .cons .nil rfl rfl⟩
  · exact ⟨(), rfl, .nil⟩

/-- The first thing that is done once a fill is committed is to count it. -/
theorem FillCommit.settle_makes (fill : FillCommit) (ticker : String) :
    (fill.settle ticker).Yields fun _ calls => ∃ rest, Posts rest [] ∧
      calls = ⟨.recordFill fill.amount fill.completed, ()⟩ :: rest := by
  intro _
  refine (fill.counter.dropFilled_makes ticker).bind fun _ calls hcalls told => ?_
  exact ⟨(), rfl, _, hcalls.append (.cons .nil rfl rfl), rfl⟩

variable (scale : Nat)

theorem walk_makes (ticker : String) (counters : List Order) (o : Order) :
    (walk scale ticker counters o).Fills (·.2.1) := by
  have hend (o : Order) : (Action.done (o, ([] : List FillEvent), ([] : List Execution))).Fills
      (·.2.1) := ⟨[], .nil, .done rfl⟩
  induction counters generalizing o with
  | nil => exact hend o
  | cons c cs ih =>
      unfold walk
      split
      · exact hend o
      · intro time
        show (ofExcept (o.fillWith c scale time) >>= _).Makes _
        cases o.fillWith c scale time with
        | error e => exact ⟨[], .cons .nil rfl rfl, .failed _ e _⟩
        | ok fill =>
            intro answer
            -- Reading the clock and a commit that does not go through fill nothing.
            have hother {calls : List Answered} {fills : List FillCommit}
                (hfill : Answered.fill? ⟨.store (.commit fill), answer⟩ = none)
                (h : Posts calls fills) : Posts
                  (⟨.now, time⟩ :: ⟨.store (.commit fill), answer⟩ :: calls) fills :=
              (h.cons hfill rfl).cons rfl rfl
            cases answer with
            | error e => exact ⟨[], hother rfl .nil, .failed _ e _⟩
            | ok outcome =>
                cases outcome with
                | committed receipt =>
                    show (fill.settle ticker >>= _).Makes _
                    refine (fill.settle_makes ticker).bind fun _ calls hcalls => ?_
                    obtain ⟨rest, hrest, rfl⟩ := hcalls
                    refine (ih fill.incoming).bind (fun a later hlater => ?_)
                      fun e later hlater => ?_
                    · obtain ⟨fills, hlater, hsettles⟩ := hlater
                      refine ⟨fill :: fills, ?_, .done ?_⟩
                      · rw [List.append_nil]
                        exact ((hrest.append hlater).fill fill receipt).cons rfl rfl
                      · exact congrArg (fill.event :: ·) (hsettles.told a rfl)
                    · obtain ⟨fills, hlater, hsettles⟩ := hlater
                      refine ⟨fill :: fills, ?_, hsettles.of_error _ _⟩
                      exact ((hrest.append hlater).fill fill receipt).cons rfl rfl
                | counterUnavailable =>
                    refine (ih o).mono fun r calls hcalls => ?_
                    exact hcalls.imp fun fills h => ⟨hother rfl h.1, h.2⟩
                | incomingUnavailable =>
                    refine (hend o).mono fun r calls hcalls => ?_
                    exact hcalls.imp fun fills h => ⟨hother rfl h.1, h.2⟩

/-- **A turn that ends well tells of every fill**, and no turn overflows. -/
theorem processOrder_makes (id : OrderId) (ticker : String) :
    (processOrder scale id ticker).Fills MatchReport.fills := by
  have hidle {report : MatchReport} (hfills : report.fills = []) :
      (Action.done report).Fills MatchReport.fills := ⟨[], .nil, .done hfills⟩
  -- What comes before the walk fills nothing, and its failure is the turn's.
  have hfirst {α : Type} {work : Action α} (hwork : work.Strict) {next : α → Action MatchReport}
      (hnext : ∀ a, (next a).Fills MatchReport.fills) :
      (work >>= next).Fills MatchReport.fills := by
    refine hwork.fills.bind (fun a calls hcalls => ?_) fun e calls hcalls => ?_
    · obtain ⟨fills, hcalls, hsettles⟩ := hcalls
      obtain rfl := List.map_eq_nil_iff.mp (hsettles.told a rfl).symm
      refine (hnext a).mono fun r later hlater => ?_
      exact hlater.imp fun more h => ⟨hcalls.append h.1, h.2⟩
    · obtain ⟨fills, hcalls, hsettles⟩ := hcalls
      exact ⟨fills, hcalls, hsettles.of_error _ _⟩
  unfold processOrder
  refine hfirst (strict_store rfl) fun found => ?_
  cases found with
  | none => exact hidle rfl
  | some o =>
      dsimp only
      split
      · exact ⟨[], .nil, .failed _ _ _⟩
      · split
        · exact hfirst (strict_index _) fun _ => hidle rfl
        · refine hfirst o.strict_candidates fun a => ?_
          refine (walk_makes scale ticker a.1 o).bind (fun b calls hcalls => ?_)
            fun e calls hcalls => ?_
          · obtain ⟨fills, hcalls, hsettles⟩ := hcalls
            refine (b.1.dropFilled_makes ticker).bind fun _ later hlater => ?_
            refine ⟨fills, ?_, .done (hsettles.told b rfl)⟩
            simpa using hcalls.append hlater
          · obtain ⟨fills, hcalls, hsettles⟩ := hcalls
            exact ⟨fills, hcalls, hsettles.of_error _ _⟩

/-! ### The totals of a tick, step by step -/

/-- A total, unless there is no room for it. -/
def totalled {α : Type} : Option α → Except Failure α
  | some a => .ok a
  | none => .error (.overflow .addition)

theorem eq_some_of_totalled {α : Type} {a : Option α} {b : α} (h : totalled a = .ok b) :
    a = some b := by
  cases a with
  | none => cases h
  | some a => exact congrArg some (Except.ok.inj h)

namespace TickReport

/-- The totals with one more turn. -/
def withTurn (r : TickReport) (t : OrderTurn) : Option TickReport :=
  match t.outcome with
  | .ok report => (report.executedAmount.bind r.executedAmount.add).map fun amount =>
      { r with
        ordersProcessed := r.ordersProcessed + 1
        fills := r.fills + report.fills.length
        executedAmount := amount }
  | .error _ => some { r with
      ordersProcessed := r.ordersProcessed + 1
      ordersFailed := r.ordersFailed + 1 }

/-- The totals with one more side. -/
def withSide (r : TickReport) (s : SidePass) : Option TickReport :=
  s.turns.foldlM withTurn <| match s.listing with
    | .ok _ => r
    | .error _ => { r with tickersFailed := 1 }

end TickReport

/-- What the turns of a ticker's pass come to, if there is room for it. -/
def TickerPass.totals (p : TickerPass) : Option TickReport :=
  p.sides.foldlM TickReport.withSide { TickReport.zero with tickers := 1 }

/-! ### Turns and passes with their fills -/

/-- A turn with the fills that it has committed. -/
structure Round where
  turn : OrderTurn
  fills : List FillCommit
  settles : Settles MatchReport.fills turn.outcome fills

/-- A ticker's pass with the fills of its turns. -/
structure Visit where
  pass : TickerPass
  rounds : List Round
  turns : pass.turns = rounds.map (·.turn)
  outcome : pass.outcome = totalled pass.totals

/-- The fills of all turns of a pass, in order. -/
def Visit.fills (v : Visit) : List FillCommit := v.rounds.flatMap (·.fills)

theorem noteOrders_makes (ticker : String) (ids : List OrderId) (r : TickReport) :
    (noteOrders scale ticker ids r).Yields fun n calls => ∃ rounds : List Round,
      Posts calls (rounds.flatMap (·.fills)) ∧
        n = (rounds.map (·.turn), totalled ((rounds.map (·.turn)).foldlM TickReport.withTurn r))
    := by
  induction ids generalizing r with
  | nil => exact ⟨_, rfl, [], .nil, rfl⟩
  | cons id ids ih =>
      unfold noteOrders
      intro _
      show ((processOrder scale id ticker).attempt >>= _).Makes _
      refine (processOrder_makes scale id ticker).attempt.bind fun outcome calls hturn => ?_
      obtain ⟨fills, hcalls, hsettles⟩ := hturn
      have hcalls := hcalls.cons (x := ⟨.count .processed, ()⟩) rfl rfl
      cases outcome with
      | ok report =>
          dsimp only
          split
          · rename_i amount hamount
            refine (ih _).bind fun n later hrest => ?_
            obtain ⟨rounds, hlater, rfl⟩ := hrest
            refine ⟨_, rfl, ⟨⟨id, .ok report⟩, fills, hsettles⟩ :: rounds, ?_, ?_⟩
            · simpa using hcalls.append hlater
            · simp [TickReport.withTurn, hamount]
          · rename_i hamount
            refine ⟨_, rfl, [⟨⟨id, .ok report⟩, fills, hsettles⟩], by simpa using hcalls, ?_⟩
            simp [TickReport.withTurn, hamount, totalled]
      | error failure =>
          cases failure with
          | error e =>
              intro _
              show (noteOrders scale ticker ids _ >>= _).Makes _
              refine (ih _).bind fun n later hrest => ?_
              obtain ⟨rounds, hlater, rfl⟩ := hrest
              refine ⟨_, rfl, ⟨⟨id, .error (.error e)⟩, fills, hsettles⟩ :: rounds, ?_, ?_⟩
              · simpa using hcalls.append (hlater.cons (x := ⟨.count .failed, ()⟩) rfl rfl)
              · simp [TickReport.withTurn]
          | overflow o => exact absurd rfl (hsettles.room o)

theorem noteSide_makes (ticker : String) (side : Side) (r : TickReport) :
    (noteSide scale ticker side r).Yields fun n calls => ∃ (s : SidePass) (rounds : List Round),
      n = (s, totalled (r.withSide s)) ∧ s.turns = rounds.map (·.turn) ∧
        Posts calls (rounds.flatMap (·.fills)) ∧
          ⟨.index (.list s.side ticker), s.listing⟩ ∈ calls := by
  unfold noteSide
  intro listed
  cases listed with
  | error e =>
      exact ⟨_, rfl, ⟨side, .error e, []⟩, [], rfl, rfl, .cons .nil rfl rfl, List.mem_cons_self⟩
  | ok ids =>
      refine (noteOrders_makes scale ticker ids r).bind fun n calls hturns => ?_
      obtain ⟨rounds, hcalls, rfl⟩ := hturns
      refine ⟨_, rfl, ⟨side, .ok ids, rounds.map (·.turn)⟩, rounds, rfl, rfl, ?_,
        List.mem_cons_self⟩
      simpa using hcalls.cons (x := ⟨.index (.list side ticker), .ok ids⟩) rfl rfl

/-- Every side of the pass was listed by one of the calls. -/
def Visit.Listed (v : Visit) (calls : List Answered) : Prop :=
  ∀ s ∈ v.pass.sides, ⟨.index (.list s.side v.pass.ticker), s.listing⟩ ∈ calls

theorem Visit.Listed.mono {v : Visit} {calls later : List Answered} (h : v.Listed calls)
    (hsub : calls ⊆ later) : v.Listed later :=
  fun s hs => hsub (h s hs)

theorem noteTicker_makes (ticker : String) : (noteTicker scale ticker).Yields fun pass calls =>
    ∃ visit : Visit, pass = visit.pass ∧ visit.pass.ticker = ticker ∧
      Posts calls visit.fills ∧ visit.Listed calls := by
  unfold noteTicker
  refine (noteSide_makes scale ticker .buy _).bind fun n calls hbuys => ?_
  obtain ⟨buys, rounds, rfl, hturns, hcalls, hlisted⟩ := hbuys
  cases htotals : TickReport.withSide { TickReport.zero with tickers := 1 } buys with
  | none =>
      have hpass : totalled none =
          totalled (TickerPass.totals ⟨ticker, [buys], .error (.overflow .addition)⟩) := by
        simp [TickerPass.totals, htotals]
      refine ⟨_, rfl, ⟨⟨ticker, [buys], _⟩, rounds, ?_, hpass⟩, rfl, rfl, ?_, ?_⟩
      · simpa [TickerPass.turns] using hturns
      · rw [List.append_nil]
        exact hcalls
      · exact List.forall_mem_singleton.mpr (List.mem_append_left _ hlisted)
  | some r =>
      refine (noteSide_makes scale ticker .sell r).bind fun n later hsells => ?_
      obtain ⟨sells, more, rfl, hturns', hlater, hlisted'⟩ := hsells
      have hpass : totalled (r.withSide sells) = totalled
          (TickerPass.totals ⟨ticker, [buys, sells], totalled (r.withSide sells)⟩) := by
        simp [TickerPass.totals, htotals]
      refine ⟨_, rfl, ⟨⟨ticker, [buys, sells], _⟩, rounds ++ more, ?_, hpass⟩, rfl, rfl, ?_, ?_⟩
      · simp [TickerPass.turns, hturns, hturns']
      · simpa [Visit.fills] using hcalls.append hlater
      · refine List.forall_mem_cons.mpr ⟨List.mem_append_left _ hlisted, ?_⟩
        exact List.forall_mem_singleton.mpr
          (List.mem_append_right _ (List.mem_append_left _ hlisted'))

/-- The totals of the visits, if there is room for them. -/
def Visit.total (visits : List Visit) : Option TickReport :=
  TickerPass.total (visits.map (·.pass))

end Bourse
