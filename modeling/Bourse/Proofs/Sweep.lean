/-
How matching clears up after itself.

A fill that completes an order makes it terminal, and its entry is taken out some calls
later, in one place for the counter order and in another for the incoming one.  In
between the work can fail.  So what is followed here is `Swept`: whatever the calls so
far have made terminal was to be taken out by one of them, but for the orders that are
still `held`.  A commit holds its two orders, `dropFilled` lets go of one, and whichever
way the work ends it holds none.

A tick also goes to see every entry that it is shown: the order is read, and if it cannot
be matched then, its entry is to be taken out (`Visited`).

All this is told of the calls alone.  Whether they were carried out is another matter.
-/
import Bourse.Proofs.Matching
import Bourse.Proofs.Trace
import Bourse.Proofs.Turns

namespace Bourse

open Bourse.Action

variable {scale : Nat} {held held' : List Order} {calls later : List Answered} {o : Order}
  {ticker : String} {id : OrderId} {side : Side}

theorem OrderStatus.filled_of_terminal {s : OrderStatus} (h : s.terminal = true)
    (hlive : s ≠ .cancelled) : s = .filled := by
  cases s <;> simp_all [terminal]

/-- The call puts no entry into the index, whatever was called before. -/
def Clears (_ : List Answered) (c : Call) : Prop := c.enqueues = false

/-! ### What is held -/

/-- What was made terminal was to be taken out of its book, unless it is held. -/
def Swept (held : List Order) (calls : List Answered) : Prop :=
  ∀ e ∈ calls, ∀ p ∈ e.made, p.status.terminal = true →
    p ∈ held ∨ Removed p.side p.ticker p.id calls

theorem Swept.hold (h : Swept held calls) (hsub : held ⊆ held') : Swept held' calls :=
  fun e he p hp hterminal => (h e he p hp hterminal).imp_left fun hin => hsub hin

/-- What a call has made is held after it. -/
theorem Swept.call (h : Swept held calls) (e : Answered) :
    Swept (e.made ++ held) (calls ++ [e]) := by
  intro e' he' p hp hterminal
  rcases List.mem_append.mp he' with hin | hnew
  · refine (h e' hin p hp hterminal).imp (List.mem_append_right _) fun hremoved => ?_
    exact hremoved.mono (List.subset_append_left _ _)
  · rw [List.mem_singleton.mp hnew] at hp
    exact Or.inl (List.mem_append_left _ hp)

theorem Swept.after (h : Swept held calls) {e : Answered} (hmade : e.made = []) :
    Swept held (calls ++ [e]) := by
  have hcall := h.call e
  rwa [hmade] at hcall

/-- An order is let go of once it is to be taken out. -/
theorem Swept.release (h : Swept (o :: held) calls)
    (ho : o.status.terminal = true → Removed o.side o.ticker o.id calls) : Swept held calls := by
  intro e he p hp hterminal
  rcases h e he p hp hterminal with hin | hremoved
  · rcases List.mem_cons.mp hin with rfl | hin
    · exact Or.inr (ho hterminal)
    · exact Or.inl hin
  · exact Or.inr hremoved

theorem Swept.release_matchable (h : Swept (o :: held) calls) (hmatch : o.matchable = true) :
    Swept held calls := by
  refine h.release fun hterminal => ?_
  rw [(Order.matchable_iff.mp hmatch).1] at hterminal
  cases hterminal

/-! ### Matching an order -/

theorem Order.dropFilled_traced (hticker : o.ticker = ticker) (hlive : o.status ≠ .cancelled)
    (h : Swept (o :: held) calls) : (o.dropFilled ticker).Traced Clears (fun r later =>
      match r with
      | .ok _ => Swept held later
      | .error _ => False) calls := by
  subst hticker
  unfold dropFilled
  split
  · refine ⟨rfl, fun a => ?_⟩
    have hremoved : Swept held (calls ++ [⟨.index (.remove o.side o.ticker o.id), a⟩]) :=
      (h.after rfl).release fun _ => ⟨a, by simp⟩
    cases a <;> exact hremoved
  · rename_i hstatus
    exact h.release fun hterminal => absurd (OrderStatus.filled_of_terminal hterminal hlive) hstatus

theorem FillCommit.settle_traced {fill : FillCommit} (hticker : fill.counter.ticker = ticker)
    (hlive : fill.counter.status ≠ .cancelled) (h : Swept (fill.counter :: held) calls) :
    (fill.settle ticker).Traced Clears (fun r later =>
      match r with
      | .ok _ => Swept held later
      | .error _ => False) calls := by
  refine ⟨rfl, fun _ => ?_⟩
  show (fill.counter.dropFilled ticker >>= _).Traced _ _ _
  refine (Order.dropFilled_traced hticker hlive (h.after rfl)).bind (fun _ later h => ?_)
    fun _ _ h => h
  exact ⟨rfl, fun told => h.after rfl⟩

theorem Order.nominated_traced (o : Order) (loaded : List Order) (ids : List OrderId)
    (h : Swept held calls) :
    (o.nominated loaded ids).Traced Clears (fun _ later => Swept held later) calls := by
  induction ids generalizing calls with
  | nil => exact h
  | cons id ids ih =>
      have hdropped : (o.dropStale id (o.nominated loaded ids)).Traced Clears
          (fun _ later => Swept held later) calls := by
        refine ⟨rfl, fun a => ?_⟩
        have hcalled : Swept held
            (calls ++ [⟨.index (.remove o.side.opposite o.ticker id), a⟩]) := h.after rfl
        cases a with
        | error e => exact hcalled
        | ok removed => exact (ih hcalled).bind (fun _ _ h => h) fun _ _ h => h
      unfold nominated
      split
      · split
        · exact (ih h).bind (fun _ _ h => h) fun _ _ h => h
        · exact hdropped
      · exact hdropped

/-- The counter orders that are found may all be met. -/
theorem Order.candidates_traced (o : Order) (h : Swept held calls) :
    o.candidates.Traced Clears (fun r later => Swept held later ∧
      ∀ a, r = .ok a → ∀ c ∈ a.1, o.mayMeet c = true) calls := by
  refine ⟨rfl, fun ids => ?_⟩
  have hlisted : Swept held
      (calls ++ [⟨.index (.list o.side.opposite o.ticker), ids⟩]) := h.after rfl
  cases ids with
  | error e => exact ⟨hlisted, fun _ h => nomatch h⟩
  | ok ids =>
      cases ids with
      | nil =>
          refine ⟨hlisted, fun a h c hc => ?_⟩
          cases h
          cases hc
      | cons id ids =>
          refine ⟨rfl, fun loaded => ?_⟩
          have hloaded := hlisted.call ⟨.store (.loadMany (id :: ids)), loaded⟩
          cases loaded with
          | error e => exact ⟨hloaded, fun _ h => nomatch h⟩
          | ok loaded =>
              show (o.nominated loaded (id :: ids) >>= _).Traced _ _ _
              refine ((o.nominated_traced loaded _ hloaded).of_quiet
                (o.quiet_nominated loaded _)).bind (fun a later h => ⟨h.1, fun b hb c hc => ?_⟩)
                fun _ _ h => ⟨h.1, fun _ h => nomatch h⟩
              cases hb
              have hc : c ∈ a.1 := (o.side.queue_perm a.1).mem_iff.mp hc
              rw [h.2 a rfl] at hc
              exact (List.mem_filter.mp hc).2

/-- Only the order that walks is held in the end, and none if the walk fails. -/
theorem walk_traced {counters : List Order} (hcounters : ∀ c ∈ counters, o.mayMeet c = true)
    (hticker : o.ticker = ticker) (hlive : o.status ≠ .cancelled) (h : Swept [o] calls) :
    (walk scale ticker counters o).Traced Clears (fun r later => match r with
      | .ok a => Swept [a.1] later ∧ a.1.ticker = ticker ∧ a.1.status ≠ .cancelled
      | .error _ => Swept [] later) calls := by
  induction counters generalizing o calls with
  | nil => exact ⟨h, hticker, hlive⟩
  | cons c cs ih =>
      unfold walk
      by_cases hmatch : o.matchable = true
      · simp only [hmatch, Bool.not_true, Bool.false_eq_true, if_false]
        refine ⟨rfl, fun time => ?_⟩
        have hnone : Swept [] (calls ++ [⟨.now, time⟩]) := (h.release_matchable hmatch).after rfl
        show (ofExcept (o.fillWith c scale time) >>= _).Traced _ _ _
        cases hfill : o.fillWith c scale time with
        | error e => exact hnone
        | ok fill =>
            have hm := Order.fillWith_ok hfill
            have hincoming := Order.fill_ok hm.incomingFill
            have hcounter := Order.fill_ok hm.counterFill
            obtain ⟨hmay, hrest⟩ := List.forall_mem_cons.mp hcounters
            obtain ⟨hmatch', -, hticker'⟩ :=
              Order.opposes_iff.mp (Bool.and_eq_true_iff.mp hmay).1
            refine ⟨rfl, fun outcome => ?_⟩
            have hheld := hnone.call ⟨.store (.commit fill), outcome⟩
            cases outcome with
            | error e => exact hheld
            | ok outcome =>
                cases outcome with
                | committed receipt =>
                    have hboth : Swept [fill.counter, fill.incoming] _ :=
                      hheld.hold (by simp [Answered.made])
                    show (fill.settle ticker >>= _).Traced _ _ _
                    refine (FillCommit.settle_traced ?_ ?_ hboth).bind (fun _ later h => ?_)
                      fun _ _ h => h.elim
                    · rw [hcounter.terms.ticker, hticker', hticker]
                    · exact hcounter.status_ne_cancelled (Order.ne_cancelled_of_matchable hmatch')
                    · refine (ih (fun d hd => ?_) ?_ ?_ h).bind (fun _ _ h => h) fun _ _ h => h
                      · exact (Order.mayMeet_congr hincoming.terms d).trans (hrest d hd)
                      · exact hincoming.terms.ticker.trans hticker
                      · exact hincoming.status_ne_cancelled hlive
                | counterUnavailable =>
                    exact ih hrest hticker hlive (hheld.hold (List.nil_subset _))
                | incomingUnavailable =>
                    exact ⟨hheld.hold (List.nil_subset _), hticker, hlive⟩
      · rw [Bool.not_eq_true] at hmatch
        simp only [hmatch, Bool.not_false, if_true]
        exact ⟨h, hticker, hlive⟩

/-- The order was read, and if it could not be matched then, it was to be taken out. -/
def Visited (ticker : String) (id : OrderId) (calls : List Answered) : Prop :=
  ∃ x, (⟨.store (.load id), x⟩ : Answered) ∈ calls ∧ ∀ o, x = .ok (some o) → o.ticker = ticker →
    o.matchable = false → Removed o.side ticker id calls

theorem Visited.mono (h : Visited ticker id calls) (hsub : calls ⊆ later) :
    Visited ticker id later := by
  obtain ⟨x, hin, hremoved⟩ := h
  exact ⟨x, hsub hin, fun o hx hticker hmatch => (hremoved o hx hticker hmatch).mono hsub⟩

/-- **A turn holds nothing when it ends, and its order has been visited.** -/
theorem processOrder_traced (id : OrderId) (ticker : String) (h : Swept [] calls) :
    (processOrder scale id ticker).Traced Clears
      (fun _ later => Swept [] later ∧ Visited ticker id later) calls := by
  refine ⟨rfl, fun found => ?_⟩
  have hloaded : Swept [] (calls ++ [⟨.store (.load id), found⟩]) := h.after rfl
  have hread : (⟨.store (.load id), found⟩ : Answered) ∈
    calls ++ [⟨.store (.load id), found⟩] := by simp
  cases found with
  | error e => exact ⟨hloaded, _, hread, fun _ h => nomatch h⟩
  | ok found =>
      cases found with
      | none => exact ⟨hloaded, _, hread, fun _ h => nomatch h⟩
      | some o =>
          -- What an order other than `o` would need is never asked for.
          have hvisited {later : List Answered} (hsub : calls ++ [⟨.store (.load id),
              .ok (some o)⟩] ⊆ later) (ho : o.ticker = ticker → o.matchable = false →
                Removed o.side ticker id later) : Visited ticker id later := by
            refine ⟨_, hsub hread, fun p hp => ?_⟩
            cases hp
            exact ho
          dsimp only [Action.bind]
          split
          · rename_i hticker
            refine ⟨hloaded, hvisited (List.Subset.refl _) fun h => ?_⟩
            simp [h] at hticker
          · rename_i hticker
            replace hticker : o.ticker = ticker := by simpa using hticker
            split
            · refine ⟨rfl, fun a => ?_⟩
              have hremoved := hloaded.call ⟨.index (.remove o.side ticker id), a⟩
              have hvisited := hvisited (List.subset_append_left _
                [⟨.index (.remove o.side ticker id), a⟩]) fun _ _ => ⟨a, by simp⟩
              cases a <;> exact ⟨hremoved, hvisited⟩
            · rename_i hmatch
              replace hmatch : o.matchable = true := by simpa using hmatch
              have hdone {later : List Answered} (hsub : calls ++ [⟨.store (.load id),
                  .ok (some o)⟩] ⊆ later) : Visited ticker id later := by
                refine hvisited hsub fun _ h => ?_
                rw [hmatch] at h
                cases h
              show (o.candidates >>= _).Traced _ _ _
              refine (o.candidates_traced hloaded).grows.bind (fun a later h => ?_)
                fun _ _ h => ⟨h.1.1, hdone h.2⟩
              refine (walk_traced (h.1.2 a rfl) hticker (Order.ne_cancelled_of_matchable hmatch)
                (h.1.1.hold (List.nil_subset _))).grows.bind (fun b last h' => ?_)
                fun _ _ h' => ⟨h'.1, hdone (List.Subset.trans h.2 h'.2)⟩
              obtain ⟨⟨hheld, hticker', hlive⟩, hsub⟩ := h'
              refine (Order.dropFilled_traced hticker' hlive hheld).grows.bind
                (fun _ _ h'' => ?_) fun _ _ h'' => h''.1.elim
              exact ⟨h''.1, hdone (List.Subset.trans h.2 (List.Subset.trans hsub h''.2))⟩

/-! ### A tick -/

/-- Every entry that was listed on that side was visited. -/
def Toured (side : Side) (ticker : String) (calls : List Answered) : Prop :=
  ∃ x, (⟨.index (.list side ticker), x⟩ : Answered) ∈ calls ∧
    ∀ ids, x = .ok ids → ∀ id ∈ ids, Visited ticker id calls

theorem Toured.mono (h : Toured side ticker calls) (hsub : calls ⊆ later) :
    Toured side ticker later := by
  obtain ⟨x, hin, hvisited⟩ := h
  exact ⟨x, hsub hin, fun ids hx id hid => (hvisited ids hx id hid).mono hsub⟩

/-- Both sides of every ticker that was named were toured. -/
def Completed (calls : List Answered) : Prop :=
  ∃ x, (⟨.index .tickers, x⟩ : Answered) ∈ calls ∧
    ∀ tickers, x = .ok tickers → ∀ ticker ∈ tickers, ∀ side, Toured side ticker calls

theorem Completed.mono (h : Completed calls) (hsub : calls ⊆ later) : Completed later := by
  obtain ⟨x, hin, htoured⟩ := h
  exact ⟨x, hsub hin, fun tickers hx ticker hticker side =>
    (htoured tickers hx ticker hticker side).mono hsub⟩

theorem drainOrders_traced (ids : List OrderId) (r : TickReport) (h : Swept [] calls) :
    (drainOrders scale ticker ids r).Traced Clears (fun result later => Swept [] later ∧
      ∀ r', result = .ok r' → ∀ id ∈ ids, Visited ticker id later) calls := by
  induction ids generalizing calls r with
  | nil => exact ⟨h, fun _ _ => List.forall_mem_nil _⟩
  | cons id ids ih =>
      have hrest {calls : List Answered} (r : TickReport) (h : Swept [] calls)
          (hvisited : Visited ticker id calls) : (drainOrders scale ticker ids r).Traced Clears
            (fun result later => Swept [] later ∧ ∀ r', result = .ok r' →
              ∀ id' ∈ id :: ids, Visited ticker id' later) calls := by
        refine (ih r h).grows.mono (fun _ _ h => h) fun result later h => ⟨h.1.1, fun r' hr => ?_⟩
        exact List.forall_mem_cons.mpr ⟨hvisited.mono h.2, h.1.2 r' hr⟩
      refine ⟨rfl, fun _ => ?_⟩
      show ((processOrder scale id ticker).attemptError >>= _).Traced _ _ _
      have hturn : (processOrder scale id ticker).attemptError.Traced Clears
          (fun result later => Swept [] later ∧ ∀ turn, result = .ok turn →
            Visited ticker id later) (calls ++ [⟨.count .processed, ()⟩]) := by
        refine ((processOrder_traced id ticker (h.after rfl)).mono (fun _ _ h => h)
          fun result later h => ?_).attemptError
        cases result with
        | ok report => exact ⟨h.1, fun _ _ => h.2⟩
        | error e =>
            cases e with
            | error e => exact ⟨h.1, fun _ _ => h.2⟩
            | overflow o => exact ⟨h.1, fun _ h => nomatch h⟩
      refine hturn.bind (fun turn later h => ?_) fun _ _ h => ⟨h.1, fun _ h => nomatch h⟩
      have hvisited := h.2 turn rfl
      cases turn with
      | ok report =>
          dsimp only
          cases report.executedAmount with
          | none => exact ⟨h.1, fun _ h => nomatch h⟩
          | some filled =>
              dsimp only [total, done_bind]
              cases r.executedAmount.add filled with
              | none => exact ⟨h.1, fun _ h => nomatch h⟩
              | some amount => exact hrest _ h.1 hvisited
      | error e =>
          refine ⟨rfl, fun _ => hrest _ (h.1.after rfl) ?_⟩
          exact hvisited.mono (List.subset_append_left _ _)

theorem drainSide_traced (side : Side) (r : TickReport) (h : Swept [] calls) :
    (drainSide scale ticker side r).Traced Clears (fun result later => Swept [] later ∧
      ∀ r', result = .ok r' → Toured side ticker later) calls := by
  unfold drainSide
  rw [attemptError_index]
  refine ⟨rfl, fun ids => ?_⟩
  have hlisted : Swept [] (calls ++ [⟨.index (.list side ticker), ids⟩]) := h.after rfl
  have hread : (⟨.index (.list side ticker), ids⟩ : Answered) ∈
    calls ++ [⟨.index (.list side ticker), ids⟩] := by simp
  cases ids with
  | error e => exact ⟨hlisted, fun _ _ => ⟨_, hread, fun _ h => nomatch h⟩⟩
  | ok ids =>
      refine (drainOrders_traced ids r hlisted).grows.mono (fun _ _ h => h)
        fun result later h => ⟨h.1.1, fun r' hr => ⟨_, h.2 hread, fun ids' hids => ?_⟩⟩
      cases hids
      exact h.1.2 r' hr

theorem drainTicker_traced (ticker : String) (h : Swept [] calls) :
    (drainTicker scale ticker).Traced Clears (fun result later => Swept [] later ∧
      ∀ r', result = .ok r' → ∀ side, Toured side ticker later) calls := by
  refine (drainSide_traced .buy _ h).bind (fun r later h => ?_)
    fun _ _ h => ⟨h.1, fun _ h => nomatch h⟩
  refine (drainSide_traced .sell r h.1).grows.mono (fun _ _ h => h)
    fun result last h' => ⟨h'.1.1, fun r' hr side => ?_⟩
  cases side with
  | buy => exact (h.2 r rfl).mono h'.2
  | sell => exact h'.1.2 r' hr

theorem drainTickers_traced (tickers : List String) (h : Swept [] calls) :
    (drainTickers scale tickers).Traced Clears (fun result later => Swept [] later ∧
      ∀ rs, result = .ok rs → (∀ r ∈ rs, ∃ p, r = .ok p) →
        ∀ ticker ∈ tickers, ∀ side, Toured side ticker later) calls := by
  induction tickers generalizing calls with
  | nil => exact ⟨h, fun _ _ _ => List.forall_mem_nil _⟩
  | cons ticker tickers ih =>
      have hpass : (drainTicker scale ticker).attempt.Traced Clears (fun result later =>
          Swept [] later ∧ ∀ r p, result = .ok r → r = .ok p →
            ∀ side, Toured side ticker later) calls := by
        refine ((drainTicker_traced ticker h).mono (fun _ _ h => h)
          fun result later h => ⟨h.1, fun r p hr hp => ?_⟩).attempt
        cases hr
        exact h.2 p hp
      refine hpass.bind (fun r later h => ?_) fun _ _ h => ⟨h.1, fun _ h => nomatch h⟩
      refine (ih h.1).grows.bind (fun rs last h' => ⟨h'.1.1, fun rs' hrs hall => ?_⟩)
        fun _ _ h' => ⟨h'.1.1, fun _ h => nomatch h⟩
      cases hrs
      obtain ⟨⟨p, hp⟩, hall⟩ := List.forall_mem_cons.mp hall
      refine List.forall_mem_cons.mpr ⟨fun side => ?_, h'.1.2 rs rfl hall⟩
      exact (h.2 r p rfl hp side).mono h'.2

/-- A tick was completed and gave up no ticker. -/
def TickOutcome.Whole (outcome : TickOutcome) : Prop :=
  ∃ report, outcome = .completed report ∧ report.tickersFailed = 0

theorem tickPass_traced (h : Swept [] calls) :
    (tickPass scale).Traced Clears (fun result later => Swept [] later ∧
      ∀ outcome, result = .ok outcome → outcome.Whole → Completed later) calls := by
  unfold tickPass
  rw [attemptError_index]
  refine ⟨rfl, fun tickers => ?_⟩
  have hnamed : Swept [] (calls ++ [⟨.index .tickers, tickers⟩]) := h.after rfl
  have hread : (⟨.index .tickers, tickers⟩ : Answered) ∈
    calls ++ [⟨.index .tickers, tickers⟩] := by simp
  cases tickers with
  | error e =>
      refine ⟨rfl, fun _ => ⟨hnamed.after rfl, fun outcome h hwhole => ?_⟩⟩
      cases h
      obtain ⟨report, h, -⟩ := hwhole
      cases h
  | ok tickers =>
      refine (drainTickers_traced tickers hnamed).grows.bind (fun rs later h => ?_)
        fun _ _ h => ⟨h.1.1, fun _ h => nomatch h⟩
      cases htotal : rs.foldlM TickReport.withPass .zero with
      | none => exact ⟨h.1.1, fun _ h => nomatch h⟩
      | some report =>
          refine ⟨rfl, fun _ => ⟨h.1.1.after rfl, fun outcome houtcome hwhole => ?_⟩⟩
          cases houtcome
          obtain ⟨report', hreport, hzero⟩ := hwhole
          cases hreport
          have hgrown := List.subset_append_left later [⟨.count .ticksRun, ()⟩]
          refine ⟨_, hgrown (h.2 hread), fun tickers' htickers ticker hticker side => ?_⟩
          cases htickers
          refine (h.1.2 rs rfl (fun r hr => ?_) ticker hticker side).mono hgrown
          obtain ⟨p, hp, -⟩ := (TickReport.withPass_zero htotal hzero).2 r hr
          exact ⟨p, hp⟩

/-- **A tick holds nothing when it ends, and a whole one has been everywhere.** -/
theorem tick_traced (h : Swept [] calls) :
    (tick scale).Traced Clears (fun result later => Swept [] later ∧
      ∀ outcome, result = .ok outcome → outcome.Whole → Completed later) calls := by
  -- A tick that may not run reads and writes nothing.
  have hrefused {calls : List Answered} (h : Swept [] calls) (counter : Counter)
      {outcome : TickOutcome} (houtcome : ¬ outcome.Whole) :
      (call (.count counter) fun _ => done outcome).Traced Clears (fun result later =>
        Swept [] later ∧ ∀ outcome, result = .ok outcome → outcome.Whole → Completed later)
        calls := by
    refine ⟨rfl, fun _ => ⟨h.after rfl, fun outcome' h hwhole => ?_⟩⟩
    cases h
    exact absurd hwhole houtcome
  refine ⟨rfl, fun time => ⟨rfl, fun isOpen => ?_⟩⟩
  have hasked := (h.call ⟨.now, time⟩).call ⟨.marketOpen time, isOpen⟩
  cases isOpen with
  | false => exact hrefused hasked _ fun ⟨_, h, _⟩ => nomatch h
  | true =>
      refine ⟨rfl, fun begun => ?_⟩
      have hbegun := hasked.call ⟨.beginTick, begun⟩
      cases begun with
      | false => exact hrefused hbegun _ fun ⟨_, h, _⟩ => nomatch h
      | true =>
          have hpass : (tickPass scale).attempt.Traced Clears (fun result later =>
              Swept [] later ∧ ∀ attempted outcome, result = .ok attempted →
                attempted = .ok outcome → outcome.Whole → Completed later) _ :=
            ((tickPass_traced hbegun).mono (fun _ _ h => h) fun result later h =>
              ⟨h.1, fun attempted outcome hresult hattempted =>
                h.2 outcome ((Except.ok.inj hresult).trans hattempted)⟩).attempt
          show ((tickPass scale).attempt >>= _).Traced _ _ _
          refine hpass.bind (fun outcome later h => ⟨rfl, fun _ => ?_⟩)
            fun _ _ h => ⟨h.1, fun _ h => nomatch h⟩
          have hended := h.1.call ⟨.endTick, ()⟩
          cases outcome with
          | error e => exact ⟨hended, fun _ h => nomatch h⟩
          | ok outcome =>
              refine ⟨hended, fun outcome' houtcome hwhole => ?_⟩
              cases houtcome
              exact (h.2 _ outcome rfl rfl hwhole).mono (List.subset_append_left _ _)

/-! ### Cancelling an order -/

theorem cancel_traced (id : OrderId) (h : Swept [] calls) :
    (cancel id).Traced Clears (fun _ later => Swept [] later) calls := by
  refine ⟨rfl, fun time => ⟨rfl, fun found => ?_⟩⟩
  have hcalled := (h.call ⟨.now, time⟩).call ⟨.store (.cancel id time), found⟩
  cases found with
  | error e => exact hcalled
  | ok found =>
      cases found with
      | some o =>
          refine ⟨rfl, fun a => ?_⟩
          have hremoved : Swept [] _ := (hcalled.call
            ⟨.index (.remove o.side o.ticker o.id), a⟩).release fun _ => ⟨a, by simp⟩
          cases a <;> exact ⟨rfl, fun _ => hremoved.after rfl⟩
      | none =>
          refine ⟨rfl, fun current => ?_⟩
          have hloaded : Swept [] _ := hcalled.call ⟨.store (.load id), current⟩
          cases current with
          | error e => exact hloaded
          | ok current =>
              cases current with
              | none => exact hloaded
              | some current =>
                  show (ofExcept (current.checkMove .cancelled) >>= _).Traced _ _ _
                  cases current.checkMove .cancelled <;> exact hloaded

end Bourse
