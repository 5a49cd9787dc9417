/-
The visits of a tick whose passes take turns.

Each pass that has begun can be told by a visit, whatever it has come to, and the visits
tell of all that the tick has filled, counted and added up.  They stand in the order in
which the passes are added up, and the calls of a visit in their own order; among the calls
of the tick they stand anyhow.
-/
import Bourse.Proofs.Fanout

namespace Bourse

open Bourse.Action

/-! ### One pass -/

/-- Whatever a pass has come to, it can be told with the notes of its turns. -/
theorem noted_of_comesTo {scale : Nat} {ticker : String} {calls : List Answered}
    {r : Except Failure TickReport} (h : (drainTicker scale ticker).ComesTo calls r) :
    ∃ pass, (noteTicker scale ticker).ComesTo calls (.ok pass) ∧ pass.outcome = r := by
  have h := h.attempt
  rw [drainTicker_attempt] at h
  exact h.of_bind_done

/-- The visit is what was done in the pass over its ticker. -/
structure Fan.Visited (scale : Nat) (fan : Fan) (v : Visit) : Prop where
  noted : (noteTicker scale v.pass.ticker).ComesTo (callsOf fan.trace v.pass.ticker) (.ok v.pass)
  posts : Posts (callsOf fan.trace v.pass.ticker) v.fills
  listed : v.Listed (callsOf fan.trace v.pass.ticker)
  result : fan.results v.pass.ticker = v.pass.outcome

/-- The visits are what was done in the passes, in the order in which these are added up. -/
structure Fan.Visits (scale : Nat) (fan : Fan) (visits : List Visit) : Prop where
  joined : visits.map (·.pass.ticker) = fan.joined
  visited : ∀ v ∈ visits, fan.Visited scale v

namespace Fan.Visits

variable {scale : Nat} {fan : Fan} {visits : List Visit}

theorem outcomes (h : fan.Visits scale visits) :
    fan.joined.map fan.results = visits.map (·.pass.outcome) := by
  rw [← h.joined, List.map_map]
  exact List.map_congr_left fun v hv => (h.visited v hv).result

/-- The calls of the passes are those of the visits. -/
theorem flatMap_calls (h : fan.Visits scale visits) : fan.joined.flatMap (callsOf fan.trace) =
    visits.flatMap fun v => callsOf fan.trace v.pass.ticker := by
  rw [← h.joined, List.flatMap_map]

theorem filterMap_fills (h : fan.Visits scale visits) :
    (fan.joined.flatMap (callsOf fan.trace)).filterMap (·.fill?) = visits.flatMap (·.fills) := by
  rw [h.flatMap_calls, List.filterMap_flatMap]
  exact List.flatMap_congr fun v hv => (h.visited v hv).posts.committed

theorem filterMap_counted (h : fan.Visits scale visits) :
    (fan.joined.flatMap (callsOf fan.trace)).filterMap (·.counted?) =
      (visits.flatMap (·.fills)).map (·.amount) := by
  rw [h.flatMap_calls, List.filterMap_flatMap, List.map_flatMap]
  exact List.flatMap_congr fun v hv => (h.visited v hv).posts.counted

end Fan.Visits

/-- **The passes of a tick can be told by visits.** -/
theorem Floor.Fans.visits {scale : Nat} {fan : Fan} {v w : Floor}
    (hfan : v.Fans (passes scale fan.joined) fan.trace (fun ticker => ended (fan.results ticker))
      w) : ∃ visits, fan.Visits scale visits := by
  suffices ∀ tickers ⊆ fan.joined, ∃ visits : List Visit, visits.map (·.pass.ticker) = tickers ∧
      ∀ v ∈ visits, fan.Visited scale v by
    obtain ⟨visits, hjoined, hvisited⟩ := this fan.joined (.refl _)
    exact ⟨visits, hjoined, hvisited⟩
  intro tickers hsub
  induction tickers with
  | nil => exact ⟨[], rfl, List.forall_mem_nil _⟩
  | cons ticker tickers ih =>
      obtain ⟨hin, hsub⟩ := List.cons_subset.mp hsub
      obtain ⟨visits, hjoined, hvisited⟩ := ih hsub
      have hends := hfan.comesTo ticker rfl
      rw [show passes scale fan.joined ticker = drainTicker scale ticker from if_pos hin] at hends
      obtain ⟨pass, hnoted, hresult⟩ := noted_of_comesTo hends
      obtain ⟨_, hpass, visit, rfl, rfl, hposts, hlisted⟩ :=
        (noteTicker_makes scale ticker).of_comesTo hnoted
      cases hpass
      refine ⟨visit :: visits, congrArg (_ :: ·) hjoined, List.forall_mem_cons.mpr ⟨?_, hvisited⟩⟩
      exact ⟨hnoted, hposts, hlisted, hresult.symm⟩

namespace Floor

variable {scale : Nat} {f g : Floor} {fan : Fan} {r : Except Failure TickOutcome}

/-- How the visits of a tick from `f` to `g` hang together with what it has filled and come to. -/
structure Tallied (scale : Nat) (f : Floor) (fan : Fan) (visits : List Visit)
    (r : Except Failure TickOutcome) (g : Floor) : Prop extends fan.Visits scale visits where
  fills : (visits.flatMap (·.fills)).Perm (f.fillsSince g)
  /-- The fills of one pass are in the order in which they were committed. -/
  own : ∀ v ∈ visits, v.fills.Sublist (f.fillsSince g)
  counted : ((f.since g).filterMap (·.counted?)).Perm ((f.fillsSince g).map (·.amount))
  calls : ∀ x ∈ fan.trace, x.2 ∈ f.since g
  completed : ∀ report, r = .ok (.completed report) → Visit.total visits = some report
  granted : (∀ x ∈ f.since g, x.granted = true) →
    r = totalled ((Visit.total visits).map .completed)
  active : fan.joined.Nodup ∧ fan.joined ⊆ f.index.tickers
  all : (∃ report, r = .ok (.completed report)) → fan.joined.Perm f.index.tickers

/-- **Every tick can be told by its visits.** -/
theorem Ticks.tallied (h : f.Ticks scale fan r g) : ∃ visits, f.Tallied scale fan visits r g := by
  have hall (hcompleted : ∃ report, r = .ok (.completed report)) :
      fan.joined.Perm f.index.tickers := by
    obtain ⟨report, rfl⟩ := hcompleted
    obtain ⟨_, _, -, hperm, -⟩ := h.of_completed
    exact hperm
  cases h with
  | @idle outcome g hopen =>
      obtain ⟨_, hopened, hbefore⟩ := openTick_makes.of_ended (r := .ok _) hopen
      cases hopened
      have hfills : f.fillsSince g = [] := hbefore.posts.committed
      refine ⟨[], ⟨rfl, List.forall_mem_nil _⟩, ?_, List.forall_mem_nil _, ?_,
        List.forall_mem_nil _, fun report h => ?_, fun hgranted => ?_,
        ⟨List.nodup_nil, List.nil_subset _⟩, hall⟩
      · rw [hfills]
        exact .nil
      · rw [hfills, hbefore.posts.counted]
      · exact absurd (Except.ok.inj h) (hbefore.ne_completed report)
      · exact nomatch hbefore.exists_tickers hgranted
  | @fanned _ tickers v w _ _ hopen hnodup hactive hfan hclose =>
      obtain ⟨rfl, -, -⟩ := hopen.of_openTick
      obtain ⟨_, hopened, hbefore⟩ := openTick_makes.of_ended (r := .ok _) hopen
      cases hopened
      have hafter := (closeTick_makes _).of_ended hclose
      have hr := hafter.result
      obtain ⟨visits, hvisits⟩ := hfan.visits
      rw [hvisits.outcomes] at hr
      have htotal : visits.map (·.pass.outcome) = (visits.map (·.pass)).map (·.outcome) := by
        rw [List.map_map]
        rfl
      rw [htotal] at hr
      have hsince := hfan.since_between hopen.log hclose.log
      -- Only the passes fill anything.
      obtain ⟨hfills, hcounted⟩ := hbefore.posts.around hafter.posts (fan.trace.map (·.2))
      rw [← hsince] at hfills hcounted
      have hcalls := callsOf_perm hnodup hfan.joined
      have hperm : (visits.flatMap (·.fills)).Perm (f.fillsSince g) := by
        unfold fillsSince
        rw [hfills, ← hvisits.filterMap_fills]
        exact hcalls.filterMap _
      refine ⟨visits, hvisits, hperm, fun visit hv => ?_, ?_, fun x hx => ?_, fun report h => ?_,
        fun _ => hr, ⟨hnodup, hactive⟩, hall⟩
      · unfold fillsSince
        rw [hfills, ← (hvisits.visited visit hv).posts.committed]
        exact (callsOf_sublist _ _).filterMap _
      · rw [hcounted]
        refine (hcalls.filterMap _).symm.trans ?_
        rw [hvisits.filterMap_counted]
        exact hperm.map _
      · rw [hsince]
        exact List.mem_append_left _ (List.mem_append_right _ (List.mem_map_of_mem hx))
      · rw [h] at hr
        obtain ⟨total, htotal, hreport⟩ := Option.map_eq_some_iff.mp (eq_some_of_totalled hr.symm)
        cases hreport
        exact htotal

end Floor

end Bourse
