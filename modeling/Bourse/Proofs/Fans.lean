/-
Work for each ticker, side by side.

Every ticker has its work, and between two calls of one piece of work the others may make
any number of theirs (`Fans`).  The calls are kept in the order in which they were made,
each with the ticker for which it was made, so that those of one ticker can be picked out
(`callsOf`).

Of its own calls each piece of work comes to the same wherever they stand among the others
(`Fans.comesTo`), and to do the work for one ticker after the other is one way to go
(`Leads.drained`).
-/
import Bourse.Proofs.Trace
import Mathlib.Logic.Function.Basic

namespace Bourse

open Bourse.Action

/-! ### What work comes to with given answers -/

namespace Action

variable {α β : Type} {calls : List Answered}

/-- Answered like this, the work makes these calls and then has ended. -/
def ComesTo : Action α → List Answered → Except Failure α → Prop
  | done a, calls, r => calls = [] ∧ r = .ok a
  | fail e, calls, r => calls = [] ∧ r = .error e
  | call c rest, calls, r => ∃ a later, calls = ⟨c, a⟩ :: later ∧ (rest a).ComesTo later r

theorem comesTo_ended (r : Except Failure α) : (ended r).ComesTo [] r := by
  cases r <;> exact ⟨rfl, rfl⟩

theorem ComesTo.attempt {work : Action α} {r : Except Failure α} (h : work.ComesTo calls r) :
    work.attempt.ComesTo calls (.ok r) := by
  induction work generalizing calls with
  | done a =>
      obtain ⟨rfl, rfl⟩ := h
      exact ⟨rfl, rfl⟩
  | fail e =>
      obtain ⟨rfl, rfl⟩ := h
      exact ⟨rfl, rfl⟩
  | call c rest ih =>
      obtain ⟨a, later, rfl, h⟩ := h
      exact ⟨a, later, rfl, ih a h⟩

/-- Work of which something is picked out has ended, if that is there. -/
theorem ComesTo.of_bind_done {work : Action α} {p : α → β} {b : β}
    (h : (work >>= fun a => done (p a)).ComesTo calls (.ok b)) :
    ∃ a, work.ComesTo calls (.ok a) ∧ p a = b := by
  induction work generalizing calls with
  | done a =>
      obtain ⟨rfl, hb⟩ := h
      exact ⟨a, ⟨rfl, rfl⟩, (Except.ok.inj hb).symm⟩
  | fail e => exact nomatch h.2
  | call c rest ih =>
      obtain ⟨a, later, rfl, h⟩ := h
      obtain ⟨a', hends, hb⟩ := ih a h
      exact ⟨a', ⟨a, later, rfl, hends⟩, hb⟩

end Action

/-! ### Work for many tickers -/

/-- Of calls of several passes, each with its ticker, those of one pass. -/
def callsOf (trace : List (String × Answered)) (ticker : String) : List Answered :=
  (trace.filter (·.1 == ticker)).map (·.2)

section

variable {trace : List (String × Answered)} {ticker : String}

theorem callsOf_cons_self (x : Answered) : callsOf ((ticker, x) :: trace) ticker =
    x :: callsOf trace ticker := by
  simp [callsOf]

theorem callsOf_cons_of_ne {other : String} (hne : other ≠ ticker) (x : Answered) :
    callsOf ((other, x) :: trace) ticker = callsOf trace ticker := by
  simp [callsOf, hne]

theorem callsOf_append (more : List (String × Answered)) :
    callsOf (trace ++ more) ticker = callsOf trace ticker ++ callsOf more ticker := by
  simp [callsOf]

theorem callsOf_self (calls : List Answered) :
    callsOf (calls.map (ticker, ·)) ticker = calls := by
  induction calls with
  | nil => rfl
  | cons x calls ih => exact (callsOf_cons_self x).trans (congrArg (x :: ·) ih)

theorem callsOf_other {other : String} (hne : other ≠ ticker) (calls : List Answered) :
    callsOf (calls.map (other, ·)) ticker = [] := by
  induction calls with
  | nil => rfl
  | cons x calls ih => exact (callsOf_cons_of_ne hne x).trans ih

theorem mem_callsOf {x : Answered} : x ∈ callsOf trace ticker ↔ (ticker, x) ∈ trace := by
  simp [callsOf]

theorem callsOf_sublist (trace : List (String × Answered)) (ticker : String) :
    (callsOf trace ticker).Sublist (trace.map (·.2)) :=
  List.filter_sublist.map _

/-- What is read of the calls and tells its ticker is read pass by pass. -/
theorem filter_filterMap {β : Type} {read : Answered → Option β} {tag : β → String}
    (htag : ∀ x ∈ trace, ∀ b, read x.2 = some b → tag b = x.1) (ticker : String) :
    ((trace.map (·.2)).filterMap read).filter (tag · == ticker) =
      (callsOf trace ticker).filterMap read := by
  induction trace with
  | nil => rfl
  | cons x trace ih =>
      obtain ⟨hx, htag⟩ := List.forall_mem_cons.mp htag
      have hrest := ih htag
      obtain ⟨other, x⟩ := x
      by_cases hother : other = ticker
      · subst hother
        rw [callsOf_cons_self, List.map_cons]
        cases hread : read x with
        | none => rwa [List.filterMap_cons_none hread, List.filterMap_cons_none hread]
        | some b =>
            rw [List.filterMap_cons_some hread, List.filterMap_cons_some hread, ← hrest]
            exact List.filter_cons_of_pos (by simp [hx b hread])
      · rw [callsOf_cons_of_ne hother, List.map_cons]
        cases hread : read x with
        | none => rwa [List.filterMap_cons_none hread]
        | some b =>
            rw [List.filterMap_cons_some hread, ← hrest]
            exact List.filter_cons_of_neg (by simp [hx b hread, hother])

/-- **The calls of the passes are all calls**, in another order. -/
theorem callsOf_perm {tickers : List String} (hnodup : tickers.Nodup)
    (hall : ∀ x ∈ trace, x.1 ∈ tickers) :
    (tickers.flatMap (callsOf trace)).Perm (trace.map (·.2)) := by
  induction tickers generalizing trace with
  | nil =>
      have hnone : trace = [] := by
        cases trace with
        | nil => rfl
        | cons x trace => exact nomatch hall x List.mem_cons_self
      rw [hnone]
      exact .nil
  | cons ticker tickers ih =>
      obtain ⟨hnew, hnodup⟩ := List.nodup_cons.mp hnodup
      have hothers : ∀ x ∈ trace.filter (!·.1 == ticker), x.1 ∈ tickers := by
        intro x hx
        obtain ⟨hx, hne⟩ := List.mem_filter.mp hx
        rcases List.mem_cons.mp (hall x hx) with hsame | hin
        · simp [hsame] at hne
        · exact hin
      -- The calls of the other passes are found among what is not of this one.
      have hrest : tickers.flatMap (callsOf trace) =
          tickers.flatMap (callsOf (trace.filter (!·.1 == ticker))) := by
        refine List.flatMap_congr fun other hother => ?_
        have hne : other ≠ ticker := fun hsame => hnew (hsame ▸ hother)
        unfold callsOf
        rw [List.filter_filter]
        refine congrArg (List.map _) (List.filter_congr fun x _ => ?_)
        by_cases hx : x.1 = other
        · simp [hx, hne]
        · simp [hx]
      rw [List.flatMap_cons, hrest]
      refine ((ih hnodup hothers).append_left _).trans ?_
      rw [callsOf, ← List.map_append]
      exact (List.filter_append_perm _ trace).map _

end

namespace Floor

variable {α : Type} {f g h : Floor} {works works' works'' : String → Action α}
  {trace more : List (String × Answered)} {ticker : String}

/--
What can come of one piece of work for each ticker, with the calls that were made, each of
them with the ticker for which it was.  Between two calls of one of them the others may
make any number of theirs.
-/
inductive Fans {α : Type} : Floor → (String → Action α) → List (String × Answered) →
    (String → Action α) → Floor → Prop
  | here (f : Floor) (works : String → Action α) : Fans f works [] works f
  | call {f g : Floor} {works works' : String → Action α} {trace : List (String × Answered)}
      {ticker : String} {c : Call} {rest : c.Answer → Action α}
      (hwork : works ticker = .call c rest) (a : c.Answer) (hmay : f.May c a)
      (h : Fans (f.after c a) (Function.update works ticker (rest a)) trace works' g) :
      Fans f works ((ticker, ⟨c, a⟩) :: trace) works' g

theorem Fans.trans (hfg : f.Fans works trace works' g) (hgh : g.Fans works' more works'' h) :
    f.Fans works (trace ++ more) works'' h := by
  induction hfg with
  | here f works => exact hgh
  | call hwork a hmay _ ih => exact .call hwork a hmay (ih hgh)

/-- One of them may go on by itself while the others wait. -/
theorem Leads.fans {work rest : Action α} (hlead : f.Leads work rest g)
    (hwork : works ticker = work) : f.Fans works ((f.since g).map (ticker, ·))
      (Function.update works ticker rest) g := by
  induction hlead generalizing works with
  | here work f =>
      rw [since_self, ← hwork, Function.update_eq_self]
      exact .here f works
  | @call c rest f left g a hmay hlead ih =>
      have hrest := ih (Function.update_self ticker (rest a) works)
      rw [Function.update_idem] at hrest
      rw [hlead.since_call]
      exact .call hwork a hmay hrest

namespace Fans

theorem log (hfan : f.Fans works trace works' g) : g.log = f.log ++ trace.map (·.2) := by
  induction hfan with
  | here f works => exact (List.append_nil _).symm
  | call hwork a hmay _ ih => rw [ih, after_log, List.append_assoc]; rfl

/-- The calls from some floor before to some floor after. -/
theorem since_between (hfan : g.Fans works trace works' h) (hbefore : f.log <+: g.log) {k : Floor}
    (hafter : h.log <+: k.log) : f.since k = f.since g ++ trace.map (·.2) ++ h.since k := by
  have hlog : g.log <+: h.log := ⟨_, hfan.log.symm⟩
  rw [since_trans (hbefore.trans hlog) hafter, since_trans hbefore hlog, since_eq hfan.log]

/-- **Each comes to what it makes of its own calls**, wherever they stand. -/
theorem comesTo (hfan : f.Fans works trace works' g) (ticker : String) {r : Except Failure α}
    (hend : works' ticker = ended r) : (works ticker).ComesTo (callsOf trace ticker) r := by
  induction hfan with
  | here f works =>
      rw [hend]
      exact comesTo_ended r
  | @call f g works works' trace other c rest hwork a hmay _ ih =>
      have hrest := ih hend
      by_cases hticker : other = ticker
      · subst hticker
        rw [Function.update_self] at hrest
        rw [hwork, callsOf_cons_self]
        exact ⟨a, _, rfl, hrest⟩
      · rw [Function.update_of_ne (Ne.symm hticker)] at hrest
        rw [callsOf_cons_of_ne hticker]
        exact hrest

/-- No call is made for work that had ended. -/
theorem not_ended (hfan : f.Fans works trace works' g) {x : String × Answered}
    (hx : x ∈ trace) : ¬ (works x.1).Ended := by
  induction hfan with
  | here f works => cases hx
  | @call f g works works' trace ticker c rest hwork a hmay _ ih =>
      rcases List.mem_cons.mp hx with rfl | hx
      · rw [hwork]
        exact id
      · have hopen := ih hx
        by_cases hticker : x.1 = ticker
        · rw [hticker, hwork]
          exact id
        · rwa [Function.update_of_ne hticker] at hopen

end Fans

/-! ### One ticker after the other -/

/-- One piece of work that has ended, in front of others. -/
theorem ended_cons {tickers : List String} (hnew : ticker ∉ tickers) (works : String → Action α)
    (results : String → Except Failure α) (first : Except Failure α) :
    (fun other => if other ∈ ticker :: tickers then
        ended (Function.update results ticker first other) else works other) =
      fun other => if other ∈ tickers then ended (results other) else
        Function.update works ticker (ended first) other := by
  funext other
  by_cases hother : other = ticker
  · subst hother
    simp [hnew]
  · simp [hother]

/-- In front of calls for others, the calls for one ticker come first. -/
theorem serial_cons {tickers : List String} (hnew : ticker ∉ tickers)
    (htags : ∀ x ∈ trace, x.1 ∈ tickers)
    (hserial : trace.map (·.2) = tickers.flatMap (callsOf trace)) (calls : List Answered) :
    (calls.map (ticker, ·) ++ trace).map (·.2) =
      (ticker :: tickers).flatMap (callsOf (calls.map (ticker, ·) ++ trace)) := by
  have hown : callsOf trace ticker = [] := by
    refine List.eq_nil_iff_forall_not_mem.mpr fun x hx => ?_
    exact hnew (htags _ (mem_callsOf.mp hx))
  have hrest : tickers.flatMap (callsOf (calls.map (ticker, ·) ++ trace)) =
      tickers.flatMap (callsOf trace) := by
    refine List.flatMap_congr fun other hother => ?_
    have hne : ticker ≠ other := fun hsame => hnew (hsame ▸ hother)
    rw [callsOf_append, callsOf_other hne]
    rfl
  rw [List.flatMap_cons, hrest, ← hserial, callsOf_append, callsOf_self, hown, List.map_append,
    List.map_map, List.append_nil]
  exact congrArg (· ++ _) (List.map_id _)

/-- To drain the tickers one after the other is one way for their passes to go. -/
theorem Leads.drained {scale : Nat} {tickers : List String} (hnodup : tickers.Nodup)
    {works : String → Action TickReport}
    (hworks : ∀ ticker ∈ tickers, works ticker = drainTicker scale ticker)
    {r : Except Failure (List (Except Failure TickReport))}
    (hlead : f.Leads (drainTickers scale tickers) (.ended r) g) :
    ∃ (results : String → Except Failure TickReport) (trace : List (String × Answered)),
      r = .ok (tickers.map results) ∧ f.Fans works trace (fun ticker =>
          if ticker ∈ tickers then ended (results ticker) else works ticker) g ∧
        (∀ x ∈ trace, x.1 ∈ tickers) ∧ trace.map (·.2) = tickers.flatMap (callsOf trace) := by
  induction tickers generalizing f works r with
  | nil =>
      obtain ⟨rfl, rfl⟩ := Leads.of_done hlead
      exact ⟨fun _ => .ok .zero, [], rfl, .here g works, List.forall_mem_nil _, rfl⟩
  | cons ticker tickers ih =>
      obtain ⟨hnew, hnodup⟩ := List.nodup_cons.mp hnodup
      obtain ⟨hwork, hworks⟩ := List.forall_mem_cons.mp hworks
      have hne {other : String} (hother : other ∈ tickers) : other ≠ ticker :=
        fun hsame => hnew (hsame ▸ hother)
      unfold drainTickers at hlead
      rcases hlead.of_bind with ⟨first, v, hfirst, hlead⟩ | ⟨e, hfirst, -⟩
      · obtain ⟨s, hs, hfirst⟩ := Leads.of_attempt (r := .ok first) hfirst
        cases hs
        have hwaiting : ∀ other ∈ tickers,
            Function.update works ticker (ended first) other = drainTicker scale other := by
          intro other hother
          rw [Function.update_of_ne (hne hother)]
          exact hworks other hother
        rcases hlead.of_bind with ⟨others, w, hothers, hlead⟩ | ⟨e, hothers, -⟩
        · obtain ⟨rfl, rfl⟩ := Leads.of_done hlead
          obtain ⟨results, trace, hresults, hrest, htags, hserial⟩ :=
            ih hnodup hwaiting (r := .ok others) hothers
          cases hresults
          refine ⟨Function.update results ticker first, (f.since v).map (ticker, ·) ++ trace,
            ?_, ?_, ?_, serial_cons hnew htags hserial _⟩
          · rw [List.map_cons, Function.update_self]
            refine congrArg (fun rs => Except.ok (first :: rs)) (List.map_congr_left ?_)
            exact fun other hother => (Function.update_of_ne (hne hother) _ _).symm
          · rw [ended_cons hnew]
            exact (hfirst.fans hwork).trans hrest
          · refine List.forall_mem_append.mpr ⟨?_, fun x hx => List.mem_cons_of_mem _ (htags x hx)⟩
            exact List.forall_mem_map.mpr fun x _ => List.mem_cons_self
        · obtain ⟨_, _, hfailed, -⟩ := ih hnodup hwaiting (r := .error e) hothers
          cases hfailed
      · obtain ⟨s, hs, -⟩ := Leads.of_attempt (r := .error e) hfirst
        cases hs

end Floor

end Bourse
