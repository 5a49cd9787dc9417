/-
The calls of a run, and what can be told from them.

`Traced` follows work call by call with nothing but the calls so far in view.  No floor
is involved and every answer counts, so it is a property of the program alone: which
calls it makes, after which others, and which of them it has made by the end, however it
ends.  `Traced.of_leads` carries that over to a run.

The other half is what a call leaves on a floor.  An entry comes into a book by an
`enqueue` and leaves it by a `remove`, and an order is on record as the last call has made
it that wrote it.  So from the calls between two floors it can be told what has become of
an entry, and what of an order, without following the work that made them.
-/
import Bourse.Proofs.Orderly
import Bourse.Proofs.Waiting

namespace Bourse

/-! ### The calls between two floors -/

namespace Floor

/-- The calls that were made on the way from one floor to the other. -/
def since (f g : Floor) : List Answered := g.log.drop f.log.length

variable {α β : Type} {f g h : Floor} {c : Call} {work rest : Action α}

theorem since_eq {calls : List Answered} (hlog : g.log = f.log ++ calls) : f.since g = calls := by
  simp [since, hlog]

theorem since_self (f : Floor) : f.since f = [] := by simp [since]

theorem log_eq (hlog : f.log <+: g.log) : g.log = f.log ++ f.since g := by
  obtain ⟨calls, hlog⟩ := hlog
  rw [since_eq hlog.symm, hlog]

theorem since_trans (hfg : f.log <+: g.log) (hgh : g.log <+: h.log) :
    f.since h = f.since g ++ g.since h := by
  refine since_eq ?_
  rw [log_eq hgh, log_eq hfg, List.append_assoc]

theorem log_after (f : Floor) (c : Call) (a : c.Answer) : f.log <+: (f.after c a).log :=
  List.prefix_append _ _

theorem since_after (f : Floor) (c : Call) (a : c.Answer) : f.since (f.after c a) = [⟨c, a⟩] :=
  since_eq rfl

/-- Work only adds to what was asked. -/
theorem Leads.log (hlead : f.Leads work rest g) : f.log <+: g.log := by
  induction hlead with
  | here work f => exact List.prefix_refl _
  | call a hmay _ ih => exact (log_after _ _ a).trans ih

theorem Leads.since_call {a : c.Answer} (hlead : (f.after c a).Leads work rest g) :
    f.since g = ⟨c, a⟩ :: (f.after c a).since g := by
  rw [since_trans (log_after f c a) hlead.log, since_after, List.singleton_append]

/-- **A call that was made on the way was made somewhere.** -/
theorem Leads.split (hlead : f.Leads work rest g) {e : Answered} (he : e ∈ f.since g) :
    ∃ k next, f.Leads work (.call e.call next) k ∧ k.May e.call e.answer ∧
      (k.after e.call e.answer).Leads (next e.answer) rest g := by
  induction hlead with
  | here work f =>
      rw [since_self] at he
      cases he
  | @call c next f rest g a hmay hlead ih =>
      rw [hlead.since_call] at he
      rcases List.mem_cons.mp he with rfl | he
      · exact ⟨f, next, .here _ f, hmay, hlead⟩
      · obtain ⟨k, next', hbefore, hmay', hafter⟩ := ih he
        exact ⟨k, next', .call a hmay hbefore, hmay', hafter⟩

end Floor

/-! ### Following the calls alone -/

namespace Action

variable {α β : Type} {step : List Answered → Call → Prop} {calls : List Answered}

/--
Whatever is answered, `step` holds of each call and those before it, and `goal` of all of
them at the end.
-/
def Traced (step : List Answered → Call → Prop) (goal : Except Failure α → List Answered → Prop) :
    Action α → List Answered → Prop
  | done a, calls => goal (.ok a) calls
  | fail e, calls => goal (.error e) calls
  | call c rest, calls => step calls c ∧ ∀ a, (rest a).Traced step goal (calls ++ [⟨c, a⟩])

variable {goal goal' : Except Failure α → List Answered → Prop}

theorem Traced.mono {step' : List Answered → Call → Prop} {work : Action α}
    (h : work.Traced step goal calls) (hstep : ∀ calls c, step calls c → step' calls c)
    (hgoal : ∀ r calls, goal r calls → goal' r calls) : work.Traced step' goal' calls := by
  induction work generalizing calls with
  | done a => exact hgoal _ _ h
  | fail e => exact hgoal _ _ h
  | call c rest ih => exact ⟨hstep _ _ h.1, fun a => ih a (h.2 a)⟩

theorem Traced.bind {middle : Except Failure α → List Answered → Prop}
    {goal : Except Failure β → List Answered → Prop} {work : Action α} {next : α → Action β}
    (h : work.Traced step middle calls)
    (hnext : ∀ a calls, middle (.ok a) calls → (next a).Traced step goal calls)
    (hfail : ∀ e calls, middle (.error e) calls → goal (.error e) calls) :
    (work >>= next).Traced step goal calls := by
  induction work generalizing calls with
  | done a => exact hnext a calls h
  | fail e => exact hfail e calls h
  | call c rest ih => exact ⟨h.1, fun a => ih a (h.2 a)⟩

theorem Traced.attempt {goal : Except Failure (Except Failure α) → List Answered → Prop}
    {work : Action α} (h : work.Traced step (fun r => goal (.ok r)) calls) :
    work.attempt.Traced step goal calls := by
  induction work generalizing calls with
  | done a => exact h
  | fail e => exact h
  | call c rest ih => exact ⟨h.1, fun a => ih a (h.2 a)⟩

theorem Traced.attemptError {goal : Except Failure (Except Error α) → List Answered → Prop}
    {work : Action α} (h : work.Traced step (fun r calls => match r with
      | .ok a => goal (.ok (.ok a)) calls
      | .error (.error e) => goal (.ok (.error e)) calls
      | .error o => goal (.error o) calls) calls) : work.attemptError.Traced step goal calls := by
  induction work generalizing calls with
  | done a => exact h
  | fail e => cases e <;> exact h
  | call c rest ih => exact ⟨h.1, fun a => ih a (h.2 a)⟩

/-- What was called before stays called, and stands first. -/
theorem Traced.begins {work : Action α} (h : work.Traced step goal calls) :
    work.Traced (fun earlier c => step earlier c ∧ calls <+: earlier)
      (fun r later => goal r later ∧ calls <+: later) calls := by
  suffices ∀ start, start <+: calls →
      work.Traced (fun earlier c => step earlier c ∧ start <+: earlier)
        (fun r later => goal r later ∧ start <+: later) calls from
    this calls (List.prefix_refl _)
  induction work generalizing calls with
  | done a => exact fun start hstart => ⟨h, hstart⟩
  | fail e => exact fun start hstart => ⟨h, hstart⟩
  | call c rest ih =>
      refine fun start hstart => ⟨⟨h.1, hstart⟩, fun a => ih a (h.2 a) start ?_⟩
      exact hstart.trans (List.prefix_append _ _)

theorem Traced.grows {work : Action α} (h : work.Traced step goal calls) :
    work.Traced step (fun r later => goal r later ∧ calls ⊆ later) calls :=
  h.begins.mono (fun _ _ h => h.1) fun _ _ h => ⟨h.1, h.2.subset⟩

/-- What quiet work ends with, it ends with after whatever calls. -/
theorem Traced.of_quiet {quiet : α → Prop} {work : Action α} (h : work.Traced step goal calls)
    (hquiet : work.Quiet quiet) : work.Traced step
      (fun r later => goal r later ∧ ∀ a, r = .ok a → quiet a) calls := by
  induction work generalizing calls with
  | done a => exact ⟨h, fun b hb => by cases hb; exact hquiet⟩
  | fail e => exact ⟨h, fun b hb => by cases hb⟩
  | call c rest ih => exact ⟨h.1, fun a => ih a (h.2 a) (hquiet.2 a)⟩

/-- **What is traced is so of every run.** -/
theorem Traced.of_leads {f g : Floor} {work rest : Action α} (hlead : f.Leads work rest g)
    (h : work.Traced step goal calls) : rest.Traced step goal (calls ++ f.since g) := by
  induction hlead generalizing calls with
  | here work f =>
      rw [Floor.since_self, List.append_nil]
      exact h
  | call a hmay hlead ih =>
      rw [hlead.since_call, List.append_cons]
      exact ih (h.2 a)

theorem Traced.of_ended {f g : Floor} {work : Action α} {r : Except Failure α}
    (hlead : f.Leads work (.ended r) g) (h : work.Traced step goal calls) :
    goal r (calls ++ f.since g) := by
  have hended := h.of_leads hlead
  cases r <;> exact hended

/-- Each call of a run came after calls of which `step` holds. -/
theorem Traced.step_of_mem {f g : Floor} {work rest : Action α} (hlead : f.Leads work rest g)
    (h : work.Traced step goal calls) {e : Answered} (he : e ∈ f.since g) :
    ∃ earlier, earlier ⊆ calls ++ f.since g ∧ step earlier e.call := by
  obtain ⟨k, next, hbefore, -, hafter⟩ := hlead.split he
  refine ⟨calls ++ f.since k, ?_, (h.of_leads hbefore).1⟩
  have hlog := (k.log_after e.call e.answer).trans hafter.log
  rw [Floor.since_trans hbefore.log hlog, ← List.append_assoc]
  exact List.subset_append_left _ _

end Action

/-! ### What a call leaves in the books -/

/-- Is it a call on the store or the index that was not carried out? -/
def Answered.refused : Answered → Bool
  | ⟨.store _, .error _⟩ => true
  | ⟨.index _, .error _⟩ => true
  | _ => false

/-- Does the call put an entry into the index? -/
def Call.enqueues : Call → Bool
  | index (.enqueue ..) => true
  | _ => false

namespace Floor

variable {f g : Floor} {c : Call} {a : c.Answer} {side : Side} {ticker : String} {id : OrderId}

/-- What is listed after a call was listed before, or the call has put it there. -/
theorem mem_waiting_after (hf : f.index.Tidy)
    (h : id ∈ (f.after c a).index.waiting side ticker) :
    id ∈ f.index.waiting side ticker ∨ ∃ price, c = .index (.enqueue side ticker id price) := by
  cases c with
  | index c =>
      cases a with
      | error e => exact Or.inl h
      | ok a =>
          cases c with
          | list | tickers | size => exact Or.inl h
          | enqueue side' ticker' id' price =>
              obtain ⟨k, hk, hid⟩ := WaitingIndex.mem_waiting.mp h
              rcases hf.mem_keys_enqueue.mp hk with ⟨hbook, rfl⟩ | ⟨hin, -⟩
              · obtain ⟨rfl, rfl⟩ := Prod.mk.inj hbook
                subst hid
                exact Or.inr ⟨price, rfl⟩
              · exact Or.inl (WaitingIndex.mem_waiting.mpr ⟨k, hin, hid⟩)
          | remove side' ticker' id' =>
              obtain ⟨k, hk, hid⟩ := WaitingIndex.mem_waiting.mp h
              exact Or.inl (WaitingIndex.mem_waiting.mpr ⟨k, (hf.mem_keys_remove.mp hk).1, hid⟩)
  | _ => exact Or.inl h

/-- What is listed stays so, unless the call takes it out. -/
theorem waiting_after (hf : f.index.Tidy) (h : id ∈ f.index.waiting side ticker)
    (hc : c ≠ .index (.remove side ticker id)) :
    id ∈ (f.after c a).index.waiting side ticker := by
  cases c with
  | index c =>
      cases a with
      | error e => exact h
      | ok a =>
          obtain ⟨k, hk, hid⟩ := WaitingIndex.mem_waiting.mp h
          cases c with
          | list | tickers | size => exact h
          | enqueue side' ticker' id' price =>
              refine WaitingIndex.mem_waiting.mpr ?_
              by_cases hsame : (side, ticker) = (side', ticker') ∧ k.order = id'
              · exact ⟨_, hf.mem_keys_enqueue.mpr (Or.inl ⟨hsame.1, rfl⟩), hsame.2.symm.trans hid⟩
              · exact ⟨k, hf.mem_keys_enqueue.mpr
                  (Or.inr ⟨hk, fun hbook horder => hsame ⟨hbook, horder⟩⟩), hid⟩
          | remove side' ticker' id' =>
              refine WaitingIndex.mem_waiting.mpr ⟨k, hf.mem_keys_remove.mpr ⟨hk, ?_⟩, hid⟩
              rintro hbook rfl
              obtain ⟨rfl, rfl⟩ := Prod.mk.inj hbook
              exact hc (by rw [hid])
  | _ => exact h

/-- What is taken out is not listed any more. -/
theorem not_waiting_removed (hf : f.index.Tidy) (removed : Bool) :
    id ∉ (f.after (.index (.remove side ticker id)) (.ok removed)).index.waiting side ticker := by
  intro h
  obtain ⟨k, hk, hid⟩ := WaitingIndex.mem_waiting.mp h
  exact (hf.mem_keys_remove.mp hk).2 rfl hid

/-- What is put in is listed. -/
theorem waiting_enqueued (hf : f.index.Tidy) (price : Decimal) : id ∈
    (f.after (.index (.enqueue side ticker id price)) (.ok ())).index.waiting side ticker :=
  WaitingIndex.mem_waiting.mpr
    ⟨.ofPrice side price id, hf.mem_keys_enqueue.mpr (Or.inl ⟨rfl, rfl⟩), rfl⟩

variable {α : Type} {work rest : Action α}

theorem Leads.tidy (hlead : f.Leads work rest g) (hf : f.index.Tidy) : g.index.Tidy := by
  induction hlead with
  | here work f => exact hf
  | call a hmay _ ih => exact ih (indexAfter_tidy hf _ a)

/-- **What is listed in the end was listed before or was put in on the way.** -/
theorem Leads.waiting_or (hlead : f.Leads work rest g) (hf : f.index.Tidy)
    (h : id ∈ g.index.waiting side ticker) : id ∈ f.index.waiting side ticker ∨
      ∃ e ∈ f.since g, ∃ price, e.call = .index (.enqueue side ticker id price) := by
  induction hlead with
  | here work f => exact Or.inl h
  | @call c next f rest g a hmay hlead ih =>
      rw [hlead.since_call]
      rcases ih (indexAfter_tidy hf c a) h with hin | ⟨e, he, hput⟩
      · rcases mem_waiting_after hf hin with hin | hput
        · exact Or.inl hin
        · exact Or.inr ⟨⟨c, a⟩, List.mem_cons_self, hput⟩
      · exact Or.inr ⟨e, List.mem_cons_of_mem _ he, hput⟩

/-- **What was listed still is, unless it was taken out on the way.** -/
theorem Leads.waiting (hlead : f.Leads work rest g) (hf : f.index.Tidy)
    (h : id ∈ f.index.waiting side ticker)
    (hkept : ∀ e ∈ f.since g, e.call ≠ .index (.remove side ticker id)) :
    id ∈ g.index.waiting side ticker := by
  induction hlead with
  | here work f => exact h
  | @call c next f rest g a hmay hlead ih =>
      rw [hlead.since_call] at hkept
      refine ih (indexAfter_tidy hf c a) (waiting_after hf h ?_) fun e he => ?_
      · exact hkept ⟨c, a⟩ List.mem_cons_self
      · exact hkept e (List.mem_cons_of_mem _ he)

end Floor

/-- Was the entry to be taken out of the book of that side and ticker? -/
def Removed (side : Side) (ticker : String) (id : OrderId) (calls : List Answered) : Prop :=
  ∃ a, (⟨.index (.remove side ticker id), a⟩ : Answered) ∈ calls

theorem Removed.mono {side : Side} {ticker : String} {id : OrderId} {calls later : List Answered}
    (h : Removed side ticker id calls) (hsub : calls ⊆ later) : Removed side ticker id later :=
  h.imp fun _ hin => hsub hin

namespace Floor

variable {α : Type} {f g : Floor} {work rest : Action α} {side : Side} {ticker : String}
  {id : OrderId}

/-- **What was taken out is not listed in the end, if nothing is put in.** -/
theorem Leads.not_waiting (hlead : f.Leads work rest g) (hf : f.index.Tidy)
    (hgiven : ∀ e ∈ f.since g, e.refused = false)
    (hput : ∀ e ∈ f.since g, e.call.enqueues = false) (h : Removed side ticker id (f.since g)) :
    id ∉ g.index.waiting side ticker := by
  obtain ⟨a, ha⟩ := h
  obtain ⟨k, next, hbefore, -, hafter⟩ := hlead.split ha
  have hlog := (k.log_after _ _).trans hafter.log
  have hk := hbefore.tidy hf
  intro hin
  cases a with
  | error e => exact nomatch hgiven _ ha
  | ok removed =>
      rcases hafter.waiting_or (indexAfter_tidy hk _ _) hin with hin | ⟨e, he, price, hcall⟩
      · exact not_waiting_removed hk removed hin
      · have he : e ∈ f.since g := by
          rw [since_trans hbefore.log hlog, since_trans (k.log_after _ _) hafter.log]
          simp [he]
        have hnone := hput e he
        rw [hcall] at hnone
        cases hnone

end Floor

/-! ### What a call makes of the orders -/

/-- The orders that a call has written. -/
def Answered.made : Answered → List Order
  | ⟨.store (.insert ..), .ok o⟩ => [o]
  | ⟨.store (.commit fill), .ok (.committed _)⟩ => [fill.incoming, fill.counter]
  | ⟨.store (.cancel ..), .ok (some o)⟩ => [o]
  | _ => []

namespace Floor

variable {α : Type} {f g : Floor} {work rest : Action α} {c : Call} {a : c.Answer} {p : Order}

/-- An order on record after a call was so before, or the call has made it so. -/
theorem mem_orders_after (hmay : f.May c a) (hp : p ∈ (f.after c a).store.orders) :
    p ∈ f.store.orders ∨ p ∈ Answered.made ⟨c, a⟩ := by
  cases c with
  | store c =>
      cases a with
      | error e => exact Or.inl hp
      | ok a =>
          cases (show a = (f.store.perform c).1 from hmay)
          cases c with
          | load | loadMany | executions | live => exact Or.inl hp
          | insert request time => exact List.mem_append.mp hp
          | cancel id time =>
              have hp : p ∈ (f.store.cancel id time).2.orders := hp
              show _ ∨ p ∈ Answered.made ⟨.store (.cancel id time), .ok (f.store.cancel id time).1⟩
              rcases f.store.cancel_cases id time with ⟨o, -, -, hcancel⟩ | hcancel
              · rw [hcancel] at hp ⊢
                exact (Store.mem_orders_replace hp).symm.imp_right List.mem_singleton.mpr
              · rw [hcancel] at hp
                exact Or.inl hp
          | commit fill =>
              rcases f.store.commit_cases fill with ⟨q, r, takes⟩ | ⟨hsame, -⟩
              · have hmade : Answered.made ⟨.store (.commit fill),
                    .ok (f.store.perform (.commit fill)).1⟩ = [fill.incoming, fill.counter] := by
                  rw [show (f.store.perform (.commit fill)).1 = _ from takes.committed.1]
                  rfl
                have hfind := Store.mem_orders_iff.mp hp
                have hstore : (f.after (.store (.commit fill))
                  (.ok (f.store.perform (.commit fill)).1)).store = (f.store.commit fill).2 := rfl
                rw [hstore, takes.find?_commit] at hfind
                rw [hmade]
                split at hfind
                · cases hfind
                  exact Or.inr (by simp)
                · split at hfind
                  · cases hfind
                    exact Or.inr (by simp)
                  · exact Or.inl (Store.mem_orders_iff.mpr hfind)
              · have hp : p ∈ (f.store.commit fill).2.orders := hp
                rw [hsame] at hp
                exact Or.inl hp
  | _ => exact Or.inl hp

/-- **An order on record was so before, or some call on the way has made it so.** -/
theorem Leads.mem_orders (hlead : f.Leads work rest g) (hp : p ∈ g.store.orders) :
    p ∈ f.store.orders ∨ ∃ e ∈ f.since g, p ∈ e.made := by
  induction hlead with
  | here work f => exact Or.inl hp
  | call a hmay hlead ih =>
      rw [hlead.since_call]
      rcases ih hp with hin | ⟨e, he, hmade⟩
      · rcases mem_orders_after hmay hin with hin | hmade
        · exact Or.inl hin
        · exact Or.inr ⟨_, List.mem_cons_self, hmade⟩
      · exact Or.inr ⟨e, List.mem_cons_of_mem _ he, hmade⟩

end Floor

end Bourse
