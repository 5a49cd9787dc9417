/-
A fault cuts a match between two fills.

Two runs of the same turn are compared: one in which every call is carried out, and one
in which any call may fail.  What makes them comparable is how the work takes its
answers.  Until the walk begins it is `Strict`: a call that fails is its own failure, so
up to its end the run that faults sees what the other one sees.  The walk is `Heedless`:
it heeds the store, whose failure is its own, and the clock, and of all else it does not
matter what is answered.  An entry that is not taken out or an event that does not get
through changes nothing that comes after, though the two indexes differ from then on.

Nothing is asked of the floor that the turn begins on: with the same store and the same
clock the two walks do the same until one of them ends.
-/
import Bourse.Proofs.Matching
import Bourse.Proofs.Trace

namespace Bourse

/-! ### What a run tells -/

namespace Answered

/-- The fill that the call has committed. -/
def fill? : Answered → Option FillCommit
  | ⟨.store (.commit fill), .ok (.committed _)⟩ => some fill
  | _ => none

/-- The event that the call hands on, whether it gets through or not. -/
def event? : Answered → Option FillEvent
  | ⟨.notify event, _⟩ => some event
  | _ => none

/-- The time that the call reads off the clock. -/
def reading? : Answered → Option Instant
  | ⟨.now, time⟩ => some time
  | _ => none

theorem eq_of_fill? {x : Answered} {fill : FillCommit} (h : x.fill? = some fill) :
    ∃ receipt, x = ⟨.store (.commit fill), .ok (.committed receipt)⟩ := by
  unfold fill? at h
  split at h
  · rename_i receipt
    cases h
    exact ⟨receipt, rfl⟩
  · cases h

end Answered

theorem Call.fill?_of_quiet {c : Call} (hc : c.quiet = true) (a : c.Answer) :
    Answered.fill? ⟨c, a⟩ = none := by
  cases c with
  | store c =>
      cases c with
      | insert | commit | cancel => cases hc
      | load | loadMany | executions | live => rfl
  | _ => rfl

/-- The store after some fills. -/
def Store.commitAll (s : Store) (fills : List FillCommit) : Store :=
  fills.foldl (fun s fill => (s.commit fill).2) s

theorem Store.commitAll_append (s : Store) (fills more : List FillCommit) :
    s.commitAll (fills ++ more) = (s.commitAll fills).commitAll more := List.foldl_append

namespace Floor

/-- The fills that were committed on the way, in order. -/
def fillsSince (f g : Floor) : List FillCommit := (f.since g).filterMap (·.fill?)

/-- The events that were handed on on the way, in order. -/
def eventsSince (f g : Floor) : List FillEvent := (f.since g).filterMap (·.event?)

/-- All that was ever read off the clock. -/
def readings (f : Floor) : List Instant := f.log.filterMap (·.reading?)

/-- From `f` on, the readings that led to `g` are those of the clock. -/
def Follows (clock : Nat → Instant) (f g : Floor) : Prop :=
  ∀ n time, f.readings.length ≤ n → g.readings[n]? = some time → time = clock n

/-- Does work to its end on a floor that refuses nothing, with the times that the clock shows. -/
def undisturbed {α : Type} (clock : Nat → Instant) (f : Floor) (work : Action α) :
    Except Failure α × Floor :=
  f.answering (fun f => f.grant (clock f.readings.length)) work

variable {α β : Type} {f g h w : Floor} {clock : Nat → Instant} {c : Call}
  {work rest : Action α}

/-! ### Logs that grow -/

theorem fillsSince_trans (hfg : f.log <+: g.log) (hgh : g.log <+: h.log) :
    f.fillsSince h = f.fillsSince g ++ g.fillsSince h := by
  unfold fillsSince
  rw [since_trans hfg hgh, List.filterMap_append]

theorem eventsSince_trans (hfg : f.log <+: g.log) (hgh : g.log <+: h.log) :
    f.eventsSince h = f.eventsSince g ++ g.eventsSince h := by
  unfold eventsSince
  rw [since_trans hfg hgh, List.filterMap_append]

theorem fillsSince_after (f : Floor) (c : Call) (a : c.Answer) :
    f.fillsSince (f.after c a) = (Answered.fill? ⟨c, a⟩).toList := by
  unfold fillsSince
  rw [since_after]
  cases hfill : Answered.fill? ⟨c, a⟩ <;> simp [hfill]

theorem eventsSince_after (f : Floor) (c : Call) (a : c.Answer) :
    f.eventsSince (f.after c a) = (Answered.event? ⟨c, a⟩).toList := by
  unfold eventsSince
  rw [since_after]
  cases hevent : Answered.event? ⟨c, a⟩ <;> simp [hevent]

theorem leads_undisturbed (clock : Nat → Instant) (f : Floor) (work : Action α) :
    f.Leads work (.ended (f.undisturbed clock work).1) (f.undisturbed clock work).2 :=
  leads_answering (fun f => f.may_grant _) f work

/-! ### The clock -/

theorem readings_after (f : Floor) (c : Call) (a : c.Answer) :
    (f.after c a).readings = f.readings ++ (Answered.reading? ⟨c, a⟩).toList := by
  unfold readings
  rw [after_log, List.filterMap_append]
  cases hreading : Answered.reading? ⟨c, a⟩ <;> simp [hreading]

theorem Follows.later (hclock : f.Follows clock h) (hfg : f.log <+: g.log) :
    g.Follows clock h := by
  obtain ⟨calls, hlog⟩ := hfg
  intro n time hn
  refine hclock n time (Nat.le_trans ?_ hn)
  simp [readings, ← hlog]

/-- The clock is read where the floor has come to. -/
theorem Follows.now {time : Instant} (hclock : f.Follows clock g)
    (hlog : (f.after .now time).log <+: g.log) : time = clock f.readings.length := by
  refine hclock _ time (Nat.le_refl _) ?_
  have hreadings : g.readings = f.readings ++ time ::
      ((f.after .now time).since g).filterMap (·.reading?) := by
    unfold readings
    rw [log_eq hlog, after_log]
    simp [Answered.reading?]
  simp [hreadings]

/-! ### What happens on the way -/

/-- On the way nothing was filled and nothing was told. -/
structure Silent (f g : Floor) : Prop where
  log : f.log <+: g.log
  store : g.store = f.store
  fills : f.fillsSince g = []
  events : f.eventsSince g = []

/-- On the way fills were committed and told of, one after the other, and that was all. -/
structure Tells (f g : Floor) : Prop where
  log : f.log <+: g.log
  store : g.store = f.store.commitAll (f.fillsSince g)
  events : f.eventsSince g = (f.fillsSince g).map FillCommit.event

theorem Silent.refl (f : Floor) : f.Silent f := by
  refine ⟨List.prefix_refl _, rfl, ?_, ?_⟩
  · simp [fillsSince, since_self]
  · simp [eventsSince, since_self]

theorem Silent.trans (hfg : f.Silent g) (hgh : g.Silent h) : f.Silent h where
  log := hfg.log.trans hgh.log
  store := hgh.store.trans hfg.store
  fills := by rw [fillsSince_trans hfg.log hgh.log, hfg.fills, hgh.fills, List.append_nil]
  events := by rw [eventsSince_trans hfg.log hgh.log, hfg.events, hgh.events, List.append_nil]

theorem Silent.tells (hfg : f.Silent g) : f.Tells g := by
  refine ⟨hfg.log, ?_, ?_⟩
  · rw [hfg.fills]
    exact hfg.store
  · rw [hfg.events, hfg.fills]
    rfl

theorem Tells.trans (hfg : f.Tells g) (hgh : g.Tells h) : f.Tells h where
  log := hfg.log.trans hgh.log
  store := by
    rw [fillsSince_trans hfg.log hgh.log, Store.commitAll_append, ← hfg.store]
    exact hgh.store
  events := by
    rw [eventsSince_trans hfg.log hgh.log, fillsSince_trans hfg.log hgh.log, List.map_append,
      hfg.events, hgh.events]

theorem silent_of_call {a : c.Answer} (hstore : f.storeAfter c a = f.store)
    (hfill : Answered.fill? ⟨c, a⟩ = none) (hevent : Answered.event? ⟨c, a⟩ = none) :
    f.Silent (f.after c a) := by
  refine ⟨log_after f c a, hstore, ?_, ?_⟩
  · rw [fillsSince_after, hfill]
    rfl
  · rw [eventsSince_after, hevent]
    rfl

/-- A call that writes nothing and tells nothing. -/
theorem silent_of_quiet {a : c.Answer} (hc : c.quiet = true)
    (hevent : Answered.event? ⟨c, a⟩ = none) : f.Silent (f.after c a) :=
  silent_of_call (storeAfter_of_quiet hc a) (Call.fill?_of_quiet hc a) hevent

/-- A fill that has gone through and was told of. -/
theorem Tells.fill {fill : FillCommit} {receipt : FillReceipt}
    (h : (f.after (.store (.commit fill)) (.ok (.committed receipt))).Silent g) (told : Bool) :
    f.Tells (g.after (.notify fill.event) told) := by
  have hlog := (f.log_after (.store (.commit fill)) (.ok (.committed receipt))).trans h.log
  have hfills : f.fillsSince g = [fill] := by
    rw [fillsSince_trans (log_after ..) h.log, h.fills, fillsSince_after]
    rfl
  have hevents : f.eventsSince g = [] := by
    rw [eventsSince_trans (log_after ..) h.log, h.events, eventsSince_after]
    rfl
  have hfills' : f.fillsSince (g.after (.notify fill.event) told) = [fill] := by
    rw [fillsSince_trans hlog (log_after ..), hfills, fillsSince_after]
    rfl
  refine ⟨hlog.trans (log_after ..), ?_, ?_⟩
  · rw [hfills']
    exact h.store
  · rw [hfills', eventsSince_trans hlog (log_after ..), hevents, eventsSince_after]
    rfl

/-- The last call was refused by the store or the index. -/
def Stopped (f g : Floor) : Prop := ∃ e, (f.since g).getLast? = some e ∧ e.refused = true

theorem Stopped.earlier (hgh : g.Stopped h) (hfg : f.log <+: g.log) (hlog : g.log <+: h.log) :
    f.Stopped h := by
  obtain ⟨e, hlast, he⟩ := hgh
  refine ⟨e, ?_, he⟩
  rw [since_trans hfg hlog, List.getLast?_append, hlast]
  rfl

end Floor

namespace Action

variable {α β : Type} {f g w : Floor} {clock : Nat → Instant}

/-! ### Strict work -/

/-- Work that looks around and fails with the first call that fails. -/
def Strict : Action α → Prop
  | done _ => True
  | call (.store c) rest => (Call.store c).quiet = true ∧
      (∀ e, rest (.error e) = fail (.error e)) ∧ ∀ a, (rest (.ok a)).Strict
  | call (.index _) rest =>
      (∀ e, rest (.error e) = fail (.error e)) ∧ ∀ a, (rest (.ok a)).Strict
  | _ => False

theorem strict_store {c : StoreCall} (hc : (Call.store c).quiet = true) : (store c).Strict :=
  ⟨hc, fun _ => rfl, fun _ => trivial⟩

theorem strict_index (c : IndexCall) : (index c).Strict := ⟨fun _ => rfl, fun _ => trivial⟩

theorem Strict.bind {work : Action α} {next : α → Action β} (h : work.Strict)
    (hnext : ∀ a, (next a).Strict) : (work >>= next).Strict := by
  induction work with
  | done a => exact hnext a
  | fail e => cases h
  | call c rest ih =>
      cases c with
      | store c =>
          obtain ⟨hc, hfail, hrest⟩ := h
          exact ⟨hc, fun e => congrArg (· >>= next) (hfail e), fun a => ih (.ok a) (hrest a)⟩
      | index c =>
          obtain ⟨hfail, hrest⟩ := h
          exact ⟨fun e => congrArg (· >>= next) (hfail e), fun a => ih (.ok a) (hrest a)⟩
      | _ => cases h

/-- **Strict work ends with the first call that fails, or goes as it does undisturbed.** -/
theorem Strict.split {work : Action α} (hwork : work.Strict) {next : α → Action β}
    {r : Except Failure β} (hlead : f.Leads (work >>= next) (.ended r) g) :
    (∃ e, r = .error e) ∧ f.Silent g ∧ f.Stopped g ∨
      ∃ a k, f.Silent k ∧ k.Leads (next a) (.ended r) g ∧
        f.undisturbed clock (work >>= next) = k.undisturbed clock (next a) := by
  induction work generalizing f with
  | done a => exact Or.inr ⟨a, f, .refl f, hlead, rfl⟩
  | fail e => cases hwork
  | call c rest ih =>
      obtain ⟨answer, hmay, hlead⟩ := hlead.of_call
      -- A call that is answered as on any floor that refuses nothing leaves the rest to do.
      have answered (hanswer : answer = f.grant (clock f.readings.length) c)
          (hstrict : (rest answer).Strict) (hsilent : f.Silent (f.after c answer)) :
          (∃ e, r = .error e) ∧ f.Silent g ∧ f.Stopped g ∨ ∃ a k, f.Silent k ∧
            k.Leads (next a) (.ended r) g ∧
            f.undisturbed clock (call c rest >>= next) = k.undisturbed clock (next a) := by
        subst hanswer
        refine (ih _ hstrict hlead).imp (fun ⟨he, hg, hstopped⟩ => ?_) fun ⟨a, k, hk, hrest⟩ => ?_
        · exact ⟨he, hsilent.trans hg, hstopped.earlier hsilent.log hlead.log⟩
        · exact ⟨a, k, hsilent.trans hk, hrest⟩
      -- A call that fails is the end.
      have failed (e : Error) (hfail : rest answer = fail (.error e))
          (hrefused : Answered.refused ⟨c, answer⟩ = true)
          (hsilent : f.Silent (f.after c answer)) :
          (∃ e, r = .error e) ∧ f.Silent g ∧ f.Stopped g := by
        have hlead : (f.after c answer).Leads (fail (.error e)) (.ended r) g := by
          rw [hfail] at hlead
          exact hlead
        obtain ⟨hr, rfl⟩ := hlead.of_fail
        refine ⟨⟨_, hr⟩, hsilent, ⟨c, answer⟩, ?_, hrefused⟩
        rw [Floor.since_after]
        rfl
      cases c with
      | store c =>
          obtain ⟨hc, hfail, hrest⟩ := hwork
          cases answer with
          | error e => exact Or.inl (failed e (hfail e) rfl (Floor.silent_of_quiet hc rfl))
          | ok a =>
              refine answered ?_ (hrest a) (Floor.silent_of_quiet hc rfl)
              exact congrArg Except.ok hmay
      | index c =>
          obtain ⟨hfail, hrest⟩ := hwork
          cases answer with
          | error e => exact Or.inl (failed e (hfail e) rfl (Floor.silent_of_quiet rfl rfl))
          | ok a =>
              refine answered ?_ (hrest a) (Floor.silent_of_quiet rfl rfl)
              exact congrArg Except.ok hmay
      | _ => cases hwork

/-! ### Heedless work -/

/--
Work that fails with a call on the store that fails, and does not care what else is
answered, the time apart.
-/
def Heedless : Action α → Prop
  | done _ | fail _ => True
  | call (.store _) rest => (∀ e, rest (.error e) = fail (.error e)) ∧ ∀ a, (rest a).Heedless
  | call .now rest => ∀ a, (rest a).Heedless
  | call _ rest => (∀ a b, rest a = rest b) ∧ ∀ a, (rest a).Heedless

theorem Heedless.bind {work : Action α} {next : α → Action β} (h : work.Heedless)
    (hnext : ∀ a, (next a).Heedless) : (work >>= next).Heedless := by
  induction work with
  | done a => exact hnext a
  | fail e => trivial
  | call c rest ih =>
      cases c with
      | store c =>
          obtain ⟨hfail, hrest⟩ := h
          exact ⟨fun e => congrArg (· >>= next) (hfail e), fun a => ih a (hrest a)⟩
      | now => exact fun a => ih a (h a)
      | _ =>
          obtain ⟨hsame, hrest⟩ := h
          exact ⟨fun a b => congrArg (· >>= next) (hsame a b), fun a => ih a (hrest a)⟩

theorem heedless_ofExcept (r : Except Error α) : (ofExcept r).Heedless := by
  cases r <;> trivial

/--
What a run from `f` has come to when it ends with `r` on `g`, as against a run from `w`:
the same, or less of it, because a call on the store has failed.
-/
def Short (f w : Floor) (whole : Except Failure α × Floor) (r : Except Failure α)
    (g : Floor) : Prop :=
  r = whole.1 ∧ f.fillsSince g = w.fillsSince whole.2 ∨
    (∃ e, r = .error e) ∧ f.fillsSince g <+: w.fillsSince whole.2 ∧
      ∃ c e, (f.since g).getLast? = some ⟨.store c, .error e⟩

theorem Short.call {whole : Except Failure α × Floor} {r : Except Failure α} {c : Call}
    {a b : c.Answer} (h : Short (f.after c a) (w.after c b) whole r g)
    (hfill : Answered.fill? ⟨c, a⟩ = Answered.fill? ⟨c, b⟩)
    (hf : (f.after c a).log <+: g.log) (hw : (w.after c b).log <+: whole.2.log) :
    Short f w whole r g := by
  unfold Short at h ⊢
  rw [Floor.fillsSince_trans (f.log_after c a) hf, Floor.fillsSince_trans (w.log_after c b) hw,
    Floor.fillsSince_after, Floor.fillsSince_after, hfill]
  refine h.imp (fun ⟨hr, hsame⟩ => ⟨hr, by rw [hsame]⟩) fun ⟨hr, hfirst, d, e, hlast⟩ => ?_
  refine ⟨hr, (List.prefix_append_right_inj _).mpr hfirst, d, e, ?_⟩
  rw [Floor.since_trans (f.log_after c a) hf, List.getLast?_append, hlast]
  rfl

/-- **Heedless work falls short of what it does undisturbed only if the store fails.** -/
theorem Heedless.short {work : Action α} (hwork : work.Heedless) {r : Except Failure α}
    (hstore : f.store = w.store) (hread : f.readings.length = w.readings.length)
    (hlead : f.Leads work (.ended r) g) (hclock : f.Follows clock g) :
    Short f w (w.undisturbed clock work) r g := by
  induction work generalizing f w with
  | done a =>
      obtain ⟨rfl, rfl⟩ := hlead.of_done
      exact Or.inl ⟨rfl, (Floor.Silent.refl g).fills.trans (Floor.Silent.refl w).fills.symm⟩
  | fail e =>
      obtain ⟨rfl, rfl⟩ := hlead.of_fail
      exact Or.inl ⟨rfl, (Floor.Silent.refl g).fills.trans (Floor.Silent.refl w).fills.symm⟩
  | call c rest ih =>
      obtain ⟨a, hmay, hlead⟩ := hlead.of_call
      -- The same is done next, whatever the two runs were answered.
      have next (hrest : (rest a).Heedless)
          (hsame : rest a = rest (w.grant (clock w.readings.length) c))
          (hfill : Answered.fill? ⟨c, a⟩ =
            Answered.fill? ⟨c, w.grant (clock w.readings.length) c⟩)
          (hstore : (f.after c a).store =
            (w.after c (w.grant (clock w.readings.length) c)).store) :
          Short f w (w.undisturbed clock (call c rest)) r g := by
        rw [hsame] at hrest hlead
        refine (ih _ hrest hstore ?_ hlead (hclock.later (f.log_after c a))).call hfill
          hlead.log (Floor.leads_undisturbed clock _ _).log
        cases c <;> simp [Floor.readings_after, Answered.reading?, hread]
      cases c with
      | store c =>
          obtain ⟨hfail, hrest⟩ := hwork
          cases a with
          | ok a =>
              have ha : a = (w.store.perform c).1 := hstore ▸ hmay
              subst ha
              refine next (hrest _) rfl rfl ?_
              show (f.store.perform c).2 = (w.store.perform c).2
              rw [hstore]
          | error e =>
              rw [hfail] at hlead
              obtain ⟨rfl, rfl⟩ := hlead.of_fail
              refine Or.inr ⟨⟨_, rfl⟩, ?_, c, e, ?_⟩
              · rw [Floor.fillsSince_after]
                cases c <;> exact List.nil_prefix
              · rw [Floor.since_after]
                rfl
      | now =>
          have ha : a = clock w.readings.length := hread ▸ hclock.now hlead.log
          subst ha
          exact next (hwork _) rfl rfl hstore
      | _ =>
          obtain ⟨hsame, hrest⟩ := hwork
          exact next (hrest a) (hsame _ _) rfl hstore

end Action

open Bourse.Action

/-! ### A turn -/

theorem Order.heedless_dropFilled (o : Order) (ticker : String) :
    (o.dropFilled ticker).Heedless := by
  unfold Order.dropFilled
  split
  · refine ⟨fun a b => ?_, fun a => ?_⟩
    · cases a <;> cases b <;> rfl
    · cases a <;> trivial
  · trivial

theorem FillCommit.heedless_settle (fill : FillCommit) (ticker : String) :
    (fill.settle ticker).Heedless :=
  ⟨fun _ _ => rfl, fun _ => (fill.counter.heedless_dropFilled ticker).bind fun _ =>
    ⟨fun _ _ => rfl, fun _ => trivial⟩⟩

theorem heedless_walk (scale : Nat) (ticker : String) (counters : List Order) (o : Order) :
    (walk scale ticker counters o).Heedless := by
  induction counters generalizing o with
  | nil => trivial
  | cons c cs ih =>
      unfold walk
      split
      · trivial
      · refine fun time => (heedless_ofExcept _).bind fun fill => ?_
        have hcommit : (store (.commit fill)).Heedless :=
          ⟨fun _ => rfl, fun a => by cases a <;> trivial⟩
        refine hcommit.bind fun outcome => ?_
        cases outcome with
        | committed receipt =>
            exact (fill.heedless_settle ticker).bind fun _ => (ih _).bind fun _ => trivial
        | counterUnavailable => exact ih o
        | incomingUnavailable => trivial

theorem Order.strict_nominated (o : Order) (loaded : List Order) (ids : List OrderId) :
    (o.nominated loaded ids).Strict := by
  induction ids with
  | nil => trivial
  | cons id ids ih =>
      have hdrop : (o.dropStale id (o.nominated loaded ids)).Strict :=
        (strict_index _).bind fun _ => ih.bind fun _ => trivial
      unfold nominated
      split
      · split
        · exact ih.bind fun _ => trivial
        · exact hdrop
      · exact hdrop

theorem Order.strict_candidates (o : Order) : o.candidates.Strict := by
  unfold candidates
  refine (strict_index _).bind fun ids => ?_
  dsimp only
  split
  · trivial
  · exact (strict_store rfl).bind fun loaded =>
      (o.strict_nominated loaded ids).bind fun _ => trivial

/-! ### Telling of every fill -/

variable {scale : Nat} {f g : Floor}

/-- Whatever is answered, a filled order is dropped silently. -/
theorem Order.dropFilled_silent (o : Order) (ticker : String) :
    (o.dropFilled ticker).Ensures (fun _ => True) (fun r g => r = .ok () ∧ f.Silent g) f := by
  unfold Order.dropFilled
  split
  · intro a _
    have hsilent : f.Silent (f.after (.index (.remove o.side ticker o.id)) a) :=
      Floor.silent_of_quiet rfl rfl
    refine ⟨trivial, ?_⟩
    cases a <;> exact ⟨rfl, hsilent⟩
  · exact ⟨rfl, .refl f⟩

theorem FillCommit.settle_ensures (fill : FillCommit) (ticker : String) :
    (fill.settle ticker).Ensures (fun _ => True) (fun r g => r = .ok () ∧
      ∃ k told, f.Silent k ∧ g = k.after (.notify fill.event) told) f := by
  refine fun _ _ => ⟨trivial, ?_⟩
  have hrecord : f.Silent (f.after (.recordFill fill.amount fill.completed) ()) :=
    Floor.silent_of_quiet rfl rfl
  show (fill.counter.dropFilled ticker >>= _).Ensures _ _ _
  refine (fill.counter.dropFilled_silent ticker).bind trivial (fun _ k _ hk => ?_) ?_
  · exact fun told _ => ⟨trivial, rfl, k, told, hrecord.trans hk.2, rfl⟩
  · exact fun e k _ hk => nomatch hk.1

/-- A fill that is turned away leaves all as it was. -/
theorem Floor.silent_of_turned {fill : FillCommit} {outcome : FillOutcome}
    (hmay : outcome = (f.store.commit fill).1) (hturned : ∀ receipt, outcome ≠ .committed receipt) :
    f.Silent (f.after (.store (.commit fill)) (.ok outcome)) := by
  rcases f.store.commit_cases fill with ⟨p, q, takes⟩ | ⟨hsame, -⟩
  · exact absurd (hmay.trans takes.committed.1) (hturned _)
  · refine silent_of_call hsame ?_ rfl
    cases outcome with
    | committed receipt => exact absurd rfl (hturned receipt)
    | counterUnavailable | incomingUnavailable => rfl

/-- **A walk writes to the store only what it tells**, and tells all of it. -/
theorem walk_tells (ticker : String) (counters : List Order) (o : Order) :
    (walk scale ticker counters o).Ensures (fun _ => True) (fun _ g => f.Tells g) f := by
  induction counters generalizing o f with
  | nil => exact (Floor.Silent.refl f).tells
  | cons c cs ih =>
      unfold walk
      split
      · exact (Floor.Silent.refl f).tells
      · intro time _
        have hread : f.Silent (f.after .now time) := Floor.silent_of_quiet rfl rfl
        refine ⟨trivial, ?_⟩
        have hrest {g : Floor} (h : (f.after .now time).Tells g) (o : Order) :
            (walk scale ticker cs o).Ensures (fun _ => True) (fun _ g => f.Tells g) g :=
          (ih o).mono (fun _ _ _ hg => (hread.tells.trans h).trans hg) trivial
        show (ofExcept (o.fillWith c scale time) >>= _).Ensures _ _ _
        cases o.fillWith c scale time with
        | error e => exact hread.tells
        | ok fill =>
            intro a hmay
            refine ⟨trivial, ?_⟩
            cases a with
            | error e => exact (hread.trans (Floor.silent_of_call rfl rfl rfl)).tells
            | ok outcome =>
                cases outcome with
                | committed receipt =>
                    refine (fill.settle_ensures ticker).bind trivial (fun _ g _ hg => ?_)
                      fun _ _ _ hg => by cases hg.1
                    obtain ⟨-, k, told, hk, rfl⟩ := hg
                    exact (hrest (.fill hk told) fill.incoming).bind trivial (fun _ _ _ h => h)
                      fun _ _ _ h => h
                | counterUnavailable =>
                    exact hrest (Floor.silent_of_turned hmay (by simp)).tells o
                | incomingUnavailable =>
                    exact (hread.trans (Floor.silent_of_turned hmay (by simp))).tells

/-! ### The cut -/

/--
Calls that follow a fill: one that hands on an event, or takes an order out of the index
that one of these fills has completed.
-/
def Call.Sequel (ticker : String) (fills : List FillCommit) (c : Call) : Prop :=
  (∃ event, c = .notify event) ∨ ∃ fill ∈ fills, ∃ o, (o = fill.incoming ∨ o = fill.counter) ∧
    o.status = .filled ∧ c = .index (.remove o.side ticker o.id)

/--
How a turn from `f` that has ended with `r` on `g` compares with the turn `whole` from
the same floor.
-/
structure Floor.Cut (ticker : String) (f : Floor) (whole : Except Failure MatchReport × Floor)
    (r : Except Failure MatchReport) (g : Floor) : Prop where
  /-- It has committed the first of the fills. -/
  fills : f.fillsSince g <+: f.fillsSince whole.2
  /-- All that has become of the store are these fills. -/
  store : g.store = f.store.commitAll (f.fillsSince g)
  /-- The events that were handed on are those of these fills. -/
  events : f.eventsSince g = (f.fillsSince g).map FillCommit.event
  /-- If it has ended well, then with all of the fills and with the same report. -/
  report : ∀ report, r = .ok report → whole.1 = .ok report ∧ f.fillsSince g = f.fillsSince whole.2
  /-- What has cut it short is its last call, and that was not one that follows a fill. -/
  short : r = whole.1 ∧ f.fillsSince g = f.fillsSince whole.2 ∨ ∃ e, (f.since g).getLast? = some e ∧
    e.served = false ∧ ¬ e.call.Sequel ticker (f.fillsSince g)

namespace Floor.Cut

variable {ticker : String} {h k : Floor} {whole : Except Failure MatchReport × Floor}
  {r : Except Failure MatchReport}

theorem after_silent (hfk : f.Silent k) (hwhole : k.log <+: whole.2.log) (hlog : k.log <+: g.log)
    (hcut : k.Cut ticker whole r g) : f.Cut ticker whole r g := by
  have hfills : f.fillsSince g = k.fillsSince g := by
    rw [fillsSince_trans hfk.log hlog, hfk.fills, List.nil_append]
  have hevents : f.eventsSince g = k.eventsSince g := by
    rw [eventsSince_trans hfk.log hlog, hfk.events, List.nil_append]
  have hall : f.fillsSince whole.2 = k.fillsSince whole.2 := by
    rw [fillsSince_trans hfk.log hwhole, hfk.fills, List.nil_append]
  refine ⟨?_, ?_, ?_, ?_, ?_⟩ <;> rw [hfills]
  · rw [hall]
    exact hcut.fills
  · rw [← hfk.store]
    exact hcut.store
  · rw [hevents]
    exact hcut.events
  · rw [hall]
    exact hcut.report
  · rw [hall, since_trans hfk.log hlog, List.getLast?_append]
    refine hcut.short.imp_right fun ⟨e, hlast, he⟩ => ⟨e, ?_, he⟩
    rw [hlast]
    rfl

/-- A turn that is refused before the walk begins leaves all as it was. -/
theorem of_stopped (hfg : f.Silent g) (hstopped : f.Stopped g) (hr : ∃ e, r = .error e) :
    f.Cut ticker whole r g := by
  obtain ⟨e, rfl⟩ := hr
  obtain ⟨x, hlast, hrefused⟩ := hstopped
  refine ⟨?_, hfg.tells.store, hfg.tells.events, fun _ h => (nomatch h), Or.inr ⟨x, hlast, ?_, ?_⟩⟩
  · rw [hfg.fills]
    exact List.nil_prefix
  · obtain ⟨c, a⟩ := x
    cases c with
    | store c | index c =>
        cases a with
        | error e => rfl
        | ok a => cases hrefused
    | _ => cases hrefused
  · rw [hfg.fills]
    rintro (⟨event, hnotify⟩ | ⟨fill, hfill, -⟩)
    · obtain ⟨c, a⟩ := x
      cases hnotify
      cases hrefused
    · cases hfill

/-- Heedless work that tells what it does is cut by a call on the store. -/
theorem of_short (hfg : f.Tells g) (hshort : Short f f whole r g) : f.Cut ticker whole r g := by
  rcases hshort with ⟨hr, hsame⟩ | ⟨⟨e, rfl⟩, hfirst, c, x, hlast⟩
  · refine ⟨hsame ▸ List.prefix_refl _, hfg.store, hfg.events, fun report h => ?_,
      Or.inl ⟨hr, hsame⟩⟩
    exact ⟨hr.symm.trans h, hsame⟩
  · refine ⟨hfirst, hfg.store, hfg.events, fun _ h => (nomatch h), Or.inr ⟨_, hlast, rfl, ?_⟩⟩
    rintro (⟨event, hnotify⟩ | ⟨fill, -, o, -, -, hremove⟩)
    · cases hnotify
    · cases hremove

/-- Strict work that comes first stops the turn or changes nothing. -/
theorem strict {α : Type} {work : Action α} {next : α → Action MatchReport}
    (hwork : work.Strict) (hlead : f.Leads (work >>= next) (.ended r) g)
    (hclock : f.Follows clock g)
    (hnext : ∀ (a : α) (k : Floor), k.Leads (next a) (.ended r) g → k.Follows clock g →
      k.Cut ticker (k.undisturbed clock (next a)) r g) :
    f.Cut ticker (f.undisturbed clock (work >>= next)) r g := by
  rcases hwork.split hlead with ⟨hr, hfg, hstopped⟩ | ⟨a, k, hfk, hlead, hwhole⟩
  · exact .of_stopped hfg hstopped hr
  · rw [hwhole]
    exact (hnext a k hlead (hclock.later hfk.log)).after_silent hfk
      (leads_undisturbed clock k _).log hlead.log

/-- Heedless work that comes last is cut between the fills that it tells of. -/
theorem heedless {work : Action MatchReport} (hwork : work.Heedless)
    (htells : work.Ensures (fun _ => True) (fun _ g => f.Tells g) f)
    (hlead : f.Leads work (.ended r) g) (hclock : f.Follows clock g) :
    f.Cut ticker (f.undisturbed clock work) r g := by
  have hended := (htells.of_leads hlead trivial).2
  refine of_short ?_ (hwork.short rfl rfl hlead hclock)
  cases r <;> exact hended

end Floor.Cut

/--
**A fault cuts a turn between two fills.**  Whichever calls fail, the store is left as the
first of the fills leave it that the turn commits when none fails, these are told of and no
others, and a turn that ends well has committed all of them.  What follows a fill may fail
without any harm.
-/
theorem processOrder_cut {clock : Nat → Instant} {id : OrderId} {ticker : String}
    {r : Except Failure MatchReport}
    (hlead : f.Leads (processOrder scale id ticker) (.ended r) g) (hclock : f.Follows clock g) :
    f.Cut ticker (f.undisturbed clock (processOrder scale id ticker)) r g := by
  have ended {k : Floor} {work : Action MatchReport}
      (hwork : work.Ended) (hlead : k.Leads work (.ended r) g) (hclock : k.Follows clock g) :
      k.Cut ticker (k.undisturbed clock work) r g := by
    cases work with
    | done a => exact .heedless trivial (Floor.Silent.refl k).tells hlead hclock
    | fail e => exact .heedless trivial (Floor.Silent.refl k).tells hlead hclock
    | call c rest => cases hwork
  unfold processOrder at hlead ⊢
  refine .strict (strict_store rfl) hlead hclock fun found k hlead hclock => ?_
  cases found with
  | none => exact ended trivial hlead hclock
  | some o =>
      dsimp only at hlead ⊢
      split at hlead <;> rename_i hticker
      · rw [if_pos hticker]
        exact ended trivial hlead hclock
      · rw [if_neg hticker]
        split at hlead <;> rename_i hmatch
        · rw [if_pos hmatch]
          exact .strict (strict_index _) hlead hclock fun _ _ => ended trivial
        · rw [if_neg hmatch]
          refine .strict o.strict_candidates hlead hclock fun a k hlead hclock => ?_
          have hwalk := heedless_walk scale ticker a.1 o
          refine .heedless (hwalk.bind fun b => ?_) ?_ hlead hclock
          · exact (b.1.heedless_dropFilled ticker).bind fun _ => trivial
          · refine (walk_tells ticker a.1 o).bind trivial (fun b l _ hl => ?_) fun _ _ _ h => h
            refine (b.1.dropFilled_silent ticker).bind trivial (fun _ m _ hm => ?_) ?_
            · exact hl.trans hm.2.tells
            · exact fun _ _ _ hm => nomatch hm.1

/-- A buy order for 3 with three sell orders for 1 each waiting for it. -/
def Floor.threeSells : Floor :=
  session 2 .epoch [.order .buy (.ofDigits 2 0) (.ofDigits 3 0),
    .order .sell (.ofDigits 1 0) (.ofDigits 1 0), .order .sell (.ofDigits 2 0) (.ofDigits 1 0),
    .order .sell (.ofDigits 15 1) (.ofDigits 1 0)]

/-- No event gets through, nothing is taken out of the index, and no third fill is committed. -/
def Floor.ailing (f : Floor) : (c : Call) → c.Answer
  | .notify _ => false
  | .index (.remove ..) => .error (.indexUnavailable "")
  | .store (.commit fill) =>
    if f.store.executions.length = 4 then .error .storeTimedOut
    else .ok (f.store.perform (.commit fill)).1
  | c => f.grant .epoch c

theorem Floor.may_ailing (f : Floor) (c : Call) : f.May c (f.ailing c) := by
  unfold ailing
  split
  · trivial
  · trivial
  · split <;> trivial
  · exact f.may_grant .epoch _

open Floor in
theorem processOrder_cut_threeSells :
    let whole := threeSells.undisturbed (fun _ => .epoch) (processOrder 2 1 "X")
    let faulty := threeSells.answering Floor.ailing (processOrder 2 1 "X")
    threeSells.Leads (processOrder 2 1 "X") (.ended faulty.1) faulty.2 ∧
      threeSells.Follows (fun _ => .epoch) faulty.2 ∧
      (threeSells.fillsSince whole.2).length = 3 ∧ (threeSells.fillsSince faulty.2).length = 2 ∧
      threeSells.Cut "X" whole faulty.1 faulty.2 := by
  intro whole faulty
  have hlead : threeSells.Leads (processOrder 2 1 "X") (.ended faulty.1) faulty.2 :=
    Floor.leads_answering Floor.may_ailing threeSells _
  have hclock : threeSells.Follows (fun _ => .epoch) faulty.2 := by
    have hreadings : ∀ time ∈ faulty.2.readings, time = .epoch := by decide +kernel
    exact fun n time _ hread => hreadings time (List.mem_of_getElem? hread)
  exact ⟨hlead, hclock, by decide +kernel, by decide +kernel, processOrder_cut hlead hclock⟩

end Bourse
