/-
The index nominates, the record decides.

A book lists its orders best price first, by the prices that were enqueued with them.
Nothing depends on that.  Two floors are `Alike` if they have the same store and the same
orders in every book, in whatever order these are listed, and work is `Impartial` if it
comes to the same on any two such floors while no call fails.

Calls other than a listing are answered alike, so all that is left to show is that the
counter orders of an order come out the same.  What is listed is read again, stale
entries are dropped one by one, and the rest is sorted; and since the sorting leaves no
two different orders level, there is one way only to line them up.
-/
import Bourse.Proofs.Cut
import Bourse.Proofs.Waiting

namespace Bourse

open Bourse.Action

namespace Floor

/-- The same store and the same orders in every book, the clock read equally often. -/
structure Alike (f g : Floor) : Prop where
  store : f.store = g.store
  readings : f.readings.length = g.readings.length
  tidy : f.index.Tidy
  tidy' : g.index.Tidy
  listed : ∀ side ticker id, id ∈ f.index.waiting side ticker ↔ id ∈ g.index.waiting side ticker

end Floor

/-- Does a call ask for what is listed, or for how much? -/
def Call.surveys : Call → Bool
  | index (.list ..) | index .tickers | index (.size ..) => true
  | _ => false

namespace Floor

variable {α β : Type} {f g : Floor} {c : Call} {clock : Nat → Instant}

/-- **A call other than a survey is answered alike** and leaves two floors alike. -/
theorem Alike.call (h : f.Alike g) (hc : c.surveys = false) (time : Instant) :
    f.grant time c = g.grant time c ∧
      (f.after c (f.grant time c)).Alike (g.after c (f.grant time c)) := by
  have hanswer : f.grant time c = g.grant time c := by
    cases c with
    | store c =>
        show Except.ok (f.store.perform c).1 = Except.ok (g.store.perform c).1
        rw [h.store]
    | index c =>
        cases c with
        | list | tickers | size => cases hc
        | enqueue side ticker id price => rfl
        | remove side ticker id =>
            show Except.ok (f.index.remove side ticker id).1 =
              Except.ok (g.index.remove side ticker id).1
            rw [Bool.eq_iff_iff.mpr (h.tidy.fst_remove.trans
              ((h.listed side ticker id).trans h.tidy'.fst_remove.symm))]
    | _ => rfl
  refine ⟨hanswer, ?_, ?_, indexAfter_tidy h.tidy c _, indexAfter_tidy h.tidy' c _, ?_⟩
  · cases c with
    | store c =>
        show (f.store.perform c).2 = (g.store.perform c).2
        rw [h.store]
    | _ => exact h.store
  · rw [readings_after, readings_after, List.length_append, List.length_append, h.readings]
  · intro side' ticker' id'
    cases c with
    | index c =>
        cases c with
        | list | tickers | size => cases hc
        | enqueue side ticker id price =>
            show id' ∈ (f.index.enqueue side ticker id price).waiting side' ticker' ↔
              id' ∈ (g.index.enqueue side ticker id price).waiting side' ticker'
            rw [h.tidy.mem_waiting_enqueue, h.tidy'.mem_waiting_enqueue, h.listed]
        | remove side ticker id =>
            show id' ∈ (f.index.remove side ticker id).2.waiting side' ticker' ↔
              id' ∈ (g.index.remove side ticker id).2.waiting side' ticker'
            rw [h.tidy.mem_waiting_remove, h.tidy'.mem_waiting_remove, h.listed]
    | _ => exact h.listed side' ticker' id'

theorem undisturbed_call (clock : Nat → Instant) (f : Floor) (c : Call)
    (rest : c.Answer → Action α) : f.undisturbed clock (.call c rest) =
      (f.after c (f.grant (clock f.readings.length) c)).undisturbed clock
        (rest (f.grant (clock f.readings.length) c)) := rfl

/-- Work in two parts is done one part after the other, if the first one does not fail. -/
theorem undisturbed_bind (clock : Nat → Instant) (f : Floor) (work : Action α)
    (next : α → Action β) : f.undisturbed clock (work >>= next) =
      match f.undisturbed clock work with
      | (.ok a, g) => g.undisturbed clock (next a)
      | (.error e, g) => (.error e, g) := by
  induction work generalizing f with
  | done a => rfl
  | fail e => rfl
  | call c rest ih => exact ih _ _

theorem undisturbed_store (clock : Nat → Instant) (f : Floor) (c : StoreCall) :
    f.undisturbed clock (.store c) =
      (.ok (f.store.perform c).1, f.after (.store c) (.ok (f.store.perform c).1)) := rfl

theorem undisturbed_index (clock : Nat → Instant) (f : Floor) (c : IndexCall) :
    f.undisturbed clock (.index c) =
      (.ok (f.index.perform c).1, f.after (.index c) (.ok (f.index.perform c).1)) := rfl

theorem undisturbed_attempt (clock : Nat → Instant) (f : Floor) (work : Action α) :
    f.undisturbed clock work.attempt =
      (.ok (f.undisturbed clock work).1, (f.undisturbed clock work).2) := by
  induction work generalizing f with
  | done a => rfl
  | fail e => rfl
  | call c rest ih => exact ih _ _

end Floor

/-! ### Impartial work -/

namespace Action

variable {α β : Type} {clock : Nat → Instant}

/-- On floors that are alike the work comes to the same, and leaves them alike. -/
def Impartial (clock : Nat → Instant) (work : Action α) : Prop :=
  ∀ f g : Floor, f.Alike g → (f.undisturbed clock work).1 = (g.undisturbed clock work).1 ∧
    (f.undisturbed clock work).2.Alike (g.undisturbed clock work).2

theorem impartial_done (a : α) : (done a).Impartial clock := fun _ _ h => ⟨rfl, h⟩

theorem impartial_fail (e : Failure) : (fail e : Action α).Impartial clock :=
  fun _ _ h => ⟨rfl, h⟩

theorem impartial_ofExcept (r : Except Error α) : (ofExcept r).Impartial clock := by
  cases r with
  | ok a => exact impartial_done a
  | error e => exact impartial_fail _

theorem impartial_call {c : Call} (hc : c.surveys = false) {rest : c.Answer → Action α}
    (h : ∀ a, (rest a).Impartial clock) : (call c rest).Impartial clock := by
  intro f g hfg
  obtain ⟨hanswer, hafter⟩ := hfg.call hc (clock f.readings.length)
  rw [Floor.undisturbed_call, Floor.undisturbed_call, ← hfg.readings, ← hanswer]
  exact h _ _ _ hafter

theorem impartial_store (c : StoreCall) : (store c).Impartial clock := by
  refine impartial_call rfl fun a => ?_
  cases a with
  | ok a => exact impartial_done a
  | error e => exact impartial_fail _

theorem impartial_remove (side : Side) (ticker : String) (id : OrderId) :
    (index (.remove side ticker id)).Impartial clock := by
  refine impartial_call rfl fun a => ?_
  cases a with
  | ok a => exact impartial_done a
  | error e => exact impartial_fail _

theorem Impartial.bind {work : Action α} {next : α → Action β} (h : work.Impartial clock)
    (hnext : ∀ a, (next a).Impartial clock) : (work >>= next).Impartial clock := by
  intro f g hfg
  obtain ⟨hsame, halike⟩ := h f g hfg
  rw [Floor.undisturbed_bind, Floor.undisturbed_bind]
  rcases hf : f.undisturbed clock work with ⟨r, f'⟩
  rcases hg : g.undisturbed clock work with ⟨r', g'⟩
  rw [hf, hg] at hsame halike
  obtain rfl : r = r' := hsame
  cases r with
  | ok a => exact hnext a f' g' halike
  | error e => exact ⟨rfl, halike⟩

theorem Impartial.attempt {work : Action α} (h : work.Impartial clock) :
    work.attempt.Impartial clock := by
  intro f g hfg
  obtain ⟨hsame, halike⟩ := h f g hfg
  rw [Floor.undisturbed_attempt, Floor.undisturbed_attempt, hsame]
  exact ⟨rfl, halike⟩

end Action

/-! ### The counter orders -/

/-- Can `o` not meet the order of this identifier, at whatever price? -/
def Store.unfit (s : Store) (o : Order) (id : OrderId) : Bool :=
  !(s.find? id).any fun c => c.opposes o

theorem Store.rivals_of_unfit {s : Store} {o : Order} {id : OrderId} (h : s.unfit o id = true)
    (ids : List OrderId) : s.rivals o (id :: ids) = s.rivals o ids := by
  cases hfind : s.find? id with
  | none => simp [rivals, hfind]
  | some c =>
      have hfails : c.opposes o = false := by simpa [unfit, hfind] using h
      simp [rivals, hfind, Order.mayMeet, hfails]

namespace Floor

/-- From `f` to `g` those of some entries were dropped that `o` cannot meet, and no more. -/
structure Purged (f : Floor) (o : Order) (ids : List OrderId) (g : Floor) : Prop where
  store : g.store = f.store
  readings : g.readings = f.readings
  tidy : g.index.Tidy
  listed : ∀ side ticker id, id ∈ g.index.waiting side ticker ↔
    id ∈ f.index.waiting side ticker ∧ ((side, ticker) = (o.side.opposite, o.ticker) →
      id ∈ ids → f.store.unfit o id = false)

variable {f g h : Floor} {clock : Nat → Instant} {o : Order} {loaded : List Order}

theorem purged_nil (hf : f.index.Tidy) : f.Purged o [] f := ⟨rfl, rfl, hf, by simp⟩

/-- Looking around before does not matter. -/
theorem Purged.earlier {ids : List OrderId} (hg : g.Purged o ids h)
    (hstore : g.store = f.store) (hindex : g.index = f.index) (hread : g.readings = f.readings) :
    f.Purged o ids h := by
  refine ⟨hg.store.trans hstore, hg.readings.trans hread, hg.tidy, fun side ticker id => ?_⟩
  rw [hg.listed, hindex, hstore]

/-- Taking out one entry that is stale, and then more of them. -/
theorem Purged.remove {id : OrderId} {ids : List OrderId} {removed : Bool} (hf : f.index.Tidy)
    (hunfit : f.store.unfit o id = true)
    (h : (f.after (.index (.remove o.side.opposite o.ticker id)) (.ok removed)).Purged o ids g) :
    f.Purged o (id :: ids) g := by
  have hstore : (f.after (.index (.remove o.side.opposite o.ticker id)) (.ok removed)).store =
      f.store := rfl
  refine ⟨h.store, ?_, h.tidy, fun side ticker id' => ?_⟩
  · rw [h.readings, readings_after]
    exact List.append_nil _
  · rw [h.listed, hstore]
    show id' ∈ (f.index.remove o.side.opposite o.ticker id).2.waiting side ticker ∧ _ ↔ _
    rw [hf.mem_waiting_remove, and_assoc]
    refine and_congr_right fun _ => ?_
    by_cases hbook : (side, ticker) = (o.side.opposite, o.ticker)
    · by_cases hid : id' = id
      · simp [hbook, hid, hunfit]
      · simp [hbook, hid]
    · simp [hbook]

/-- An order that can be met stays listed. -/
theorem Purged.keep {id : OrderId} {ids : List OrderId} (hfit : f.store.unfit o id = false)
    (h : f.Purged o ids g) : f.Purged o (id :: ids) g := by
  refine ⟨h.store, h.readings, h.tidy, fun side ticker id' => ?_⟩
  rw [h.listed]
  refine and_congr_right fun _ => ?_
  by_cases hid : id' = id
  · simp [hid, hfit]
  · simp [hid]

/-- An entry that is listed is dropped, and that is counted. -/
theorem undisturbed_dropStale (hf : f.index.Tidy) {id : OrderId}
    (hin : id ∈ f.index.waiting o.side.opposite o.ticker) {rest : Action (List Order × Nat)}
    {found : List Order} {stale : Nat}
    (hrest : (f.after (.index (.remove o.side.opposite o.ticker id)) (.ok true)).undisturbed clock
      rest = (.ok (found, stale), g)) :
    f.undisturbed clock (o.dropStale id rest) = (.ok (found, stale + 1), g) := by
  have hremoved : (f.index.remove o.side.opposite o.ticker id).1 = true := hf.fst_remove.mpr hin
  have hgrant : f.grant (clock f.readings.length)
      (.index (.remove o.side.opposite o.ticker id)) = .ok true := congrArg Except.ok hremoved
  unfold Order.dropStale Action.index
  rw [Action.call_bind, undisturbed_call, hgrant]
  show (f.after (.index (.remove o.side.opposite o.ticker id)) (.ok true)).undisturbed clock
    (rest >>= _) = _
  rw [undisturbed_bind, hrest]
  rfl

/-- **What is listed and read nominates the rivals**, and the rest of it is dropped. -/
theorem undisturbed_nominated {ids : List OrderId} (hf : f.index.Tidy) (hnodup : ids.Nodup)
    (hloaded : ∀ id ∈ ids, loaded.find? (·.id == id) = f.store.find? id)
    (hlisted : ∀ id ∈ ids, id ∈ f.index.waiting o.side.opposite o.ticker) :
    ∃ g, f.undisturbed clock (o.nominated loaded ids) =
      (.ok (f.store.rivals o ids, ids.countP (f.store.unfit o)), g) ∧ f.Purged o ids g := by
  induction ids generalizing f with
  | nil => exact ⟨f, rfl, purged_nil hf⟩
  | cons id ids ih =>
      obtain ⟨hnew, hnodup⟩ := List.nodup_cons.mp hnodup
      obtain ⟨hid, hloaded⟩ := List.forall_mem_cons.mp hloaded
      obtain ⟨hin, hlisted⟩ := List.forall_mem_cons.mp hlisted
      -- An entry that nominates nothing is there to be dropped, and nobody else's.
      have hdrop (hunfit : f.store.unfit o id = true) :
          ∃ g, f.undisturbed clock (o.dropStale id (o.nominated loaded ids)) =
            (.ok (f.store.rivals o (id :: ids), (id :: ids).countP (f.store.unfit o)), g) ∧
              f.Purged o (id :: ids) g := by
        obtain ⟨g, hrun, hpurged⟩ := ih (f := f.after (.index (.remove o.side.opposite o.ticker id))
          (.ok true)) (indexAfter_tidy hf _ _) hnodup hloaded fun id' hid' => by
            refine hf.mem_waiting_remove.mpr ⟨hlisted id' hid', ?_⟩
            rintro - rfl
            exact hnew hid'
        refine ⟨g, ?_, hpurged.remove hf hunfit⟩
        rw [Store.rivals_of_unfit hunfit, List.countP_cons_of_pos hunfit]
        exact undisturbed_dropStale hf hin hrun
      unfold Order.nominated
      rw [hid]
      cases hfind : f.store.find? id with
      | none => exact hdrop (by simp [Store.unfit, hfind])
      | some c =>
          by_cases hopposes : c.opposes o = true
          · have hfit : f.store.unfit o id = false := by simp [Store.unfit, hfind, hopposes]
            obtain ⟨g, hrun, hpurged⟩ := ih hf hnodup hloaded hlisted
            refine ⟨g, ?_, hpurged.keep hfit⟩
            simp only [if_pos hopposes]
            rw [undisturbed_bind, hrun, List.countP_cons_of_neg (by simp [hfit])]
            by_cases haccepts : o.accepts c.price = true
            · simp [Store.rivals, hfind, Order.mayMeet, hopposes, haccepts, undisturbed, answering,
                run]
            · simp [Store.rivals, hfind, Order.mayMeet, hopposes, haccepts, undisturbed, answering,
                run]
          · simp only [if_neg hopposes]
            exact hdrop (by simp [Store.unfit, hfind, hopposes])

/-- **The counter orders of an order**: those that it may meet, in the order in which it will. -/
theorem undisturbed_candidates (clock : Nat → Instant) (o : Order) (hf : f.index.Tidy) :
    ∃ g, f.undisturbed clock o.candidates = (.ok (f.queue o,
      (f.index.waiting o.side.opposite o.ticker).countP (f.store.unfit o)), g) ∧
        f.Purged o (f.index.waiting o.side.opposite o.ticker) g := by
  have hnodup := hf.nodup_waiting o.side.opposite o.ticker
  have hreadings {k : Floor} {c : Call} {a : c.Answer} (hc : Answered.reading? ⟨c, a⟩ = none) :
      (k.after c a).readings = k.readings := by
    rw [readings_after, hc]
    exact List.append_nil _
  unfold queue Order.candidates
  rw [undisturbed_bind, undisturbed_index]
  have hids : (f.index.perform (.list o.side.opposite o.ticker)).1 =
    f.index.waiting o.side.opposite o.ticker := rfl
  rw [hids]
  generalize hwaiting : f.index.waiting o.side.opposite o.ticker = ids at hnodup
  cases ids with
  | nil =>
      have hpurged : (f.after (.index (.list o.side.opposite o.ticker)) (.ok [])).Purged o [] _ :=
        purged_nil hf
      exact ⟨_, rfl, hpurged.earlier rfl rfl (hreadings rfl)⟩
  | cons id ids =>
      simp only [List.isEmpty_cons, Bool.false_eq_true, if_false]
      rw [undisturbed_bind, undisturbed_store]
      dsimp only
      rw [undisturbed_bind]
      obtain ⟨g, hrun, hpurged⟩ := @undisturbed_nominated
        ((f.after (.index (.list o.side.opposite o.ticker)) (.ok (id :: ids))).after
          (.store (.loadMany (id :: ids))) (.ok ((id :: ids).filterMap f.store.find?)))
        clock o ((id :: ids).filterMap f.store.find?) (id :: ids) hf hnodup
        (fun id' hid' => (f.store.find?_loaded _ id').trans (if_pos hid'))
        fun id' hid' => hwaiting ▸ hid'
      have hpurged : (f.after (.index (.list o.side.opposite o.ticker))
          (.ok (id :: ids))).Purged o (id :: ids) g := hpurged.earlier rfl rfl (hreadings rfl)
      refine ⟨g, ?_, hpurged.earlier rfl rfl (hreadings rfl)⟩
      have hloaded : ((f.after (.index (.list o.side.opposite o.ticker))
          (.ok (id :: ids))).store.perform (.loadMany (id :: ids))).1 =
            (id :: ids).filterMap f.store.find? := rfl
      rw [hloaded, hrun]
      rfl

end Floor

/-! ### A turn -/

section

variable {clock : Nat → Instant}

theorem Order.candidates_impartial (o : Order) : o.candidates.Impartial clock := by
  intro f g hfg
  obtain ⟨f', hf, hpurged⟩ := Floor.undisturbed_candidates clock o hfg.tidy
  obtain ⟨g', hg, hpurged'⟩ := Floor.undisturbed_candidates clock o hfg.tidy'
  have hperm : (f.index.waiting o.side.opposite o.ticker).Perm
      (g.index.waiting o.side.opposite o.ticker) :=
    (List.perm_ext_iff_of_nodup (hfg.tidy.nodup_waiting _ _) (hfg.tidy'.nodup_waiting _ _)).mpr
      (hfg.listed o.side.opposite o.ticker)
  -- The same orders are rivals on both floors, and there is one queue of them only.
  have hqueue : f.queue o = g.queue o := by
    unfold Floor.queue
    rw [← hfg.store]
    refine Side.queue_eq_of_perm ((hperm.filterMap _).filter _) ?_
    exact Store.nodup_rivals (hfg.tidy.nodup_waiting _ _)
  rw [hf, hg, hqueue, hfg.store, hperm.countP_eq]
  refine ⟨rfl, ?_, ?_, hpurged.tidy, hpurged'.tidy, fun side ticker id => ?_⟩
  · rw [hpurged.store, hpurged'.store, hfg.store]
  · rw [hpurged.readings, hpurged'.readings, hfg.readings]
  · rw [hpurged.listed, hpurged'.listed, hfg.listed, hfg.store, hperm.mem_iff]

theorem Order.dropFilled_impartial (o : Order) (ticker : String) :
    (o.dropFilled ticker).Impartial clock := by
  unfold Order.dropFilled
  split
  · exact (impartial_remove _ _ _).attempt.bind fun _ => impartial_done ()
  · exact impartial_done ()

theorem FillCommit.settle_impartial (fill : FillCommit) (ticker : String) :
    (fill.settle ticker).Impartial clock :=
  impartial_call rfl fun _ => (fill.counter.dropFilled_impartial ticker).bind fun _ =>
    impartial_call rfl fun _ => impartial_done ()

variable (scale : Nat)

theorem walk_impartial (ticker : String) (counters : List Order) (o : Order) :
    (walk scale ticker counters o).Impartial clock := by
  induction counters generalizing o with
  | nil => exact impartial_done _
  | cons c counters ih =>
      unfold walk
      split
      · exact impartial_done _
      · refine impartial_call rfl fun time => (impartial_ofExcept _).bind fun fill =>
          (impartial_store _).bind fun outcome => ?_
        cases outcome with
        | committed receipt =>
            exact (fill.settle_impartial ticker).bind fun _ =>
              (ih fill.incoming).bind fun _ => impartial_done _
        | counterUnavailable => exact ih o
        | incomingUnavailable => exact impartial_done _

/-- **A turn depends on what is listed, not on how.** -/
theorem processOrder_impartial (id : OrderId) (ticker : String) :
    (processOrder scale id ticker).Impartial clock := by
  unfold processOrder
  refine (impartial_store _).bind fun found => ?_
  cases found with
  | none => exact impartial_done _
  | some o =>
      dsimp only
      split
      · exact impartial_fail _
      · split
        · exact (impartial_remove _ _ _).bind fun _ => impartial_done _
        · refine o.candidates_impartial.bind fun found => ?_
          refine (walk_impartial scale ticker found.1 o).bind fun walked => ?_
          exact (walked.1.dropFilled_impartial ticker).bind fun _ => impartial_done _

end

/--
**The index decides neither on price nor on precedence.**  Let two indexes list the same
orders in every book, with whatever scores and hence in whatever order.  While no call
fails and the clock shows the same, a turn of any order comes to the same with either of
them: the same report or the same error, the same orders and the same ledger; and in the
end they list the same orders again.
-/
theorem processOrder_unranked (scale : Nat) (clock : Nat → Instant) (s : Store)
    {i j : WaitingIndex} (hi : i.Tidy) (hj : j.Tidy)
    (hsame : ∀ side ticker id, id ∈ i.waiting side ticker ↔ id ∈ j.waiting side ticker)
    (id : OrderId) (ticker : String) :
    let (result, f) := Floor.undisturbed clock ⟨s, i, []⟩ (processOrder scale id ticker)
    let (result', g) := Floor.undisturbed clock ⟨s, j, []⟩ (processOrder scale id ticker)
    result = result' ∧ f.store = g.store ∧
      ∀ side ticker id, id ∈ f.index.waiting side ticker ↔ id ∈ g.index.waiting side ticker := by
  have himpartial : (processOrder scale id ticker).Impartial clock :=
    processOrder_impartial scale id ticker
  obtain ⟨hresult, halike⟩ := himpartial ⟨s, i, []⟩ ⟨s, j, []⟩ ⟨rfl, rfl, hi, hj, hsame⟩
  exact ⟨hresult, halike.store, halike.listed⟩

/-- What is enqueued is listed, whatever the prices are that it is enqueued with. -/
theorem WaitingIndex.mem_waiting_enqueued {i : WaitingIndex} (hi : i.Tidy) {side side' : Side}
    {ticker ticker' : String} {id : OrderId} (entries : List (OrderId × Decimal)) :
    id ∈ (i.performAll (entries.map fun e => .enqueue side ticker e.1 e.2)).waiting side' ticker' ↔
      (side', ticker') = (side, ticker) ∧ id ∈ entries.map (·.1) ∨
        id ∈ i.waiting side' ticker' := by
  induction entries generalizing i with
  | nil => simp [performAll]
  | cons e entries ih =>
      have hnext : (i.enqueue side ticker e.1 e.2).Tidy := hi.perform (.enqueue side ticker e.1 e.2)
      show id ∈ ((i.enqueue side ticker e.1 e.2).performAll _).waiting side' ticker' ↔ _
      rw [ih hnext, hi.mem_waiting_enqueue, List.map_cons, List.mem_cons]
      tauto

/-- Three sell orders, the last of them cancelled, and a buy order that can meet the others. -/
def Floor.offers : Floor :=
  session 2 .epoch [.order .sell (.ofDigits 2 0) (.ofDigits 1 0),
    .order .sell (.ofDigits 1 0) (.ofDigits 1 0), .order .sell (.ofDigits 1 0) (.ofDigits 1 0),
    .order .buy (.ofDigits 2 0) (.ofDigits 3 0), .cancel 3]

/-- The three sell orders, by scores that have nothing to do with their prices. -/
def WaitingIndex.scored (scores : List Nat) : WaitingIndex :=
  empty.performAll (([1, 2, 3].zip (scores.map fun n => .ofDigits n 0)).map fun e =>
    .enqueue .sell "X" e.1 e.2)

/-- However they are listed, the cheaper order is met first and the cancelled one is dropped. -/
theorem processOrder_unranked_offers :
    (WaitingIndex.scored [1, 2, 3]).waiting .sell "X" = [1, 2, 3] ∧
    (WaitingIndex.scored [3, 2, 1]).waiting .sell "X" = [3, 2, 1] ∧
    let (result, f) := Floor.undisturbed (fun _ => .epoch)
      ⟨Floor.offers.store, .scored [1, 2, 3], []⟩ (processOrder 2 4 "X")
    let (result', g) := Floor.undisturbed (fun _ => .epoch)
      ⟨Floor.offers.store, .scored [3, 2, 1], []⟩ (processOrder 2 4 "X")
    (result.toOption.map fun r => (r.fills.map (·.restingOrder), r.staleRemoved)) =
      some ([2, 1], 1) ∧ result = result' ∧ f.store = g.store ∧
      ∀ side ticker id, id ∈ f.index.waiting side ticker ↔ id ∈ g.index.waiting side ticker := by
  have htidy (scores : List Nat) : (WaitingIndex.scored scores).Tidy :=
    WaitingIndex.tidy_empty.performAll _
  refine ⟨by decide +kernel, by decide +kernel, by decide +kernel, ?_⟩
  refine processOrder_unranked 2 (fun _ => .epoch) Floor.offers.store (htidy _) (htidy _)
    (fun side ticker id => ?_) 4 "X"
  unfold WaitingIndex.scored
  rw [WaitingIndex.mem_waiting_enqueued WaitingIndex.tidy_empty,
    WaitingIndex.mem_waiting_enqueued WaitingIndex.tidy_empty]
  rfl

end Bourse
