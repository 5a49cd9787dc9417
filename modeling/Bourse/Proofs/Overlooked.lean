/-
Which orders reconciling loses while others are placed.

Reconciling reads the live orders first and lists the books afterwards.  An order that is
placed and indexed in between is in the list and not among the orders that were read, so
it is taken for stale: its entry is taken out, and no one puts it back.  The submission
has returned by then or is about to, and nothing tells it.

`Beside.unlisted_iff` says that this is the only way: once all have returned, an order
that can be matched is missing from the index exactly if it was overlooked like that.
That no one puts the entry back is a matter of counting.  An identifier is given once, so
one submission enqueues it once, and that was before the list that showed it.
-/
import Bourse.Proofs.Beside

namespace Bourse

open Bourse.Action

variable {scale : Nat} {f₀ f k : Floor} {r e : Errand} {es : List Errand}

/-! ### What the traces tell -/

namespace Reconciliation

/-- These are the live orders that were read. -/
def Read (live : List Order) (calls : List Answered) : Prop :=
  calls.head? = some ⟨.store .live, .ok live⟩

/-- The live orders are read, and the books are mended by what belongs among them. -/
def Proceeds (calls : List Answered) (c : Call) : Prop :=
  c = .store .live ∨ ∃ live belonging n, Read live calls ∧
    survey live = some (belonging, n) ∧ Mends belonging calls c

theorem Read.mono {live : List Order} {calls later : List Answered} (h : Read live calls)
    (hfirst : calls <+: later) : Read live later := by
  obtain ⟨rest, rfl⟩ := hfirst
  cases calls with
  | nil => cases h
  | cons x calls => exact h

theorem Read.eq {live live' : List Order} {calls : List Answered} (h : Read live calls)
    (h' : Read live' calls) : live = live' := by
  have heq := h.symm.trans h'
  rw [Option.some.injEq, Answered.mk.injEq] at heq
  exact Except.ok.inj (eq_of_heq heq.2)

/-- How the work ends: with all that was read mended, unless a call or the survey fails. -/
theorem reconcile_traced : (Operation.recover.work scale).Traced Proceeds (fun r later =>
    match r with
    | .ok _ => ∃ live belonging n, Read live later ∧ survey live = some (belonging, n) ∧
        Cleared belonging later ∧ ∀ o ∈ belonging, Shown later o
    | .error _ => Balked later ∨ ∃ live, Read live later ∧ survey live = none) [] := by
  show ((store .live >>= mend) >>= fun _ => done ()).Traced _ _ _
  refine ⟨Or.inl rfl, fun answer => ?_⟩
  cases answer with
  | error e => exact Or.inl ⟨_, List.mem_singleton.mpr rfl, rfl⟩
  | ok live =>
      show (mend live >>= fun _ => done ()).Traced _ _ [⟨.store .live, .ok live⟩]
      have hread : Read live [⟨.store .live, .ok live⟩] := rfl
      cases hsurvey : survey live with
      | none =>
          unfold mend
          rw [hsurvey]
          exact Or.inr ⟨live, hread, hsurvey⟩
      | some found =>
          obtain ⟨belonging, n⟩ := found
          have hcleared : Cleared belonging [⟨.store .live, .ok live⟩] := by
            rintro side ticker id ⟨ids, hin, -⟩
            cases List.mem_singleton.mp hin
          refine ((mend_traced hsurvey hcleared).begins.bind (fun _ later h => ?_)
            fun _ later h => Or.inl h.1).mono (fun calls c h => ?_) fun _ _ h => h
          · exact ⟨live, belonging, n, hread.mono h.2, hsurvey, h.1⟩
          · exact Or.inr ⟨live, belonging, n, hread.mono h.2, hsurvey, h.1⟩

theorem Mends.plain {belonging : List Order} {calls : List Answered} {c : Call}
    (h : Mends belonging calls c) : c.Plain := by
  cases c with
  | store => exact h.elim
  | _ => trivial

end Reconciliation

open Reconciliation

/-- Does the call put an entry with this identifier into the index? -/
def Answered.enters (id : OrderId) : Answered → Bool
  | ⟨.index (.enqueue _ _ id' _), _⟩ => id' == id
  | _ => false

theorem Answered.enters_of_call {side : Side} {ticker : String} {id : OrderId} {price : Decimal}
    {x : Answered} (h : x.call = .index (.enqueue side ticker id price)) :
    x.enters id = true := by
  obtain ⟨c, a⟩ := x
  cases h
  exact beq_self_eq_true id

/-- What has come to be listed was put in. -/
theorem Floor.Leads.countP_enters_pos {α : Type} {work rest : Action α}
    (hlead : f.Leads work rest k) (hf : f.index.Tidy) {side : Side} {ticker : String} {id : OrderId}
    (h : id ∈ k.index.waiting side ticker) (hnone : id ∉ f.index.waiting side ticker) :
    0 < (f.since k).countP (Answered.enters id) := by
  obtain ⟨x, hx, price, hcall⟩ := (hlead.waiting_or hf h).resolve_left hnone
  exact List.countP_pos_iff.mpr ⟨x, hx, Answered.enters_of_call hcall⟩

/-- A submission fills nothing and takes out nothing. -/
def Submits (_ : List Answered) (c : Call) : Prop :=
  c.Plain ∧ ∀ side ticker id, c ≠ .index (.remove side ticker id)

/-- Every order that was placed was enqueued, and once at most. -/
structure Entered (calls : List Answered) : Prop where
  enqueued : ∀ o : Order, o.placing ∈ calls → Enqueued o.side o.ticker o.id calls
  once : ∀ id, calls.countP (Answered.enters id) ≤ calls.countP (Answered.places id)

theorem entered_nil : Entered [] := ⟨fun _ h => (List.not_mem_nil h).elim, fun _ => Nat.le_refl 0⟩

theorem Entered.call {calls : List Answered} (h : Entered calls) {x : Answered}
    (hplaces : ∀ o : Order, o.placing ≠ x) (henters : ∀ id, x.enters id = false) :
    Entered (calls ++ [x]) where
  enqueued o ho := by
    obtain ⟨price, a, hin⟩ := h.enqueued o
      ((List.mem_append.mp ho).resolve_right fun hx => hplaces o (List.mem_singleton.mp hx))
    exact ⟨price, a, List.mem_append_left _ hin⟩
  once id := by
    rw [List.countP_append, List.countP_append, List.countP_singleton, henters id]
    exact Nat.le_trans (h.once id) (Nat.le_add_right _ _)

/-- Placing an order and enqueueing it. -/
theorem Entered.place {calls : List Answered} (h : Entered calls) {request : OrderRequest}
    {time : Instant} {o : Order}
    (put : (Call.index (.enqueue o.side o.ticker o.id o.price)).Answer) :
    Entered (calls ++ [⟨.store (.insert request time), .ok o⟩] ++
      [⟨.index (.enqueue o.side o.ticker o.id o.price), put⟩]) where
  enqueued p hp := by
    simp only [List.append_assoc, List.mem_append, List.mem_singleton] at hp
    rcases hp with hp | hp | hp
    · obtain ⟨price, a, hin⟩ := h.enqueued p hp
      exact ⟨price, a, by simp [hin]⟩
    · unfold Order.placing at hp
      cases hp
      exact ⟨p.price, put, by simp [Order.ofRequest, Order.request]⟩
    · cases hp
  once id := by
    simpa [List.countP_cons, Answered.enters, Answered.places] using h.once id

/-- What a submission has called enqueues the order it has placed, and no other. -/
theorem submit_traced (tradable : List String) (request : OrderRequest) :
    ((Operation.submit tradable request).work scale).Traced Submits (fun _ => Entered) [] := by
  show (submit tradable request >>= fun _ => done ()).Traced _ _ _
  unfold submit
  cases hcheck : request.check tradable with
  | error e => exact entered_nil
  | ok =>
      show (call .now _).Traced _ _ _
      refine ⟨⟨trivial, fun _ _ _ => nofun⟩, fun time => ?_⟩
      have hclock := entered_nil.call (x := ⟨.now, time⟩) (fun _ => nofun) fun _ => rfl
      refine ⟨⟨OrderRequest.positive_of_check hcheck, fun _ _ _ => nofun⟩, fun placed => ?_⟩
      cases placed with
      | error e => exact hclock.call (fun _ => nofun) fun _ => rfl
      | ok o =>
          refine ⟨⟨trivial, fun _ _ _ => nofun⟩, fun put => ?_⟩
          have hplaced : Entered [⟨.now, time⟩, ⟨.store (.insert request time), .ok o⟩,
              ⟨.index (.enqueue o.side o.ticker o.id o.price), put⟩] := hclock.place put
          cases put with
          | ok =>
              refine ⟨⟨trivial, fun _ _ _ => nofun⟩, fun _ => ?_⟩
              exact hplaced.call (fun _ => nofun) fun _ => rfl
          | error e =>
              refine ⟨⟨trivial, fun _ _ _ => nofun⟩, fun later => ?_⟩
              refine ⟨⟨trivial, fun _ _ _ => nofun⟩, fun withdrawn => ?_⟩
              have hlast := (hplaced.call (x := ⟨.now, later⟩) (fun _ => nofun) fun _ => rfl).call
                (x := ⟨.store (.cancel o.id later), withdrawn⟩) (fun _ => nofun) fun _ => rfl
              cases withdrawn <;> exact hlast

/-! ### What the calls of all come to -/

namespace Beside.Kept

theorem follows_recover (h : Kept scale f₀ f (r :: es))
    {step : List Answered → Call → Prop} {goal : Except Failure Unit → List Answered → Prop}
    (htraced : (Operation.recover.work scale).Traced step goal []) : r.rest.Traced step goal r.log ∧
      ∀ x ∈ r.log, ∃ earlier, earlier <+: r.log ∧ step earlier x.call ∧ f₀.Made f earlier x := by
  rw [← h.recovers] at htraced
  exact h.follows r List.mem_cons_self htraced

theorem submits_calls (h : Kept scale f₀ f (r :: es)) (he : e ∈ es) {x : Answered}
    (hx : x ∈ e.log) : Submits [] x.call := by
  obtain ⟨tradable, request, hop⟩ := h.submits e he
  obtain ⟨earlier, -, hsubmits, -⟩ := (h.follows e (List.mem_cons_of_mem _ he)
    (hop ▸ submit_traced tradable request)).2 x hx
  exact hsubmits

theorem entered (h : Kept scale f₀ f (r :: es)) (he : e ∈ es) (hend : e.rest.Ended) :
    Entered e.log := by
  obtain ⟨tradable, request, hop⟩ := h.submits e he
  obtain ⟨-, hentered⟩ := Errand.Follows.result (h.follows e (List.mem_cons_of_mem _ he)) hend
    (hop ▸ submit_traced tradable request)
  exact hentered

theorem plain (h : Kept scale f₀ f (r :: es)) : ∀ x ∈ f₀.since f, x.call.Plain := by
  intro x hx
  obtain ⟨e, he, hx⟩ := List.mem_flatMap.mp (h.logs.mem_iff.mp hx)
  rcases List.mem_cons.mp he with rfl | he
  · obtain ⟨earlier, -, hproceeds, -⟩ := (h.follows_recover reconcile_traced).2 x hx
    rcases hproceeds with hlive | ⟨live, belonging, n, -, -, hmends⟩
    · rw [hlive]
      trivial
    · exact hmends.plain
  · exact (h.submits_calls he hx).1

theorem plain_split (h : Kept scale f₀ f (r :: es)) (hbefore : f₀.Way k) (hafter : k.Way f) :
    (∀ x ∈ f₀.since k, x.call.Plain) ∧ ∀ x ∈ k.since f, x.call.Plain := by
  rw [← List.forall_mem_append, ← Floor.since_trans hbefore.log hafter.log]
  exact h.plain

theorem known_later (h : Kept scale f₀ f (r :: es)) (hbefore : f₀.Way k) (hafter : k.Way f)
    {id : OrderId} {o : Order} (hfind : f₀.store.find? id = some o) :
    ∃ p, k.store.find? id = some p := by
  obtain ⟨hplain, -⟩ := h.plain_split hbefore hafter
  obtain ⟨work, hlead⟩ := hbefore
  obtain ⟨p, hfind', -⟩ := hlead.becomes_of_plain hplain hfind
  exact ⟨p, hfind'⟩

/-- An entry is put in once at most, and then its order was placed. -/
theorem countP_enters (h : Kept scale f₀ f (r :: es)) (hended : ∀ e ∈ es, e.rest.Ended)
    {id : OrderId} (hnone : ∀ x ∈ r.log, x.enters id = false) :
    (f₀.since f).countP (Answered.enters id) ≤ 1 := by
  have hlogs : ∀ es', es' ⊆ es →
      (es'.flatMap (·.log)).countP (Answered.enters id) ≤
        (es'.flatMap (·.log)).countP (Answered.places id) := by
    intro es' hsub
    induction es' with
    | nil => exact Nat.le_refl 0
    | cons e es' ih =>
        obtain ⟨he, hsub⟩ := List.cons_subset.mp hsub
        rw [List.flatMap_cons, List.countP_append, List.countP_append]
        exact Nat.add_le_add ((h.entered he (hended e he)).once id) (ih hsub)
  obtain ⟨work, hlead⟩ := h.way
  calc (f₀.since f).countP (Answered.enters id)
      = (es.flatMap (·.log)).countP (Answered.enters id) := by
        rw [h.logs.countP_eq, List.flatMap_cons, List.countP_append,
          List.countP_eq_zero.mpr fun x hx => by simp [hnone x hx], Nat.zero_add]
    _ ≤ (es.flatMap (·.log)).countP (Answered.places id) := hlogs es (List.Subset.refl es)
    _ ≤ (f₀.since f).countP (Answered.places id) := by
        rw [h.logs.countP_eq, List.flatMap_cons, List.countP_append]
        exact Nat.le_add_left _ _
    _ ≤ 1 := (hlead.countP_places h.plain id).1

end Beside.Kept

/-! ### What reconciling has read and done -/

/-- The orders of that floor were read, and the books were mended by those that belong. -/
structure Reconciled (f₀ f k : Floor) (belonging : List Order) (r : Errand) : Prop where
  before : f₀.Way k
  after : k.Way f
  read : Read k.store.live r.log
  belongs : ∀ o, o ∈ belonging ↔ o ∈ k.store.orders ∧ o.matchable = true
  cleared : Cleared belonging r.log
  shown : ∀ o ∈ belonging, Shown r.log o
  calls : ∀ x ∈ r.log, x.call = .store .live ∨
    ∃ earlier, earlier <+: r.log ∧ Mends belonging earlier x.call ∧ f₀.Made f earlier x

/-- The live orders that were read were those on record at some moment. -/
theorem Beside.Kept.read_at (h : Kept scale f₀ f (r :: es)) (hf₀ : f₀.store.History scale)
    {live : List Order} (hread : Read live r.log) :
    ∃ k, f₀.Way k ∧ k.Way f ∧ live = k.store.live ∧ k.store.History scale := by
  obtain ⟨-, -, -, k, hbefore, -, hmay, hafter⟩ :=
    (h.follows_recover reconcile_traced).2 _ (List.mem_of_mem_head? hread)
  have hafter : k.Way f := hafter.before hmay
  obtain ⟨hplain, -⟩ := h.plain_split hbefore hafter
  obtain ⟨work, hlead⟩ := hbefore
  exact ⟨k, ⟨work, hlead⟩, hafter, hmay, hlead.history_of_plain hf₀ hplain⟩

theorem Beside.Kept.reconciled (h : Kept scale f₀ f (r :: es)) (hf₀ : f₀.store.History scale)
    (hend : r.rest.Ended) : ∃ k belonging, Reconciled f₀ f k belonging r := by
  have hcalls := (h.follows_recover reconcile_traced).2
  obtain ⟨result, hresult⟩ := Errand.Follows.result (h.follows r List.mem_cons_self) hend
    (h.recovers ▸ reconcile_traced)
  cases result with
  | ok =>
      obtain ⟨live, belonging, n, hread, hsurvey, hcleared, hshown⟩ := hresult
      obtain ⟨k, hbefore, hafter, rfl, hk⟩ := h.read_at hf₀ hread
      obtain ⟨belonging', n', hsurvey', hbelongs⟩ := hk.survey_live
      obtain ⟨rfl, rfl⟩ : belonging = belonging' ∧ n = n' := by
        simpa using hsurvey.symm.trans hsurvey'
      refine ⟨k, belonging, hbefore, hafter, hread, hbelongs, hcleared, hshown, fun x hx => ?_⟩
      obtain ⟨earlier, hearlier, hproceeds, hmade⟩ := hcalls x hx
      refine hproceeds.imp_right fun ⟨live', belonging', n', hread', hsurvey', hmends⟩ => ?_
      obtain rfl := hread.eq (hread'.mono hearlier)
      obtain ⟨rfl, -⟩ : belonging = belonging' ∧ n = n' := by
        simpa using hsurvey.symm.trans hsurvey'
      exact ⟨earlier, hearlier, hmends, hmade⟩
  | error e =>
      exfalso
      rcases hresult with ⟨x, hx, hrefused⟩ | ⟨live, hread, hsurvey⟩
      · rw [h.given x (h.log_subset List.mem_cons_self hx)] at hrefused
        cases hrefused
      · obtain ⟨k, -, -, rfl, hk⟩ := h.read_at hf₀ hread
        obtain ⟨belonging, n, hsurvey', -⟩ := hk.survey_live
        rw [hsurvey] at hsurvey'
        cases hsurvey'

section

variable {belonging : List Order} {side : Side} {ticker : String} {id : OrderId}

theorem Reconciled.known (h : Reconciled f₀ f k belonging r)
    (hbelongs : Belongs belonging side ticker id) : ∃ p, k.store.find? id = some p := by
  obtain ⟨p, hp, -, -, rfl⟩ := hbelongs
  exact ⟨p, Store.mem_orders_iff.mp ((h.belongs p).mp hp).1⟩

/-- Reconciling puts in no order that was not on record. -/
theorem Reconciled.enters_none (h : Reconciled f₀ f k belonging r)
    (hunknown : ¬ ∃ p, k.store.find? id = some p) : ∀ x ∈ r.log, x.enters id = false := by
  intro x hx
  by_contra henters
  rw [Bool.not_eq_false] at henters
  unfold Answered.enters at henters
  split at henters
  · obtain rfl := eq_of_beq henters
    obtain ⟨_, _, hbelongs, _⟩ := (h.calls _ hx).resolve_left nofun
    exact hunknown (h.known hbelongs)
  · cases henters

namespace Beside.Kept

/-- An entry is taken out by reconciling only, which has seen it listed before. -/
theorem removed (h : Kept scale f₀ f (r :: es)) (hr : Reconciled f₀ f k belonging r)
    (hremoved : Removed side ticker id (f₀.since f)) : ∃ earlier a, earlier <+: r.log ∧
      Listed side ticker id earlier ∧ ¬ Belongs belonging side ticker id ∧
        f₀.Made f earlier ⟨.index (.remove side ticker id), a⟩ := by
  obtain ⟨a, ha⟩ := hremoved
  obtain ⟨e, he, hx⟩ := List.mem_flatMap.mp (h.logs.mem_iff.mp ha)
  rcases List.mem_cons.mp he with rfl | he
  · obtain ⟨earlier, hearlier, hmends, hmade⟩ := (hr.calls _ hx).resolve_left nofun
    exact ⟨earlier, a, hearlier, hmends.1, hmends.2, hmade⟩
  · exact absurd rfl ((h.submits_calls he hx).2 side ticker id)

/-- What was seen or put in on the way is listed, unless it was taken out. -/
theorem waiting (h : Kept scale f₀ f errands) (hf₀ : f₀.index.Tidy)
    (hshown : Listed side ticker id (f₀.since f) ∨ Enqueued side ticker id (f₀.since f))
    (hkept : ¬ Removed side ticker id (f₀.since f)) : id ∈ f.index.waiting side ticker := by
  obtain ⟨work, hlead⟩ := h.way
  obtain ⟨x, hx, hlists⟩ : ∃ x ∈ f₀.since f, ∀ k : Floor, k.index.Tidy →
      k.May x.call x.answer → id ∈ (k.after x.call x.answer).index.waiting side ticker := by
    rcases hshown with ⟨ids, hx, hid⟩ | ⟨price, a, hx⟩
    · refine ⟨_, hx, fun k _ hmay => ?_⟩
      rw [show ids = k.index.waiting side ticker from hmay] at hid
      exact hid
    · cases a with
      | error e => exact nomatch h.given _ hx
      | ok => exact ⟨_, hx, fun k hk _ => Floor.waiting_enqueued hk price⟩
  obtain ⟨k, next, hbefore, hmay, hafter⟩ := hlead.split hx
  have hk := hbefore.tidy hf₀
  refine hafter.waiting (Floor.indexAfter_tidy hk _ _) (hlists k hk hmay) fun y hy hremoves => ?_
  obtain ⟨c, a⟩ := y
  obtain rfl : c = .index (.remove side ticker id) := hremoves
  refine hkept ⟨a, ?_⟩
  rw [Floor.since_trans (hbefore.log.trans (k.log_after _ _)) hafter.log]
  exact List.mem_append_right _ hy

/-- What was on record all along is where it was taken to belong. -/
theorem listed_of_known (h : Kept scale f₀ f (r :: es)) (hf₀ : f₀.index.Tidy)
    (hr : Reconciled f₀ f k belonging r) {o p : Order} (ho : o ∈ f.store.orders)
    (hmatch : o.matchable = true) (hfind : k.store.find? o.id = some p) :
    p ∈ k.store.live ∧ o.id ∈ f.index.waiting o.side o.ticker := by
  obtain ⟨-, hplain⟩ := h.plain_split hr.before hr.after
  obtain ⟨work, hlead⟩ := hr.after
  obtain ⟨q, hfind', hbecomes⟩ := hlead.becomes_of_plain hplain hfind
  rw [Store.mem_orders_iff.mp ho, Option.some.injEq] at hfind'
  subst hfind'
  have hp : p ∈ k.store.orders := (Store.mem_of_find? hfind).1
  have hmatch : p.matchable = true := hbecomes.matchable hmatch
  have hbelongs : p ∈ belonging := (hr.belongs p).mpr ⟨hp, hmatch⟩
  refine ⟨?_, ?_⟩
  · simpa [Store.live] using ⟨hp, (Order.matchable_iff.mp hmatch).1⟩
  · rw [hbecomes.terms.id, hbecomes.terms.side, hbecomes.terms.ticker]
    have hsub := h.log_subset (List.mem_cons_self : r ∈ r :: es)
    refine h.waiting hf₀ ((hr.shown p hbelongs).mono hsub) fun hremoved => ?_
    obtain ⟨-, -, -, -, habsent, -⟩ := h.removed hr hremoved
    exact habsent (.of_mem hbelongs)

/-- What was placed meanwhile is where it was put, unless reconciling has seen it there. -/
theorem listed_of_unseen (h : Kept scale f₀ f (r :: es)) (hended : ∀ e ∈ es, e.rest.Ended)
    (hf₀ : f₀.index.Tidy) (hr : Reconciled f₀ f k belonging r) {o : Order}
    (ho : o ∈ f.store.orders) (hunknown : ¬ ∃ p, k.store.find? o.id = some p)
    (hunseen : ¬ Listed o.side o.ticker o.id r.log) : o.id ∈ f.index.waiting o.side o.ticker := by
  have hplaced : o.placing ∈ f₀.since f := by
    obtain ⟨-, hplain⟩ := h.plain_split hr.before hr.after
    rw [Floor.since_trans hr.before.log hr.after.log]
    obtain ⟨work, hlead⟩ := hr.after
    exact List.mem_append_right _ ((hlead.placed_of_plain hplain ho).resolve_left hunknown)
  refine h.waiting hf₀ (Or.inr ?_) fun hremoved => ?_
  · obtain ⟨e, he, hplaced⟩ := List.mem_flatMap.mp (h.logs.mem_iff.mp hplaced)
    rcases List.mem_cons.mp he with rfl | he
    · obtain ⟨_, _, hmends, _⟩ := (hr.calls _ hplaced).resolve_left nofun
      exact hmends.elim
    · obtain ⟨price, a, hin⟩ := (h.entered he (hended e he)).enqueued o hplaced
      exact ⟨price, a, h.log_subset (List.mem_cons_of_mem _ he) hin⟩
  · obtain ⟨earlier, -, hearlier, hlisted, -, -⟩ := h.removed hr hremoved
    exact hunseen (hlisted.mono hearlier.subset)

/-- What was seen and was not on record before is gone for good. -/
theorem unlisted_of_seen (h : Kept scale f₀ f (r :: es)) (hended : ∀ e ∈ es, e.rest.Ended)
    (hf₀ : f₀.Sound) (hr : Reconciled f₀ f k belonging r)
    (hunknown : ¬ ∃ p, k.store.find? id = some p) (hseen : Listed side ticker id r.log) :
    id ∉ f.index.waiting side ticker := by
  have habsent : ¬ Belongs belonging side ticker id := fun hbelongs => hunknown (hr.known hbelongs)
  have hfirst : id ∉ f₀.index.waiting side ticker := by
    intro hin
    obtain ⟨o, hfind, -⟩ := hf₀.mem_waiting hin
    exact hunknown (h.known_later hr.before hr.after hfind)
  obtain ⟨earlier, a, -, ⟨ids, hlist, hid⟩, -, m, hbefore, hsub, -, hafter⟩ := h.removed hr
    ((hr.cleared side ticker id hseen habsent).mono (h.log_subset List.mem_cons_self))
  have hsince : f₀.since f = f₀.since m ++ ⟨.index (.remove side ticker id), a⟩ ::
      (m.after (.index (.remove side ticker id)) a).since f := hbefore.since_after hafter
  have hm : m.index.Tidy := hbefore.tidy hf₀.tidy
  -- It was listed before it was taken out, so it was put in by then.
  have hput : 0 < (f₀.since m).countP (Answered.enters id) := by
    obtain ⟨work, hlead⟩ := hbefore
    obtain ⟨g, next, hlead, hmay, hafter⟩ := hlead.split (hsub hlist)
    rw [show ids = g.index.waiting side ticker from hmay] at hid
    rw [Floor.since_trans hlead.log ((g.log_after _ _).trans hafter.log), List.countP_append]
    exact Nat.add_pos_left (hlead.countP_enters_pos hf₀.tidy hid hfirst) _
  -- If it is listed in the end, it was put in again.
  have hagain (hlast : id ∈ f.index.waiting side ticker) :
      0 < ((m.after (.index (.remove side ticker id)) a).since f).countP (Answered.enters id) := by
    obtain ⟨work, hlead⟩ := hafter
    refine hlead.countP_enters_pos (Floor.indexAfter_tidy hm _ _) hlast ?_
    cases a with
    | error e =>
        exact nomatch h.given ⟨.index (.remove side ticker id), .error e⟩ (by simp [hsince])
    | ok taken => exact Floor.not_waiting_removed hm taken
  intro hlast
  have honce := h.countP_enters hended (hr.enters_none hunknown)
  rw [hsince, List.countP_append, List.countP_cons] at honce
  have htwice := hagain hlast
  omega

end Beside.Kept

end

/-! ### What is lost -/

/--
While reconciling, the order was seen in its book, and it was not among the live orders
that had been read.
-/
def Errand.Overlooks (e : Errand) (o : Order) : Prop :=
  e.operation = .recover ∧ (∃ live, Read live e.log ∧ ∀ p ∈ live, p.id ≠ o.id) ∧
    Listed o.side o.ticker o.id e.log

/--
**Reconciling loses just what it overlooks.**  If orders are placed while the index is
reconciled and no call fails, then once all have returned, every order that can be matched
is listed under its side and ticker, except those that were seen in their books and had
not been read before.  An order that was on record when reconciling began is none of them.
-/
theorem Beside.unlisted_iff {errands : List Errand} (h₀ : f₀.Reached scale)
    (h : Beside scale f₀ f errands) (hended : ∀ e ∈ errands, e.rest.Ended) {o : Order}
    (ho : o ∈ f.store.orders) (hmatch : o.matchable = true) :
    (o.id ∉ f.index.waiting o.side o.ticker ↔ ∃ e ∈ errands, e.Overlooks o) ∧
      ((∃ p, f₀.store.find? o.id = some p) → o.id ∈ f.index.waiting o.side o.ticker) := by
  have hkept := h.kept
  obtain ⟨r, es, rfl⟩ : ∃ r es, errands = r :: es := by
    obtain ⟨ops, hops, -⟩ := hkept.operations
    exact List.exists_cons_of_ne_nil fun hnil => by simp [hnil] at hops
  obtain ⟨hrecovered, hsubmitted⟩ := List.forall_mem_cons.mp hended
  obtain ⟨k, belonging, hr⟩ := hkept.reconciled h₀.orderly.history hrecovered
  have honly : (∃ e ∈ r :: es, e.Overlooks o) ↔ r.Overlooks o := by
    refine ⟨fun ⟨e, he, hlooks⟩ => ?_, fun hlooks => ⟨r, List.mem_cons_self, hlooks⟩⟩
    rcases List.mem_cons.mp he with rfl | he
    · exact hlooks
    · obtain ⟨tradable, request, hop⟩ := hkept.submits e he
      exact nomatch hop.symm.trans hlooks.1
  rw [honly]
  by_cases hknown : ∃ p, k.store.find? o.id = some p
  · obtain ⟨p, hfind⟩ := hknown
    obtain ⟨hlive, hlisted⟩ := hkept.listed_of_known h₀.sound.tidy hr ho hmatch hfind
    refine ⟨⟨fun hunlisted => absurd hlisted hunlisted, ?_⟩, fun _ => hlisted⟩
    rintro ⟨-, ⟨live, hread, hmissing⟩, -⟩
    obtain rfl := hread.eq hr.read
    exact absurd (Store.mem_of_find? hfind).2 (hmissing p hlive)
  · refine ⟨⟨fun hunlisted => ⟨hkept.recovers, ⟨_, hr.read, fun p hp hid => ?_⟩, ?_⟩, ?_⟩, ?_⟩
    · have hp : p ∈ k.store.orders := (List.mem_filter.mp hp).1
      exact hknown ⟨p, hid ▸ Store.mem_orders_iff.mp hp⟩
    · by_contra hunseen
      exact hunlisted (hkept.listed_of_unseen hsubmitted h₀.sound.tidy hr ho hknown hunseen)
    · exact fun hlooks => hkept.unlisted_of_seen hsubmitted h₀.sound hr hknown hlooks.2.2
    · exact fun ⟨p, hfind⟩ => absurd (hkept.known_later hr.before hr.after hfind) hknown

/--
An order is waiting when it is begun to reconcile.  Another one is placed before its book
is listed, and a third one after that.
-/
def Beside.threeOrders : Floor × List Errand :=
  let order (price : Nat) : Crowd.Event := .join (.order .buy (.ofDigits price 0) (.ofDigits 1 0))
  run 2 (.session 2 .epoch [.order .sell (.ofDigits 9 0) (.ofDigits 1 0)])
    ([.call 0, order 1] ++ List.replicate 4 (.call 1) ++ [.call 0, .call 0, order 2] ++
      List.replicate 4 (.call 2) ++ [.call 0, .call 0])

theorem Beside.unlisted_threeOrders : (∀ e ∈ threeOrders.2, e.rest.Ended) ∧
    (∃ o ∈ threeOrders.1.store.orders, o.matchable = true ∧ ∃ e ∈ threeOrders.2, e.Overlooks o) ∧
      ∀ id ∈ [1, 3], ∃ o ∈ threeOrders.1.store.orders, o.id = id ∧ o.matchable = true ∧
        ¬ ∃ e ∈ threeOrders.2, e.Overlooks o := by
  have hreached := Floor.reached_session 2 .epoch [.order .sell (.ofDigits 9 0) (.ofDigits 1 0)]
  have hbeside : Beside 2 _ threeOrders.1 threeOrders.2 :=
    Beside.of_run 2 _ (by decide +kernel)
  have hended : ∀ e ∈ threeOrders.2, e.rest.Ended := by decide +kernel
  obtain ⟨⟨o, ho, hmatch, hunlisted⟩, hlisted⟩ : (∃ o ∈ threeOrders.1.store.orders,
      o.matchable = true ∧ o.id ∉ threeOrders.1.index.waiting o.side o.ticker) ∧
        ∀ id ∈ [1, 3], ∃ o ∈ threeOrders.1.store.orders, o.id = id ∧ o.matchable = true ∧
          o.id ∈ threeOrders.1.index.waiting o.side o.ticker := by decide +kernel
  refine ⟨hended, ⟨o, ho, hmatch, ?_⟩, fun id hid => ?_⟩
  · exact (Beside.unlisted_iff hreached hbeside hended ho hmatch).1.mp hunlisted
  · obtain ⟨p, hp, rfl, hmatch, hlisted⟩ := hlisted id hid
    refine ⟨p, hp, rfl, hmatch, fun hlooks => ?_⟩
    exact (Beside.unlisted_iff hreached hbeside hended hp hmatch).1.mpr hlooks hlisted

/-- One order is placed once the live orders have been read, and its book is listed then. -/
def Beside.oneOrder : Floor × List Errand :=
  run 2 .opened ([.call 0, .join (.order .buy (.ofDigits 1 0) (.ofDigits 5 0))] ++
    List.replicate 4 (.call 1) ++ List.replicate 4 (.call 0))

/-- **An order can be lost to reconciling** though no call has failed and all have returned. -/
theorem Beside.not_always_listed :
    ¬ ∀ (scale : Nat) (f₀ f : Floor) (errands : List Errand), f₀.Reached scale →
      Beside scale f₀ f errands → (∀ e ∈ errands, e.rest.Ended) →
      ∀ o ∈ f.store.orders, o.matchable = true → o.id ∈ f.index.waiting o.side o.ticker := by
  intro halways
  obtain ⟨o, ho, hmatch, hunlisted⟩ : ∃ o ∈ oneOrder.1.store.orders, o.matchable = true ∧
      o.id ∉ oneOrder.1.index.waiting o.side o.ticker := by decide +kernel
  refine hunlisted (halways 2 .opened oneOrder.1 oneOrder.2 .opened ?_ ?_ o ho hmatch)
  · exact Beside.of_run 2 .opened (by decide +kernel)
  · decide +kernel

end Bourse
