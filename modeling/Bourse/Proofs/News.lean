/-
The events are the ledger.

Whoever is told of every fill knows the ledger without reading it: written out, two
entries for each event, the events give it back entry by entry, numbers included.  What
an event tells of its two orders is so in the store as the fill has left it, and of the
events that name an order the last one completes it, if the order is filled, and none
does otherwise.

Only the order of the events is not quite that of the ledger.  A fill is told of some calls
after its commit, and in a tick the passes over other tickers go on meanwhile.  So in one
tick, what is told of one ticker can be late for what is told of another one.  The events of
one ticker are in order, and so are those of one thing that was done and of the next one,
and this is enough for whoever looks at one order at a time, as an order is of one ticker.

Two arguments meet here.  The one is about floors and goes call by call: `Chronicle` is
what the calls so far tell of the store, with the fills that were committed in place of
the events.  A commit writes one pair, and nothing else does; a filled order is terminal,
so no later fill can name it.  The other is about programs: work that has ended has told of
its fills, in their order, whatever was answered.  Nothing can go wrong between a commit and
its event, since a failure to take out the entry of a filled order is held.
-/
import Bourse.Proofs.Served

namespace Bourse

open Bourse.Action

/-! ### Events written out -/

namespace FillEvent

/-- The two entries of the ledger that tell of the fill, numbered from `n` on. -/
def entries (n : ExecutionId) (e : FillEvent) : List Execution :=
  [⟨n, e.incomingOrder, e.restingOrder, e.price, e.amount, e.executedAt⟩,
    ⟨n + 1, e.restingOrder, e.incomingOrder, e.price, e.amount, e.executedAt⟩]

/-- The entries of some events one after the other, numbered from `n` on. -/
def writtenOut (n : ExecutionId) : List FillEvent → List Execution
  | [] => []
  | e :: es => e.entries n ++ writtenOut (n + 2) es

theorem length_writtenOut (n : Int) (es : List FillEvent) :
    (writtenOut n es).length = 2 * es.length := by
  induction es generalizing n with
  | nil => rfl
  | cons e es ih =>
      simp only [writtenOut, entries, List.length_append, List.length_cons, List.length_nil, ih]
      omega

theorem writtenOut_append (n : Int) (es more : List FillEvent) :
    writtenOut n (es ++ more) = writtenOut n es ++ writtenOut (n + 2 * es.length) more := by
  induction es generalizing n with
  | nil => simp [writtenOut]
  | cons e es ih =>
      have hnext : n + 2 + 2 * (es.length : Int) = n + 2 * ((e :: es).length : Int) := by
        simp only [List.length_cons]
        omega
      simp only [List.cons_append, writtenOut, ih, hnext, List.append_assoc]

/-- Does the fill have the order on one of its sides? -/
def Names (e : FillEvent) (id : OrderId) : Prop := id = e.incomingOrder ∨ id = e.restingOrder

theorem completes_iff {e : FillEvent} {id : OrderId} : e.completes id = true ↔
    id = e.incomingOrder ∧ e.incomingStatus = .filled ∨
      id = e.restingOrder ∧ e.restingStatus = .filled := by
  simp [completes]

theorem Names.of_completes {e : FillEvent} {id : OrderId} (h : e.completes id = true) :
    e.Names id :=
  (completes_iff.mp h).imp And.left And.left

/-- What the event tells of its two orders is so in the store. -/
structure Reports (e : FillEvent) (s : Store) : Prop where
  incoming : ∃ o, s.find? e.incomingOrder = some o ∧ o.status = e.incomingStatus ∧
    o.ticker = e.ticker
  resting : ∃ o, s.find? e.restingOrder = some o ∧ o.status = e.restingStatus ∧
    o.ticker = e.ticker
  buyer : ∃ o, s.find? e.buyOrder = some o ∧ o.side = .buy
  seller : ∃ o, s.find? e.sellOrder = some o ∧ o.side = .sell
  /-- The buyer and the seller are the order that was being processed and the one it met. -/
  sides : e.buyOrder = e.incomingOrder ∧ e.sellOrder = e.restingOrder ∨
    e.buyOrder = e.restingOrder ∧ e.sellOrder = e.incomingOrder

end FillEvent

/-! ### What the calls tell of the store -/

namespace Store

/-- The store after a call, as its answer tells. -/
def serve (s : Store) : Answered → Store
  | ⟨.store c, .ok _⟩ => (s.perform c).2
  | _ => s

/-- The store after some calls. -/
def after (s : Store) (calls : List Answered) : Store := calls.foldl serve s

theorem after_append (s : Store) (calls more : List Answered) :
    s.after (calls ++ more) = (s.after calls).after more := List.foldl_append

/-- Is the order on record, and is it filled? -/
def Filled (s : Store) (id : OrderId) : Prop := ∃ o, s.find? id = some o ∧ o.status = .filled

variable {s : Store} {fill : FillCommit} {o p : Order}

theorem filled_insert (request : OrderRequest) (time : Instant) (id : OrderId) :
    (s.insert request time).2.Filled id ↔ s.Filled id := by
  unfold Filled
  rw [find?_insert]
  by_cases hid : id = s.nextOrderId
  · rw [if_pos hid, hid, find?_nextOrderId]
    simp [Order.ofRequest]
  · rw [if_neg hid]

theorem filled_cancelled (hfind : s.find? o.id = some o) (hlive : o.status.terminal = false)
    (time : Instant) (id : OrderId) :
    (s.replace (cancelled o time)).Filled id ↔ s.Filled id := by
  have hopen : o.status ≠ .filled := by
    intro hfilled
    rw [hfilled] at hlive
    cases hlive
  unfold Filled
  rw [find?_cancelled hfind]
  by_cases hid : id = o.id
  · rw [if_pos hid, hid, hfind]
    simp [cancelled, hopen]
  · rw [if_neg hid]

/-- What is filled by a commit was open before, and nothing else is filled by it. -/
theorem Takes.filled_commit (h : s.Takes fill o p) (hne : fill.incoming.id ≠ fill.counter.id)
    (id : OrderId) : (s.commit fill).2.Filled id ↔
      s.Filled id ∨ fill.event.completes id = true := by
  have hopen {id' : OrderId} {q : Order} (hq : s.find? id' = some q) (hmatch : q.matchable = true) :
      ¬ s.Filled id' := by
    rintro ⟨q', hq', hfilled⟩
    rw [hq, Option.some.injEq] at hq'
    exact Order.ne_filled_of_matchable hmatch (hq' ▸ hfilled)
  have hincoming := hopen h.incomingFound h.matchable
  have hcounter := hopen h.counterFound h.counterMatchable
  rw [FillEvent.completes_iff]
  show (∃ q, (s.commit fill).2.find? id = some q ∧ q.status = .filled) ↔ s.Filled id ∨
    (id = fill.incoming.id ∧ fill.incoming.status = .filled ∨
      id = fill.counter.id ∧ fill.counter.status = .filled)
  rw [h.find?_commit]
  by_cases hc : id = fill.counter.id
  · subst hc
    simp [hcounter, hne.symm]
  · by_cases hi : id = fill.incoming.id
    · subst hi
      simp [hincoming, hc]
    · simp [hc, hi, Filled]

end Store

/-- The fills that some calls have committed, as they are to be told of. -/
def newsOf (calls : List Answered) : List FillEvent :=
  (calls.filterMap (·.fill?)).map FillCommit.event

theorem newsOf_append (calls more : List Answered) :
    newsOf (calls ++ more) = newsOf calls ++ newsOf more := by
  simp [newsOf]

/-- What is to be told was committed by one of the calls. -/
theorem newsOf_split {calls : List Answered} {earlier later : List FillEvent} {e : FillEvent}
    (h : newsOf calls = earlier ++ e :: later) : ∃ before x rest fill,
      calls = before ++ x :: rest ∧ x.fill? = some fill ∧ fill.event = e ∧
        newsOf before = earlier := by
  unfold newsOf at h ⊢
  obtain ⟨fills, more, hfills, rfl, hmore⟩ := List.map_eq_append_iff.mp h
  obtain ⟨fill, rest, rfl, rfl, -⟩ := List.map_eq_cons_iff.mp hmore
  obtain ⟨before, after, rfl, rfl, hafter⟩ := List.filterMap_eq_append_iff.mp hfills
  obtain ⟨between, x, rest', rfl, hbetween, hx, -⟩ := List.filterMap_eq_cons_iff.mp hafter
  refine ⟨before ++ between, x, rest', fill, by simp, hx, rfl, ?_⟩
  rw [List.filterMap_append, List.filterMap_eq_nil_iff.mpr hbetween, List.append_nil]

namespace Floor

variable {f g : Floor} {c : Call} {a : c.Answer} {scale : Nat}

theorem storeAfter_eq (f : Floor) (c : Call) (a : c.Answer) :
    f.storeAfter c a = f.store.serve ⟨c, a⟩ := by
  cases c with
  | store c => cases a <;> rfl
  | _ => rfl

/-- A call commits a fill, or it writes nothing into the ledger and fills no order. -/
theorem after_cases (hmay : f.May c a) :
    (∃ fill o p, Answered.fill? ⟨c, a⟩ = some fill ∧ f.store.Takes fill o p ∧
      (f.after c a).store = (f.store.commit fill).2) ∨
    (Answered.fill? ⟨c, a⟩ = none ∧ (f.after c a).store.executions = f.store.executions ∧
      ∀ id, (f.after c a).store.Filled id ↔ f.store.Filled id) := by
  cases c with
  | store c =>
      cases a with
      | error e =>
          refine Or.inr ⟨?_, rfl, fun id => Iff.rfl⟩
          cases c <;> rfl
      | ok a =>
          cases (show a = (f.store.perform c).1 from hmay)
          rcases f.store.perform_cases c with ⟨request, time, rfl⟩ | ⟨fill, o, p, rfl, takes⟩ |
            ⟨o, time, rfl, hfind, hlive, hcancel⟩ | ⟨hsame, -, hrecorded⟩
          · exact Or.inr ⟨rfl, rfl, Store.filled_insert request time⟩
          · refine Or.inl ⟨fill, o, p, ?_, takes, rfl⟩
            rw [show (f.store.perform (.commit fill)).1 = _ from takes.committed.1]
            rfl
          · have hstore : (f.after (.store (.cancel o.id time))
                (.ok (f.store.perform (.cancel o.id time)).1)).store =
                  f.store.replace (Store.cancelled o time) := congrArg Prod.snd hcancel
            refine Or.inr ⟨rfl, ?_, fun id => ?_⟩
            · rw [hstore]
              rfl
            · rw [hstore]
              exact Store.filled_cancelled hfind hlive time id
          · have hstore : (f.after (.store c) (.ok (f.store.perform c).1)).store = f.store := hsame
            refine Or.inr ⟨fill?_of_recorded hrecorded, ?_, fun id => ?_⟩
            · rw [hstore]
            · rw [hstore]
  | _ => exact Or.inr ⟨rfl, rfl, fun id => Iff.rfl⟩

/-- What all the calls on a floor tell of the store, at every moment so far. -/
structure Chronicle (f : Floor) : Prop where
  store : Store.empty.after f.log = f.store
  /-- After any of the calls, the ledger was the fills until then, written out. -/
  ledger : ∀ calls, calls <+: f.log →
    (Store.empty.after calls).executions = FillEvent.writtenOut 1 (newsOf calls)
  /-- What is to be told of a fill was so when it had been committed. -/
  reported : ∀ calls x fill, calls ++ [x] <+: f.log → x.fill? = some fill →
    fill.event.Reports (Store.empty.after (calls ++ [x]))
  filled : ∀ id, f.store.Filled id ↔ ∃ e ∈ newsOf f.log, e.completes id = true
  /-- Nothing is to be told of an order once it is completed. -/
  last : (newsOf f.log).Pairwise fun e e' => ∀ id, e.completes id = true → ¬ e'.Names id

theorem chronicle_opened : Chronicle opened where
  store := rfl
  ledger calls hcalls := by
    rw [List.prefix_nil.mp hcalls]
    rfl
  reported calls x fill hcalls := by simp [opened] at hcalls
  filled id := by simp [Store.Filled, opened, newsOf, Store.empty, Store.find?]
  last := by simp [opened, newsOf]

/-- **What is to be told of a fill is so once it is committed.** -/
theorem reports_committed {fill : FillCommit} {o p : Order} (takes : f.store.Takes fill o p)
    (hpaired : (f.store.commit fill).2.Paired (f.store.executionPair fill).incoming
      (f.store.executionPair fill).counter) : fill.event.Reports (f.store.commit fill).2 := by
  obtain ⟨hincoming, hcounter⟩ := takes.find?_filled hpaired.order_ne
  have hsuits := takes.suits hpaired
  have hside := hsuits.side
  cases hincomingSide : fill.incoming.side with
  | buy =>
      have hbuy : fill.event.buyOrder = fill.incoming.id := by
        simp [FillCommit.event, FillEvent.ofFill, hincomingSide]
      have hsell : fill.event.sellOrder = fill.counter.id := by
        simp [FillCommit.event, FillEvent.ofFill, hincomingSide]
      rw [hincomingSide] at hside
      exact {
        incoming := ⟨_, hincoming, rfl, rfl⟩
        resting := ⟨_, hcounter, rfl, hsuits.ticker⟩
        buyer := ⟨_, hbuy ▸ hincoming, hincomingSide⟩
        seller := ⟨_, hsell ▸ hcounter, hside⟩
        sides := Or.inl ⟨hbuy, hsell⟩ }
  | sell =>
      have hbuy : fill.event.buyOrder = fill.counter.id := by
        simp [FillCommit.event, FillEvent.ofFill, hincomingSide]
      have hsell : fill.event.sellOrder = fill.incoming.id := by
        simp [FillCommit.event, FillEvent.ofFill, hincomingSide]
      rw [hincomingSide] at hside
      exact {
        incoming := ⟨_, hincoming, rfl, rfl⟩
        resting := ⟨_, hcounter, rfl, hsuits.ticker⟩
        buyer := ⟨_, hbuy ▸ hcounter, hside⟩
        seller := ⟨_, hsell ▸ hincoming, hincomingSide⟩
        sides := Or.inr ⟨hbuy, hsell⟩ }

namespace Chronicle

theorem store_after (h : f.Chronicle) (c : Call) (a : c.Answer) :
    Store.empty.after (f.after c a).log = (f.after c a).store := by
  rw [after_log, Store.after_append, h.store, after_store, storeAfter_eq]
  rfl

theorem executions_eq (h : f.Chronicle) :
    f.store.executions = FillEvent.writtenOut 1 (newsOf f.log) := by
  rw [← h.store]
  exact h.ledger f.log (List.prefix_refl _)

/-- The ledger after one more call is all that is to be seen to. -/
theorem ledger_after (h : f.Chronicle) (hwritten : (f.after c a).store.executions =
      FillEvent.writtenOut 1 (newsOf (f.after c a).log)) {calls : List Answered}
    (hcalls : calls <+: (f.after c a).log) :
    (Store.empty.after calls).executions = FillEvent.writtenOut 1 (newsOf calls) := by
  rcases List.prefix_concat_iff.mp hcalls with rfl | hcalls
  · rw [← after_log, h.store_after, hwritten]
  · exact h.ledger calls hcalls

/-- What is to be told of the one more call, if it commits a fill, is all that is to be seen to. -/
theorem reported_after (h : f.Chronicle)
    (hnew : ∀ fill, Answered.fill? ⟨c, a⟩ = some fill → fill.event.Reports (f.after c a).store)
    {calls : List Answered} {x : Answered} {fill : FillCommit}
    (hcalls : calls ++ [x] <+: (f.after c a).log) (hfill : x.fill? = some fill) :
    fill.event.Reports (Store.empty.after (calls ++ [x])) := by
  rcases List.prefix_concat_iff.mp hcalls with heq | hcalls
  · obtain ⟨rfl, hsingle⟩ := List.append_inj' heq rfl
    obtain rfl := List.singleton_inj.mp hsingle
    rw [← after_log, h.store_after]
    exact hnew fill hfill
  · exact h.reported calls x fill hcalls hfill

/-- A call that commits a fill goes on with the chronicle. -/
theorem after_fill (h : f.Chronicle) {fill : FillCommit} {o p : Order}
    (hfill : Answered.fill? ⟨c, a⟩ = some fill) (takes : f.store.Takes fill o p)
    (hcommit : (f.after c a).store = (f.store.commit fill).2)
    (hpaired : (f.store.commit fill).2.Paired (f.store.executionPair fill).incoming
      (f.store.executionPair fill).counter)
    (hnext : f.store.nextExecutionId = f.store.executions.length + 1) :
    (f.after c a).Chronicle := by
  have hnews : newsOf (f.after c a).log = newsOf f.log ++ [fill.event] := by
    rw [after_log, newsOf_append]
    simp [newsOf, hfill]
  refine ⟨h.store_after c a, fun calls => h.ledger_after ?_,
    fun calls x fill' => h.reported_after fun fill' hfill' => ?_, fun id => ?_, ?_⟩
  · have hlength := congrArg List.length h.executions_eq
    rw [FillEvent.length_writtenOut] at hlength
    have hissued : (f.store.nextExecutionId : Int) = 1 + 2 * ((newsOf f.log).length : Int) := by
      rw [hnext, hlength, Int.add_comm]
      simp
    obtain ⟨-, hexecutions, -, -, -⟩ := takes.committed
    rw [hcommit, hexecutions, h.executions_eq, hnews, FillEvent.writtenOut_append, ← hissued]
    rfl
  · rw [hfill, Option.some.injEq] at hfill'
    rw [hcommit, ← hfill']
    exact reports_committed takes hpaired
  · rw [hcommit, takes.filled_commit hpaired.order_ne, h.filled, hnews]
    simp [or_and_right, exists_or]
  · rw [hnews]
    refine List.pairwise_append.mpr ⟨h.last, List.pairwise_singleton _ _, ?_⟩
    intro e he e' he' id hcompletes
    rw [List.mem_singleton.mp he']
    -- What was completed before is terminal, and a commit takes no such order.
    obtain ⟨q, hq, hstatus⟩ := (h.filled id).mpr ⟨e, he, hcompletes⟩
    obtain ⟨hin, rfl⟩ := Store.mem_of_find? hq
    obtain ⟨hincoming, hcounter⟩ := takes.ids_ne_of_terminal hin (by rw [hstatus]; rfl)
    rintro (hnamed | hnamed)
    · exact hincoming hnamed
    · exact hcounter hnamed

/-- **Every call goes on with the chronicle.** -/
theorem after (h : f.Chronicle) (hf : f.Orderly scale) (hafter : (f.after c a).Orderly scale)
    (hmay : f.May c a) : (f.after c a).Chronicle := by
  rcases after_cases hmay with ⟨fill, o, p, hfill, takes, hcommit⟩ | ⟨hfill, hsame, hfilled⟩
  · have hpaired := takes.paired hf.history.ledger_kept (hcommit ▸ hafter.history.ledger_kept)
    exact h.after_fill hfill takes hcommit hpaired hf.history.nextExecutionId
  · have hnews : newsOf (f.after c a).log = newsOf f.log := by
      rw [after_log, newsOf_append]
      simp [newsOf, hfill]
    refine ⟨h.store_after c a, fun calls => h.ledger_after ?_,
      fun calls x fill => h.reported_after fun fill hsome => ?_, fun id => ?_, ?_⟩
    · rw [hsame, hnews, h.executions_eq]
    · rw [hfill] at hsome
      cases hsome
    · rw [hfilled, h.filled, hnews]
    · rw [hnews]
      exact h.last

end Chronicle

theorem Served.chronicle {servings : List Serving} (h : f.Served scale servings) : f.Chronicle :=
  h.along (fun _ hf hafter hmay _ hchronicle => hchronicle.after hf hafter hmay) chronicle_opened

/-- The orders that are to be told of are on record, and of the ticker that is told. -/
def Named (f : Floor) : Prop := ∀ e ∈ newsOf f.log, ∀ id, e.Names id →
  ∃ o, f.store.find? id = some o ∧ o.ticker = e.ticker

/-- Of one order, nothing is told of two tickers. -/
theorem Named.ticker_eq (h : f.Named) {e e' : FillEvent} (he : e ∈ newsOf f.log)
    (he' : e' ∈ newsOf f.log) {id : OrderId} (hid : e.Names id) (hid' : e'.Names id) :
    e.ticker = e'.ticker := by
  obtain ⟨o, hfind, hticker⟩ := h e he id hid
  obtain ⟨p, hfind', hticker'⟩ := h e' he' id hid'
  rw [hfind, Option.some.injEq] at hfind'
  rw [← hticker, hfind', hticker']

/-- **Every call goes on like this**, since orders keep their tickers. -/
theorem Named.after (h : f.Named) (hf : f.Orderly scale) (hafter : (f.after c a).Orderly scale)
    (hmay : f.May c a) (hbecomes : f.Becomes (f.after c a)) : (f.after c a).Named := by
  intro e he id hid
  rw [after_log, newsOf_append] at he
  rcases List.mem_append.mp he with he | he
  · obtain ⟨o, hfind, hticker⟩ := h e he id hid
    obtain ⟨p, hfind', hop⟩ := hbecomes.orders id o hfind
    exact ⟨p, hfind', hop.terms.ticker.trans hticker⟩
  · rcases after_cases hmay with ⟨fill, o, p, hfill, takes, hcommit⟩ | ⟨hfill, -⟩
    · obtain rfl : e = fill.event := by simpa [newsOf, hfill] using he
      have hpaired := takes.paired hf.history.ledger_kept (hcommit ▸ hafter.history.ledger_kept)
      have hreports := hcommit ▸ reports_committed takes hpaired
      rcases hid with rfl | rfl
      · exact hreports.incoming.imp fun _ h => ⟨h.1, h.2.2⟩
      · exact hreports.resting.imp fun _ h => ⟨h.1, h.2.2⟩
    · simp [newsOf, hfill] at he

theorem Served.named {servings : List Serving} (h : f.Served scale servings) : f.Named :=
  h.along (fun _ hf hafter hmay hbecomes hnamed => hnamed.after hf hafter hmay hbecomes)
    fun _ he => nomatch he

end Floor

/-! ### Work that has told of its fills when it ends -/

/-- The calls tell of the fills that they have committed, in their order. -/
def Told (calls : List Answered) : Prop := calls.filterMap (·.event?) = newsOf calls

/-- Of the fills of one ticker they do. -/
def ToldOf (ticker : String) (calls : List Answered) : Prop :=
  (calls.filterMap (·.event?)).filter (·.ticker == ticker) =
    (newsOf calls).filter (·.ticker == ticker)

theorem Told.toldOf {calls : List Answered} (h : Told calls) (ticker : String) :
    ToldOf ticker calls :=
  congrArg (List.filter _) h

theorem ToldOf.append {ticker : String} {calls later : List Answered} (h : ToldOf ticker calls)
    (h' : ToldOf ticker later) : ToldOf ticker (calls ++ later) := by
  unfold ToldOf at h h' ⊢
  rw [List.filterMap_append, newsOf_append, List.filter_append, List.filter_append, h, h']

/-- A fill is told of by one event, once its entry was dropped. -/
theorem reads_event : FillCommit.Reads Answered.event? FillCommit.event where
  other {c} _ hc := by
    cases c with
    | notify e => exact absurd rfl hc
    | _ => rfl
  commit _ _ := rfl
  once _ _ := rfl

/-- Of what passes that take turns have to tell, that of one ticker is what its pass has. -/
theorem newsOf_callsOf {trace : List (String × Answered)}
    (htags : ∀ x ∈ trace, ∀ fill, x.2.fill? = some fill → fill.incoming.ticker = x.1)
    (ticker : String) : (newsOf (trace.map (·.2))).filter (·.ticker == ticker) =
      newsOf (callsOf trace ticker) := by
  have hnews (calls : List Answered) :
      newsOf calls = calls.filterMap fun x => x.fill?.map FillCommit.event :=
    List.map_filterMap
  rw [hnews, hnews]
  refine filter_filterMap (fun x hx e he => ?_) ticker
  obtain ⟨fill, hfill, rfl⟩ := Option.map_eq_some_iff.mp he
  exact htags x hx fill hfill

/-- **Passes that take turns tell of the fills of a ticker in their order**, if each does. -/
theorem toldOf_trace {trace : List (String × Answered)}
    (htold : ∀ ticker, Told (callsOf trace ticker))
    (htags : ∀ x ∈ trace, ∀ fill, x.2.fill? = some fill → fill.incoming.ticker = x.1)
    (ticker : String) : ToldOf ticker (trace.map (·.2)) := by
  -- What a pass tells of, it has committed.
  have hticker : ∀ x ∈ trace, ∀ e, x.2.event? = some e → e.ticker = x.1 := by
    intro x hx e he
    have htells : e ∈ newsOf (callsOf trace x.1) :=
      htold x.1 ▸ List.mem_filterMap.mpr ⟨x.2, mem_callsOf.mpr hx, he⟩
    rw [← newsOf_callsOf htags] at htells
    exact beq_iff_eq.mp (List.mem_filter.mp htells).2
  unfold ToldOf
  rw [filter_filterMap hticker, htold ticker, newsOf_callsOf htags]

theorem Floor.Ticks.toldOf {f g : Floor} {fan : Fan} {r : Except Failure TickOutcome}
    (h : f.Ticks scale fan r g) (hf : f.Orderly scale) (hsound : f.Sound) (ticker : String) :
    ToldOf ticker (f.since g) := by
  have htags := (h.trail hf hsound).2
  have htick : CallKind.tick.Keeps (Echoes Answered.event? FillCommit.event) :=
    reads_event.keeps (by decide)
  cases h with
  | idle hopen =>
      obtain ⟨_, -, hcalls⟩ := openTick_makes.of_ended (r := .ok _) hopen
      have htold : Told (f.since g) := hcalls.upholds reads_event.rule htick
      exact htold.toldOf ticker
  | @fanned _ tickers v w _ _ hopen hnodup hactive hfan hclose =>
      obtain ⟨_, -, hbefore⟩ := openTick_makes.of_ended (r := .ok _) hopen
      have hopened : Told (f.since v) := hbefore.upholds reads_event.rule htick
      have hclosed : Told (w.since g) :=
        ((closeTick_makes _).of_ended hclose).upholds reads_event.rule htick
      rw [hfan.since_between hopen.log hclose.log]
      exact ((hopened.toldOf ticker).append
        (toldOf_trace (reads_event.rule.passes hfan) htags ticker)).append (hclosed.toldOf ticker)

/-! ### The stream of events -/

namespace Serving

/-- What was handed on of fills while it was done, whether it got through or not. -/
def events (s : Serving) : List FillEvent := s.calls.filterMap (·.event?)

/-- What there was to tell of it. -/
def news (s : Serving) : List FillEvent := newsOf s.calls

/-- How what was told hangs together with what there was to tell. -/
structure Tells (s : Serving) : Prop where
  /-- Every fill was told of once, and nothing else. -/
  all : s.events.Perm s.news
  /-- The fills of one ticker were told of in their order. -/
  each : ∀ ticker, s.events.filter (·.ticker == ticker) = s.news.filter (·.ticker == ticker)
  /-- Unless the passes of a tick have taken turns, all were. -/
  serial : s.Serial → s.events = s.news

theorem Done.tells {s : Serving} (h : s.Done scale) (hf : s.before.Orderly scale)
    (hsound : s.before.Sound) : s.Tells := by
  obtain ⟨hall, hserial⟩ := h.echoes reads_event
  refine ⟨hall, ?_, hserial⟩
  cases h with
  | operation => exact fun ticker => congrArg (List.filter _) (hserial nofun)
  | find => exact fun ticker => congrArg (List.filter _) (hserial nofun)
  | tick hticks => exact hticks.toldOf hf hsound

end Serving

namespace Floor

variable {f : Floor} {servings : List Serving}

/-- All that was ever handed on of fills, whether it got through or not. -/
def events (f : Floor) : List FillEvent := f.log.filterMap (·.event?)

namespace Served

theorem tells (h : f.Served scale servings) : ∀ s ∈ servings, s.Tells := by
  intro s hs
  obtain ⟨hdone, earlier, hbefore⟩ := h.each s hs
  exact hdone.tells hbefore.orderly hbefore.sound

theorem events_eq (h : f.Served scale servings) : f.events = servings.flatMap (·.events) := by
  unfold events
  rw [h.log_eq, List.filterMap_flatMap]
  rfl

theorem news_eq (h : f.Served scale servings) : newsOf f.log = servings.flatMap (·.news) := by
  unfold newsOf
  rw [h.log_eq, List.filterMap_flatMap, List.map_flatMap]
  rfl

/-- Over all that was done, the fills of one ticker were told of in their order. -/
theorem toldOf (h : f.Served scale servings) (ticker : String) : ToldOf ticker f.log := by
  show f.events.filter _ = _
  rw [h.events_eq, h.news_eq, List.filter_flatMap, List.filter_flatMap]
  exact List.flatMap_congr fun s hs => (h.tells s hs).each ticker

/-- **Every fill was told of once**, and nothing else. -/
theorem events_perm (h : f.Served scale servings) : f.events.Perm (newsOf f.log) :=
  h.echoes reads_event

end Served

/-- What is so within each class and between any two is so throughout. -/
theorem pairwise_of_filter {α β : Type} [BEq β] [LawfulBEq β] {R : α → α → Prop} (key : α → β)
    {l : List α} (hwithin : ∀ k, (l.filter (key · == k)).Pairwise R)
    (hbetween : ∀ a ∈ l, ∀ b ∈ l, key a ≠ key b → R a b) : l.Pairwise R := by
  induction l with
  | nil => exact .nil
  | cons a l ih =>
      refine List.pairwise_cons.mpr ⟨fun b hb => ?_, ih (fun k => ?_) fun b hb c hc => ?_⟩
      · by_cases hkey : key a = key b
        · have hall := hwithin (key a)
          rw [List.filter_cons_of_pos (by simp), List.pairwise_cons] at hall
          exact hall.1 b (List.mem_filter.mpr ⟨hb, by simp [hkey]⟩)
        · exact hbetween a List.mem_cons_self b (List.mem_cons_of_mem a hb) hkey
      · exact (hwithin k).sublist ((List.sublist_cons_self a l).filter _)
      · exact hbetween b (List.mem_cons_of_mem a hb) c (List.mem_cons_of_mem a hc)

/-- **Nothing is told of an order once it is completed.** -/
theorem Served.last (h : f.Served scale servings) :
    f.events.Pairwise fun e e' => ∀ id, e.completes id = true → ¬ e'.Names id := by
  refine pairwise_of_filter (·.ticker) (fun ticker => ?_) fun e he e' he' hne id hid => ?_
  · have htold : f.events.filter (·.ticker == ticker) = _ := h.toldOf ticker
    rw [htold]
    exact h.chronicle.last.sublist List.filter_sublist
  · rw [h.events_perm.mem_iff] at he he'
    exact fun hnamed => hne (h.named.ticker_eq he he' (.of_completes hid) hnamed)

/-- How the events on a floor tell of its ledger and of its orders. -/
structure Announces (f : Floor) (servings : List Serving) : Prop where
  /-- Written out, what there is to tell of the fills is the ledger. -/
  ledger : f.store.executions = FillEvent.writtenOut 1 (newsOf f.log)
  /-- What was told of is what there is to tell of, -/
  all : f.events.Perm (newsOf f.log)
  /-- one thing that was done after the other, -/
  inOrder : f.events = servings.flatMap (·.events) ∧ newsOf f.log = servings.flatMap (·.news)
  /-- and in each of them, in order but for the passes of a tick that have taken turns. -/
  tells : ∀ s ∈ servings, s.Tells
  /-- Each event tells of its orders what the store held right after the commit. -/
  reported : ∀ earlier e later, newsOf f.log = earlier ++ e :: later →
    ∃ before fill receipt rest,
      f.log = before ++ ⟨.store (.commit fill), .ok (.committed receipt)⟩ :: rest ∧
        (Store.empty.after before).executions = FillEvent.writtenOut 1 earlier ∧
        ((Store.empty.after before).commit fill).2.executions =
          FillEvent.writtenOut 1 (earlier ++ [e]) ∧
        e.Reports ((Store.empty.after before).commit fill).2
  /-- A filled order is completed by one event, and that is the last one that names it. -/
  completed : ∀ o ∈ f.store.orders, o.status = .filled →
    f.events.countP (·.completes o.id) = 1 ∧
      ∃ earlier e later, f.events = earlier ++ e :: later ∧ e.completes o.id = true ∧
        ∀ e' ∈ later, ¬ e'.Names o.id
  /-- No event completes an order that is not filled. -/
  only : ∀ e ∈ f.events, ∀ id, e.completes id = true →
    ∃ o ∈ f.store.orders, o.id = id ∧ o.status = .filled

/-- An order that nothing is told of once it is completed is completed by one event. -/
theorem countP_completes {events : List FillEvent}
    (hlast : events.Pairwise fun e e' => ∀ id, e.completes id = true → ¬ e'.Names id)
    {e : FillEvent} (he : e ∈ events) {id : OrderId} (hcompletes : e.completes id = true) :
    events.countP (·.completes id) = 1 ∧
      ∃ earlier e later, events = earlier ++ e :: later ∧ e.completes id = true ∧
        ∀ e' ∈ later, ¬ e'.Names id := by
  obtain ⟨earlier, later, rfl⟩ := List.mem_iff_append.mp he
  rw [List.pairwise_append, List.pairwise_cons] at hlast
  obtain ⟨-, ⟨hlater, -⟩, hearlier⟩ := hlast
  -- Before it, an event that completes the order would be the last one to name it.
  have hnone : earlier.countP (·.completes id) = 0 := by
    rw [List.countP_eq_zero]
    intro e' he' hcompletes'
    exact hearlier e' he' e List.mem_cons_self id hcompletes' (.of_completes hcompletes)
  have hnone' : later.countP (·.completes id) = 0 := by
    rw [List.countP_eq_zero]
    intro e' he' hcompletes'
    exact hlater e' he' id hcompletes (.of_completes hcompletes')
  refine ⟨?_, earlier, e, later, rfl, hcompletes, fun e' he' => hlater e' he' id hcompletes⟩
  rw [List.countP_append, List.countP_cons, if_pos hcompletes, hnone, hnone']

/--
**The events are the ledger**, whatever calls have failed: one for each of its pairs, and of
what the store was when the pair had been written.  They are in its order but for those of
different tickers in one tick.  An order that is filled is completed by the last event that
names it and by no other one.
-/
theorem Served.announces (h : f.Served scale servings) : f.Announces servings := by
  have hf := h.chronicle
  refine ⟨hf.executions_eq, h.events_perm, ⟨h.events_eq, h.news_eq⟩, h.tells,
    fun earlier e later hsplit => ?_, fun o ho hstatus => ?_, fun e he id hid => ?_⟩
  · obtain ⟨before, x, rest, fill, hlog, hfill, rfl, rfl⟩ := newsOf_split hsplit
    obtain ⟨receipt, rfl⟩ := Answered.eq_of_fill? hfill
    have hprefix : before ++ [⟨.store (.commit fill), .ok (.committed receipt)⟩] <+: f.log := by
      refine ⟨rest, ?_⟩
      rw [hlog, List.append_assoc]
      rfl
    have hcommitted : Store.empty.after (before ++ [⟨.store (.commit fill),
        .ok (.committed receipt)⟩]) = ((Store.empty.after before).commit fill).2 := by
      rw [Store.after_append]
      rfl
    refine ⟨before, fill, receipt, rest, hlog, ?_, ?_, ?_⟩
    · exact hf.ledger before ((List.prefix_append _ _).trans hprefix)
    · rw [← hcommitted, hf.ledger _ hprefix, newsOf_append]
      rfl
    · rw [← hcommitted]
      exact hf.reported before _ fill hprefix hfill
  · obtain ⟨e, he, hcompletes⟩ := (hf.filled o.id).mp ⟨o, Store.mem_orders_iff.mp ho, hstatus⟩
    exact countP_completes h.last (h.events_perm.mem_iff.mpr he) hcompletes
  · obtain ⟨o, hfind, hstatus⟩ := (hf.filled id).mpr ⟨e, h.events_perm.mem_iff.mp he, hid⟩
    obtain ⟨ho, hoid⟩ := Store.mem_of_find? hfind
    exact ⟨o, ho, hoid, hstatus⟩

/-- A buy order for 1.5 meets two sell orders for 1, and half of the second one is left. -/
def halfLeft : Floor :=
  session 2 .epoch [.order .sell (.ofDigits 1 0) (.ofDigits 1 0),
    .order .sell (.ofDigits 1 0) (.ofDigits 1 0), .order .buy (.ofDigits 1 0) (.ofDigits 15 1),
    .tick, .cancel 2]

theorem announces_halfLeft :
    halfLeft.events.map (fun e => (e.incomingOrder, e.restingOrder)) = [(3, 1), (3, 2)] ∧
    halfLeft.events.map (fun e => (e.incomingStatus, e.restingStatus)) =
      [(.partlyFilled, .filled), (.filled, .partlyFilled)] ∧
    ∃ servings, halfLeft.Served 2 servings ∧ halfLeft.Announces servings := by
  have hreached : halfLeft.Reached 2 := reached_session _ _ _
  obtain ⟨servings, hserved, -⟩ := hreached.served
  exact ⟨by decide +kernel, by decide +kernel, servings, hserved, Served.announces hserved⟩

/-- **The events need not be in the order of the ledger**: Y is told of before X here. -/
theorem not_in_order : ¬ ∀ (scale : Nat) (servings : List Serving) (f : Floor),
    f.Served scale servings → f.store.executions = FillEvent.writtenOut 1 f.events := by
  intro hall
  obtain ⟨servings, hserved⟩ := served_overtaken
  have hsame := congrArg (List.map (·.order)) (hall 2 servings overtaken hserved)
  have hdiffer : overtaken.store.executions.map (·.order) ≠
      (FillEvent.writtenOut 1 overtaken.events).map (·.order) := by decide +kernel
  exact hdiffer hsame

end Floor

end Bourse
