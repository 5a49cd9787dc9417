/-
How the operations behave on a floor that others work on too.

Every operation is followed call by call.  Matching and a whole tick do nothing but trade,
whatever the others do meanwhile.  Cancelling does nothing else but withdraw an order.
Reconciling takes out what others may have put in since it looked, so all that is known of
it is that it keeps a floor sound.

Placing an order is the one operation that relies on the others.  Between its two calls
its order is on record but not in the index, and no one else will put it there.  When it
has returned, the order is covered, or the store has failed to withdraw it.
-/
import Bourse.Proofs.Calls
import Bourse.Proofs.Seen

namespace Bourse

open Bourse.Action

variable {scale : Nat} {f : Floor} {mine : List Answered}

/-! ### Matching an order -/

theorem Order.dropFilled_gives {o : Order} (h : f.Knows o) (ticker : String) :
    (o.dropFilled ticker).Gives .any .trading f := by
  unfold Order.dropFilled
  split
  · rename_i hfilled
    have hidle : f.Idle o.side ticker o.id := h.idle fun hmatch => by
      rw [Order.matchable_iff, hfilled] at hmatch
      cases hmatch.1
    have hremove : (index (.remove o.side ticker o.id)).Gives .any .trading f :=
      gives_index fun _ hfg => Floor.Trades.remove (hfg.idle hidle)
    exact hremove.attempt.bind fun _ _ _ => gives_done ()
  · exact gives_done ()

theorem FillCommit.settle_gives {fill : FillCommit} (h : f.Knows fill.counter) (ticker : String) :
    (fill.settle ticker).Gives .any .trading f := by
  refine gives_aside rfl fun _ g hfg => ?_
  show (fill.counter.dropFilled ticker >>= _).Gives _ _ _
  refine (Order.dropFilled_gives (hfg.knows h) ticker).bind fun _ _ _ => ?_
  exact gives_aside rfl fun _ _ _ => gives_done ()

/-- What is listed is on record for good, so an entry that is dropped is idle. -/
theorem Order.nominated_gives (o : Order) {loaded : List Order} {ids : List OrderId}
    (h : ∀ id ∈ ids, ∃ c, loaded.find? (·.id == id) = some c ∧ f.Knows c) :
    (o.nominated loaded ids).Gives .any .trading f := by
  induction ids generalizing f with
  | nil => exact gives_done _
  | cons id ids ih =>
      obtain ⟨c, hfind, hc⟩ := h id (by simp)
      have hrest {g : Floor} (hfg : f.Becomes g) :
          (o.nominated loaded ids).Gives .any .trading g := by
        refine ih fun id hid => ?_
        obtain ⟨c, hfind, hc⟩ := h id (List.mem_cons_of_mem _ hid)
        exact ⟨c, hfind, hfg.knows hc⟩
      unfold nominated
      rw [hfind]
      dsimp only
      by_cases hopposes : c.opposes o = true
      · rw [if_pos hopposes]
        exact (hrest (Change.any.of_same rfl rfl)).bind fun _ _ _ => gives_done _
      · rw [if_neg hopposes]
        have hidle : f.Idle o.side.opposite o.ticker id := by
          have hid : c.id = id := by simpa using List.find?_some hfind
          refine hid ▸ hc.idle fun hmatch hside hticker => hopposes ?_
          exact Order.opposes_iff.mpr ⟨hmatch, hside, hticker⟩
        have hremove : (index (.remove o.side.opposite o.ticker id)).Gives .any .trading f :=
          gives_index fun _ hfg => Floor.Trades.remove (hfg.idle hidle)
        exact hremove.bind fun _ _ hfg => (hrest hfg).bind fun _ _ _ => gives_done _

/-- The counter orders that are found are known, and may be met. -/
theorem Order.candidates_among (hf : f.Sound) (o : Order) :
    o.candidates.Among .any .trading (fun r _ g => ∀ a, r = .ok a →
      ∀ c ∈ a.1, g.Knows c ∧ o.mayMeet c = true) mine f := by
  have hlist : (index (.list o.side.opposite o.ticker)).Among .any .trading
      (fun r _ g => ∀ ids, r = .ok ids → ∀ id ∈ ids, ∃ p, g.store.find? id = some p) mine f := by
    refine among_index (fun g hfg => ⟨.of_same rfl rfl, ?_⟩) fun _ _ _ _ h => nomatch h
    intro ids h id hid
    cases h
    obtain ⟨p, hfind, -⟩ := (hfg.sound hf).mem_waiting hid
    exact ⟨p, hfind⟩
  unfold candidates
  refine hlist.bind (fun ids mine g _ hids => ?_) fun e _ _ _ _ _ h => nomatch h
  replace hids := hids ids rfl
  cases ids with
  | nil =>
      intro a h c hc
      cases h
      cases hc
  | cons id' ids' =>
      have hload : (store (.loadMany (id' :: ids'))).Among .any .trading (fun r _ g =>
          ∀ loaded, r = .ok loaded → ∀ id ∈ id' :: ids',
            ∃ c, loaded.find? (·.id == id) = some c ∧ g.Knows c) mine g := by
        refine among_store (fun k hgk => ⟨.of_same rfl rfl, ?_⟩) fun _ _ _ _ h => nomatch h
        intro loaded h id hid
        cases h
        obtain ⟨p, hfind⟩ := hids id hid
        obtain ⟨c, hfind', -⟩ := hgk.orders id p hfind
        refine ⟨c, ?_, Floor.knows_of_find? hfind'⟩
        exact (k.store.find?_loaded _ id).trans ((if_pos hid).trans hfind')
      refine hload.bind (fun loaded mine g _ hloaded => ?_) fun e _ _ _ _ _ h => nomatch h
      replace hloaded := hloaded loaded rfl
      refine ((o.nominated_gives hloaded mine).of_quiet (o.quiet_nominated loaded _)).bind
        (fun a mine k hgk hfound => ?_) fun e _ _ _ _ _ h => nomatch h
      intro b h c hc
      cases h
      -- They are among what was loaded, and so they were known then.
      have hc : c ∈ a.1 := (o.side.queue_perm a.1).mem_iff.mp hc
      rw [hfound.2 a rfl, List.mem_filter, List.mem_filterMap] at hc
      obtain ⟨⟨id, hid, hfind⟩, hmay⟩ := hc
      obtain ⟨c', hfind', hknows⟩ := hloaded id hid
      rw [hfind, Option.some.injEq] at hfind'
      exact ⟨hgk.knows (hfind' ▸ hknows), hmay⟩

/-- A fill of two orders that are known leaves both of them known, if it goes through. -/
theorem commit_among {o c : Order} (ho : f.Knows o) (hc : f.Knows c) (hmay : o.mayMeet c = true)
    {time : Instant} {fill : FillCommit} (hfill : o.fillWith c scale time = .ok fill) :
    (store (.commit fill)).Among .any .trading (fun r _ g => ∀ receipt,
      r = .ok (.committed receipt) → g.Knows fill.incoming ∧ g.Knows fill.counter) mine f := by
  have hne := Order.fillWith_ids_ne hfill (ho.id_ne hc hmay)
  refine among_store (fun g hfg => ⟨?_, ?_⟩) fun _ _ _ _ h => nomatch h
  · exact Floor.Trades.commit (hfg.knows ho) (hfg.knows hc) hfill
  · intro receipt h
    exact Floor.knows_commit hne (Except.ok.inj h)

/-- Along a queue of orders that were read once, there is nothing but trades. -/
theorem walk_among (ticker : String) {counters : List Order} {o : Order} (ho : f.Knows o)
    (hcounters : ∀ c ∈ counters, f.Knows c ∧ o.mayMeet c = true) :
    (walk scale ticker counters o).Among .any .trading
      (fun r _ g => ∀ a, r = .ok a → g.Knows a.1) mine f := by
  have hend {o : Order} {g : Floor} {mine : List Answered} (ho : g.Knows o) :
      (done (o, ([] : List FillEvent), ([] : List Execution))).Among .any .trading
        (fun r _ g => ∀ a, r = .ok a → g.Knows a.1) mine g := by
    intro a h
    cases h
    exact ho
  induction counters generalizing o f mine with
  | nil => exact hend ho
  | cons c cs ih =>
      unfold walk
      by_cases hmatch : o.matchable = true
      · simp only [hmatch, Bool.not_true, Bool.false_eq_true, if_false]
        refine among_aside rfl fun time g hfg => ?_
        show (ofExcept (o.fillWith c scale time) >>= _).Among _ _ _ _ _
        cases hfill : o.fillWith c scale time with
        | error e => exact fun _ h => nomatch h
        | ok fill =>
            obtain ⟨hc, hmay⟩ := hcounters c (by simp)
            refine (commit_among (hfg.knows ho) (hfg.knows hc) hmay hfill).bind
              (fun outcome mine k hgk hcommitted => ?_) fun e _ _ _ _ _ h => nomatch h
            have hrest {l : Floor} (hkl : k.Becomes l) :
                ∀ d ∈ cs, l.Knows d ∧ o.mayMeet d = true := by
              intro d hd
              obtain ⟨hd, hmay⟩ := hcounters d (List.mem_cons_of_mem _ hd)
              exact ⟨((hfg.trans hgk).trans hkl).knows hd, hmay⟩
            cases outcome with
            | committed receipt =>
                obtain ⟨hi, hk⟩ := hcommitted receipt rfl
                refine (fill.settle_gives hk ticker _).bind (fun _ mine l hkl _ => ?_)
                  fun e _ _ _ _ _ h => nomatch h
                refine (ih (hkl.knows hi) fun d hd => ?_).bind
                  (fun a mine m _ hlast => ?_) fun e _ _ _ _ _ h => nomatch h
                · obtain ⟨hd, hmay⟩ := hrest hkl d hd
                  have hterms := (Order.fill_ok (Order.fillWith_ok hfill).incomingFill).terms
                  exact ⟨hd, (Order.mayMeet_congr hterms d).trans hmay⟩
                · intro b h
                  cases h
                  exact hlast a rfl
            | counterUnavailable =>
                exact ih ((hfg.trans hgk).knows ho) (hrest (Change.any.of_same rfl rfl))
            | incomingUnavailable => exact hend ((hfg.trans hgk).knows ho)
      · rw [Bool.not_eq_true] at hmatch
        simp only [hmatch, Bool.not_false, if_true]
        exact hend ho

/-- **Matching an order does nothing but trade**, whatever the others do meanwhile. -/
theorem processOrder_gives (hf : f.Sound) (id : OrderId) (ticker : String) :
    (processOrder scale id ticker).Gives .any .trading f := by
  intro mine
  have hload : (store (.load id)).Among .any .trading (fun r _ g =>
      ∀ o, r = .ok (some o) → g.Knows o ∧ o.id = id) mine f := by
    refine among_store (fun g _ => ⟨.of_same rfl rfl, fun o h => ?_⟩) fun _ _ _ _ h => nomatch h
    have hfind : g.store.find? id = some o := Except.ok.inj h
    exact ⟨Floor.knows_of_find? hfind, (Store.mem_of_find? hfind).2⟩
  unfold processOrder
  refine hload.bind (fun found mine g hfg ho => ?_) fun _ _ _ _ _ => trivial
  cases found with
  | none => exact gives_done _ _
  | some o =>
      replace ho := ho o rfl
      obtain ⟨ho, rfl⟩ := ho
      dsimp only
      split
      · exact gives_fail _ _
      · split
        · -- It can no longer be matched, so its entry is idle.
          rename_i hmatch
          rw [Bool.not_eq_true'] at hmatch
          have hidle : g.Idle o.side ticker o.id := ho.idle fun h => by
            rw [hmatch] at h
            cases h
          have hremove : (index (.remove o.side ticker o.id)).Gives .any .trading g :=
            gives_index fun _ hgk => Floor.Trades.remove (hgk.idle hidle)
          exact (hremove.bind fun _ _ _ => gives_done _) mine
        · refine (o.candidates_among (hfg.sound hf)).bind (fun a mine k hgk hfound => ?_)
            fun _ _ _ _ _ => trivial
          refine (walk_among ticker (hgk.knows ho) (hfound a rfl)).bind
            (fun b mine l _ hlast => ?_) fun _ _ _ _ _ => trivial
          exact ((Order.dropFilled_gives (hlast b rfl) ticker).bind fun _ _ _ => gives_done _) mine

/-! ### A tick -/

theorem drainOrders_gives (hf : f.Sound) (ticker : String) (ids : List OrderId) (r : TickReport) :
    (drainOrders scale ticker ids r).Gives .any .trading f := by
  induction ids generalizing r f with
  | nil => exact gives_done r
  | cons id ids ih =>
      unfold drainOrders
      refine gives_aside rfl fun _ g hfg => ?_
      have hg := hfg.sound hf
      refine (processOrder_gives hg id ticker).attemptError.bind fun turn k hgk => ?_
      cases turn with
      | ok report =>
          refine (gives_total _ _).bind fun filled l hkl => (gives_total _ _).bind
            fun amount m hlm => ih (((hgk.trans hkl).trans hlm).sound hg) _
      | error e =>
          exact gives_aside rfl fun _ l hkl => ih ((hgk.trans hkl).sound hg) _

theorem drainSide_gives (hf : f.Sound) (ticker : String) (side : Side) (r : TickReport) :
    (drainSide scale ticker side r).Gives .any .trading f := by
  have hlist : (index (.list side ticker)).Gives .any .trading f :=
    gives_index fun _ _ => .of_same rfl rfl
  unfold drainSide
  refine hlist.attemptError.bind fun ids g hfg => ?_
  cases ids with
  | ok ids => exact drainOrders_gives (hfg.sound hf) ticker ids r
  | error e => exact gives_done _

theorem drainTicker_gives (hf : f.Sound) (ticker : String) :
    (drainTicker scale ticker).Gives .any .trading f :=
  (drainSide_gives hf ticker .buy _).bind
    fun r _ hfg => drainSide_gives (hfg.sound hf) ticker .sell r

theorem drainTickers_gives (hf : f.Sound) (tickers : List String) :
    (drainTickers scale tickers).Gives .any .trading f := by
  induction tickers generalizing f with
  | nil => exact gives_done _
  | cons ticker tickers ih =>
      exact (drainTicker_gives hf ticker).attempt.bind
        fun r _ hfg => (ih (hfg.sound hf)).bind fun rs _ _ => gives_done _

/-- **A tick does nothing but trade.** -/
theorem tick_gives (hf : f.Sound) : (tick scale).Gives .any .trading f := by
  have htickers {f : Floor} : (index .tickers).Gives .any .trading f :=
    gives_index fun _ _ => .of_same rfl rfl
  have hpass {f : Floor} (hf : f.Sound) : (tickPass scale).Gives .any .trading f := by
    unfold tickPass
    refine htickers.attemptError.bind fun tickers g hfg => ?_
    cases tickers with
    | error e => exact gives_aside rfl fun _ _ _ => gives_done _
    | ok tickers =>
        refine (drainTickers_gives (hfg.sound hf) tickers).bind fun passes _ _ =>
          (gives_total _ _).bind fun r _ _ => ?_
        exact gives_aside rfl fun _ _ _ => gives_done _
  unfold tick
  refine gives_aside rfl fun time g hfg => gives_aside rfl fun isOpen k hgk => ?_
  cases isOpen with
  | false => exact gives_aside rfl fun _ _ _ => gives_done _
  | true =>
      refine gives_aside rfl fun begun l hkl => ?_
      cases begun with
      | false => exact gives_aside rfl fun _ _ _ => gives_done _
      | true =>
          refine (hpass (((hfg.trans hgk).trans hkl).sound hf)).attempt.bind fun outcome _ _ =>
            gives_aside rfl fun _ _ _ => ?_
          cases outcome with
          | ok outcome => exact gives_done _
          | error e => exact gives_fail _

/-! ### Cancelling an order -/

/-- **Cancelling an order places none, and loses none that can be matched.** -/
theorem cancel_gives (id : OrderId) : (cancel id).Gives .any .withdrawing f := by
  unfold cancel
  refine gives_aside rfl fun time g hfg mine => ?_
  have hcancel : (store (.cancel id time)).Among .any .withdrawing (fun r _ g =>
      ∀ o, r = .ok (some o) → g.Knows o ∧ o.matchable = false) mine g := by
    refine among_store (fun k _ => ⟨.cancel k id time, fun o h => ?_⟩) fun _ _ _ _ h => nomatch h
    exact Floor.knows_cancel (Except.ok.inj h)
  refine hcancel.bind (fun found mine k _ ho => ?_) fun _ _ _ _ _ => trivial
  cases found with
  | some o =>
      obtain ⟨ho, hmatch⟩ := ho o rfl
      have hidle : k.Idle o.side o.ticker o.id := ho.idle fun h => by
        rw [hmatch] at h
        cases h
      have hremove : (index (.remove o.side o.ticker o.id)).Gives .any .withdrawing k :=
        gives_index fun _ hkl => (Floor.Trades.remove (hkl.idle hidle)).toWithdraws
      exact (hremove.attempt.bind fun _ _ _ => gives_aside rfl fun _ _ _ => gives_done o) mine
  | none =>
      have hload : (store (.load id)).Gives .any .withdrawing k :=
        gives_store fun _ _ => Change.withdrawing.of_same rfl rfl
      refine (hload.bind fun found _ _ => ?_) mine
      cases found with
      | none => exact gives_fail _
      | some o => exact (gives_ofExcept _).bind fun _ _ _ => gives_fail _

/-! ### Placing an order -/

/-- Did the store fail to carry out the call? -/
def Answered.unstored : Answered → Bool
  | ⟨.store _, .error _⟩ => true
  | _ => false

/-- Unless the store has failed, every order that was placed is covered. -/
def Floor.CoversAll (g : Floor) (mine : List Answered) : Prop :=
  (∀ e ∈ mine, e.unstored = false) → ∀ o : Order, o.placing ∈ mine → g.Covers o.id

theorem Floor.CoversAll.spares {g k : Floor} (h : g.CoversAll mine) (hgk : g.Spares k)
    (hg : g.Sound) : k.CoversAll mine :=
  fun hstored o ho => hgk.covers hg o.id (h hstored o ho)

theorem Order.id_of_placing {o p : Order} {request : OrderRequest} {time : Instant}
    (h : o.placing = ⟨.store (.insert request time), .ok p⟩) : o.id = p.id := by
  unfold placing at h
  injection h with hcall hanswer
  injection hcall with hstore
  injection hstore with hrequest htime
  subst hrequest htime
  injection hanswer with hp
  rw [← hp]
  rfl

/-- The calls have placed no order but one. -/
def PlacedOnly (id : OrderId) (mine : List Answered) : Prop :=
  ∀ p : Order, p.placing ∈ mine → p.id = id

theorem PlacedOnly.append {id : OrderId} (h : PlacedOnly id mine) {e : Answered}
    (he : ∀ p : Order, p.placing ≠ e) : PlacedOnly id (mine ++ [e]) := by
  intro p hp
  exact h p ((List.mem_append.mp hp).resolve_right fun hin => he p (List.mem_singleton.mp hin))

theorem PlacedOnly.coversAll {id : OrderId} (h : PlacedOnly id mine) (hf : f.Covers id)
    {e : Answered} (he : ∀ p : Order, p.placing ≠ e) : f.CoversAll (mine ++ [e]) :=
  fun _ p hp => h.append he p hp ▸ hf

/-- A call on the store that fails leaves nothing to be covered. -/
theorem Floor.coversAll_of_failed (c : StoreCall) (e : Error) :
    f.CoversAll (mine ++ [⟨.store c, .error e⟩]) := by
  intro hstored
  have := hstored ⟨.store c, .error e⟩ (by simp)
  cases this

theorem insert_among (hmine : ∀ p : Order, p.placing ∉ mine) (request : OrderRequest)
    (time : Instant) : (store (.insert request time)).Among .sparing .sparing (fun r mine g =>
      match r with
      | .ok o => g.Knows o ∧ PlacedOnly o.id mine
      | .error _ => g.CoversAll mine) mine f := by
  refine among_store (fun g _ => ⟨.place g request time, Floor.knows_place g request time,
    fun p hp => ?_⟩)
    fun g e _ => Floor.coversAll_of_failed _ e
  rcases List.mem_append.mp hp with hin | hin
  · exact absurd hin (hmine p)
  · exact Order.id_of_placing (List.mem_singleton.mp hin)

/-- An order that is known is covered once it is enqueued. -/
theorem enqueue_among (hf : f.Sound) {o : Order} (ho : f.Knows o) (honly : PlacedOnly o.id mine) :
    (index (.enqueue o.side o.ticker o.id o.price)).attemptError.Among .sparing .sparing
      (fun r mine g => PlacedOnly o.id mine ∧ (r = .ok (.ok ()) → g.Covers o.id) ∧
        ∃ x, r = .ok x) mine f := by
  refine Among.attemptError (among_index (fun g (hfg : f.Spares g) => ⟨?_, ?_⟩) fun g e _ => ?_)
  · exact (Floor.Trades.enqueue (hfg.knows ho)).toSpares
  · exact ⟨honly.append fun _ => nofun,
      fun _ => (hfg.knows ho).covers_enqueue (hfg.sound hf), _, rfl⟩
  · exact ⟨honly.append fun _ => nofun, fun h => (nomatch h), _, rfl⟩

/-- An order that is withdrawn cannot be matched and so is covered. -/
theorem withdraw_among {o : Order} (ho : f.Knows o) (honly : PlacedOnly o.id mine)
    (time : Instant) : (store (.cancel o.id time)).attempt.Among .sparing .sparing
      (fun _ mine g => g.CoversAll mine) mine f := by
  refine Among.attempt (among_store (fun g (hfg : f.Spares g) => ⟨?_, ?_⟩)
    fun g e _ => Floor.coversAll_of_failed _ e)
  · exact (Floor.Withdraws.cancel g o.id time).toSpares
  · exact honly.coversAll ((hfg.knows ho).covers_cancel time) fun _ => nofun

/--
**An order that is placed is covered in the end**, if the others spare it.  An order that
cannot be indexed is withdrawn.
-/
theorem submit_among (hf : f.Sound) (tradable : List String) (request : OrderRequest) :
    (submit tradable request).Among .sparing .sparing (fun _ mine g => g.CoversAll mine) [] f := by
  unfold submit
  cases hcheck : request.check tradable with
  | error e => exact fun _ _ ho => nomatch ho
  | ok =>
      refine among_aside rfl fun time g hfg => ?_
      refine (insert_among (fun p hp => ?_) request time).bind (fun o mine k hgk ho => ?_)
        fun _ _ _ _ h => h
      · cases List.mem_singleton.mp hp
      have hk := (hfg.toBecomes.trans hgk).sound hf
      refine (enqueue_among hk ho.1 ho.2).bind (fun x mine l hkl hx => ?_)
        fun e mine l _ hx => nomatch hx.2.2
      obtain ⟨honly, hlisted, -⟩ := hx
      cases x with
      | ok =>
          refine among_aside rfl fun _ m hlm => ?_
          exact honly.coversAll (hlm.covers (hkl.sound hk) _ (hlisted rfl)) fun _ => nofun
      | error e =>
          refine among_aside rfl fun time m hlm => ?_
          have hm := (hkl.trans hlm.toBecomes).knows ho.1
          refine (withdraw_among hm ?_ time).bind (fun _ _ _ _ h => h) fun _ _ _ _ h => h
          exact honly.append fun _ => nofun

/-! ### Reconciliation -/

namespace Reconciliation

theorem mem_survey {live belonging : List Order} {n : Nat}
    (h : survey live = some (belonging, n)) {o : Order} (ho : o ∈ belonging) : o ∈ live := by
  induction live generalizing belonging n with
  | nil =>
      cases h
      cases ho
  | cons p live ih =>
      unfold survey at h
      obtain ⟨consistent, -, h⟩ := Option.bind_eq_some_iff.mp h
      obtain ⟨⟨rest, discrepancies⟩, hrest, h⟩ := Option.bind_eq_some_iff.mp h
      have hin : o ∈ rest → o ∈ p :: live := fun hin => List.mem_cons_of_mem _ (ih hrest hin)
      dsimp only at h
      split at h
      · cases h
        exact hin ho
      · cases h
        split at ho
        · rcases List.mem_cons.mp ho with rfl | ho
          · exact List.mem_cons_self
          · exact hin ho
        · exact hin ho

theorem enqueueAll_gives {side : Side} {ticker : String} {os : List Order}
    (h : ∀ o ∈ os, f.Knows o ∧ o.side = side ∧ o.ticker = ticker) :
    (enqueueAll side ticker os).Gives .any .any f := by
  induction os generalizing f with
  | nil => exact gives_done ()
  | cons o os ih =>
      obtain ⟨ho, rfl, rfl⟩ := h o (by simp)
      have henqueue : (index (.enqueue o.side o.ticker o.id o.price)).Gives .any .any f :=
        gives_index fun _ hfg => (Floor.Trades.enqueue (hfg.knows ho)).toBecomes
      refine henqueue.bind fun _ g hfg => ih fun p hp => ?_
      obtain ⟨hp, hbook⟩ := h p (List.mem_cons_of_mem _ hp)
      exact ⟨hfg.knows hp, hbook⟩

theorem removeAll_gives (side : Side) (ticker : String) (ids : List OrderId) :
    (removeAll side ticker ids).Gives .any .any f := by
  induction ids generalizing f with
  | nil => exact gives_done 0
  | cons id ids ih =>
      have hremove : (index (.remove side ticker id)).Gives .any .any f :=
        gives_index fun g _ => .remove g side ticker id
      exact hremove.bind fun _ _ _ => ih.bind fun _ _ _ => gives_done _

theorem mendBook_gives {belonging : List Order} (h : ∀ o ∈ belonging, f.Knows o) (side : Side)
    (ticker : String) : (mendBook belonging side ticker).Gives .any .any f := by
  have hlist : (index (.list side ticker)).Gives .any .any f :=
    gives_index fun _ _ => Change.any.of_same rfl rfl
  refine hlist.bind fun indexed g hfg => (enqueueAll_gives fun o ho => ?_).bind
    fun _ _ _ => (removeAll_gives side ticker _).bind fun _ _ _ => gives_done _
  obtain ⟨hin, hbook⟩ := List.mem_filter.mp (List.mem_filter.mp ho).1
  rw [Bool.and_eq_true, beq_iff_eq, beq_iff_eq] at hbook
  exact ⟨hfg.knows (h o hin), hbook⟩

theorem mendTickers_gives {belonging : List Order} (h : ∀ o ∈ belonging, f.Knows o)
    (tickers : List String) : (mendTickers belonging tickers).Gives .any .any f := by
  induction tickers generalizing f with
  | nil => exact gives_done _
  | cons ticker tickers ih =>
      refine (mendBook_gives h .buy ticker).bind fun _ g hfg => ?_
      have hg : ∀ o ∈ belonging, g.Knows o := fun o ho => hfg.knows (h o ho)
      exact (mendBook_gives hg .sell ticker).bind fun _ _ hgk =>
        (ih fun o ho => hgk.knows (hg o ho)).bind fun _ _ _ => gives_done _

end Reconciliation

/-- **Reconciling keeps a floor sound**: it puts in only what it has read from the store. -/
theorem reconcile_gives : reconcile.Gives .any .any f := by
  intro mine
  have hlive : (store .live).Among .any .any (fun r _ g =>
      ∀ live, r = .ok live → ∀ o ∈ live, g.Knows o) mine f := by
    refine among_store (fun g _ => ⟨Change.any.of_same rfl rfl, fun live h o ho => ?_⟩)
      fun _ _ _ _ h => nomatch h
    cases h
    exact Floor.knows_of_find? (Store.mem_orders_iff.mp (List.mem_filter.mp ho).1)
  unfold reconcile
  refine hlive.bind (fun live mine g _ hknown => ?_) fun _ _ _ _ _ => trivial
  cases hsurvey : Reconciliation.survey live with
  | none => exact gives_fail _ _
  | some survey =>
      have hbelonging : ∀ o ∈ survey.1, g.Knows o :=
        fun o ho => hknown live rfl o (Reconciliation.mem_survey hsurvey ho)
      have htickers : (index .tickers).Gives .any .any g :=
        gives_index fun _ _ => Change.any.of_same rfl rfl
      refine (htickers.bind fun indexed k hgk => ?_) mine
      exact (Reconciliation.mendTickers_gives (fun o ho => hgk.knows (hbelonging o ho)) _).bind
        fun _ _ _ => gives_done _

/-! ### Every operation -/

namespace Operation

/-- How the floor may change between the calls of an operation. -/
def relies : Operation → Change
  | submit .. => .sparing
  | _ => .any

/-- How an operation changes the floor. -/
def gives : Operation → Change
  | submit .. => .sparing
  | cancel _ => .withdrawing
  | tick | process .. => .trading
  | recover => .any

/-- What is so when an operation has made the calls that it was to make. -/
def leaves : Operation → List Answered → Floor → Prop
  | submit .., mine, g => g.CoversAll mine
  | _, _, _ => True

/-- **Every operation behaves as it should**, if the others do. -/
theorem work_among (op : Operation) (hf : f.Sound) :
    (op.work scale).Among op.relies op.gives (fun _ => op.leaves) [] f := by
  cases op with
  | submit tradable request =>
      exact (submit_among hf tradable request).bind (fun _ _ _ _ h => h) fun _ _ _ _ h => h
  | cancel id => exact ((cancel_gives id).bind fun _ _ _ => gives_done ()) []
  | tick => exact ((tick_gives hf).bind fun _ _ _ => gives_done ()) []
  | recover => exact (reconcile_gives.bind fun _ _ _ => gives_done ()) []
  | process id ticker =>
      exact ((processOrder_gives hf id ticker).bind fun _ _ _ => gives_done ()) []

end Operation

theorem Floor.Reached.sound (h : f.Reached scale) : f.Sound := by
  induction h with
  | opened => exact Floor.sound_opened
  | after _ op hlead _ ih => exact (op.gives.becomes ((op.work_among ih).of_leads hlead)).sound ih

/-- **Every floor that can be seen is sound**, at every moment and whatever has failed. -/
theorem Floor.Seen.sound {g : Floor} (h : g.Seen scale) : g.Sound := by
  obtain ⟨f, hf, op, rest, hlead⟩ := h
  exact (op.gives.becomes ((op.work_among hf.sound).of_leads hlead)).sound hf.sound

end Bourse
