/-
What a pass over a ticker goes by.

Work on a ticker reads of an order of another ticker no more than that it is one, and the
clock only to write down what it shows.  `Like` says this of two pieces of work by their
structure: they make calls that are alike, and whatever answers they get that are alike,
what is left of them is alike again.  It speaks of no store and no index, so the same work
can be laid beside itself on two floors, at two times, or with other work in between.

That a pass over a ticker is like itself is shown from the bottom up.  Orders of the
ticker differ at most in when they last changed, and that goes into nothing: no fill, no
order of service, no status and no amount.
-/
import Bourse.Proofs.Fill
import Bourse.Tick
import Mathlib.Data.List.Forall2

namespace Bourse

variable {filed : OrderId → Option String} {ticker : String}

/-! ### Results -/

namespace Except

variable {ε α α' β β' : Type} {R : α → α' → Prop} {S : β → β' → Prop}

theorem map_bind {γ : Type} (x : Except ε α) (f : α → Except ε β) (g : β → γ) :
    (x >>= f).map g = x >>= fun a => (f a).map g := by
  cases x <;> rfl

/-- Two results that are values of a kind or the same error. -/
inductive Like (R : α → α' → Prop) : Except ε α → Except ε α' → Prop
  | ok {a a'} (h : R a a') : Like R (.ok a) (.ok a')
  | error (e) : Like R (.error e) (.error e)

theorem like_self (x : Except ε α) : Like Eq x x := by
  cases x with
  | ok a => exact .ok rfl
  | error e => exact .error e

theorem Like.bind {x : Except ε α} {x' : Except ε α'} {f : α → Except ε β}
    {f' : α' → Except ε β'} (h : Like R x x') (hf : ∀ a a', R a a' → Like S (f a) (f' a')) :
    Like S (x >>= f) (x' >>= f') := by
  cases h with
  | ok h => exact hf _ _ h
  | error e => exact .error e

end Except

/-! ### Orders -/

namespace Order

/-- Two orders of the ticker that differ at most in when they last changed. -/
structure Own (filed : OrderId → Option String) (ticker : String) (o p : Order) : Prop where
  trades : o.ticker = ticker
  filing : filed o.id = some ticker
  same : ∃ time, p = { o with updatedAt := time }

/-- Two orders of the ticker that are the same, or one order of another ticker at two times. -/
inductive Like (filed : OrderId → Option String) (ticker : String) (o p : Order) : Prop
  | own (h : Own filed ticker o p)
  | foreign (hid : p.id = o.id) (hticker : p.ticker = o.ticker) (hother : o.ticker ≠ ticker)

variable {o p c d : Order} {side : Side}

namespace Own

theorem symm (h : o.Own filed ticker p) : p.Own filed ticker o := by
  obtain ⟨htrades, hfiling, _, rfl⟩ := h
  exact ⟨htrades, hfiling, o.updatedAt, rfl⟩

theorem id_eq (h : o.Own filed ticker p) : p.id = o.id := by
  obtain ⟨_, rfl⟩ := h.same
  rfl

theorem side_eq (h : o.Own filed ticker p) : p.side = o.side := by
  obtain ⟨_, rfl⟩ := h.same
  rfl

theorem ticker_eq (h : o.Own filed ticker p) : p.ticker = o.ticker := by
  obtain ⟨_, rfl⟩ := h.same
  rfl

theorem matchable_eq (h : o.Own filed ticker p) : p.matchable = o.matchable := by
  obtain ⟨_, rfl⟩ := h.same
  rfl

theorem dropFilled_eq (h : o.Own filed ticker p) (ticker : String) :
    p.dropFilled ticker = o.dropFilled ticker := by
  obtain ⟨_, rfl⟩ := h.same
  rfl

theorem accepts_eq (h : o.Own filed ticker p) (hc : c.Own filed ticker d) :
    p.accepts d.price = o.accepts c.price := by
  obtain ⟨_, rfl⟩ := h.same
  obtain ⟨_, rfl⟩ := hc.same
  rfl

theorem priority_eq (h : o.Own filed ticker p) (hc : c.Own filed ticker d) :
    side.priority p d = side.priority o c := by
  obtain ⟨_, rfl⟩ := h.same
  obtain ⟨_, rfl⟩ := hc.same
  rfl

end Own

theorem Like.id_eq (h : o.Like filed ticker p) : p.id = o.id := by
  cases h with
  | own h => exact h.id_eq
  | foreign hid => exact hid

/-- Of an order of another ticker, the ticker alone says that it is not to be met. -/
theorem Like.opposes (hc : c.Like filed ticker d) (h : o.Own filed ticker p) :
    d.opposes p = c.opposes o ∧ (c.opposes o = true → c.Own filed ticker d) := by
  cases hc with
  | own hc =>
      obtain ⟨_, rfl⟩ := h.same
      obtain ⟨_, rfl⟩ := hc.same
      exact ⟨rfl, fun _ => hc⟩
  | foreign hid hticker hother =>
      have hne : c.ticker ≠ o.ticker := fun hsame => hother (hsame.trans h.trades)
      have hfails : c.opposes o = false := by simp [Order.opposes, hne]
      refine ⟨?_, fun hopposes => absurd hopposes (by simp [hfails])⟩
      rw [hfails]
      simp [Order.opposes, hticker, h.ticker_eq, hne]

/-! ### Fills -/

/-- A fill makes of an order what it makes of it at any other time. -/
theorem fill_retimed (o : Order) (amount price : Decimal) (scale : Nat)
    (earlier time time' : Instant) :
    ({ o with updatedAt := earlier } : Order).fill amount price scale time' =
      (o.fill amount price scale time).map fun p => { p with updatedAt := time' } := by
  unfold fill
  by_cases hpos : amount.positive = true
  · by_cases hover : o.remainingAmount < amount
    · simp only [hpos, hover, Bool.not_true, Bool.false_eq_true, if_false, if_true]
      rfl
    · simp only [hpos, hover, Bool.not_true, Bool.false_eq_true, if_false, Except.map_bind]
      rfl
  · simp only [hpos, Bool.not_false, if_true]
    rfl

theorem Own.leg (h : o.Own filed ticker p) (amount price : Decimal) (scale : Nat)
    (time time' : Instant) : Except.Like (Own filed ticker) (o.leg amount price scale time)
      (p.leg amount price scale time') := by
  obtain ⟨rfl, hfiled, earlier, rfl⟩ := h
  unfold Order.leg
  rw [o.fill_retimed amount price scale earlier time time']
  cases hfill : o.fill amount price scale time with
  | error e => exact .error _
  | ok after =>
      have hterms := (fill_ok hfill).terms
      exact .ok ⟨hterms.ticker, hterms.id ▸ hfiled, time', rfl⟩

end Order

/-- Two fills of the same amount between orders of the ticker that are the same. -/
structure FillCommit.Like (filed : OrderId → Option String) (ticker : String)
    (fill fill' : FillCommit) : Prop where
  incoming : fill.incoming.Own filed ticker fill'.incoming
  counter : fill.counter.Own filed ticker fill'.counter
  incomingExpected : fill'.incomingExpected = fill.incomingExpected
  counterExpected : fill'.counterExpected = fill.counterExpected
  price : fill'.price = fill.price
  amount : fill'.amount = fill.amount

theorem FillCommit.Like.symm {fill fill' : FillCommit} (h : fill.Like filed ticker fill') :
    fill'.Like filed ticker fill :=
  ⟨h.incoming.symm, h.counter.symm, h.incomingExpected.symm, h.counterExpected.symm,
    h.price.symm, h.amount.symm⟩

/-- The fill between two orders does not depend on when it is worked out. -/
theorem Order.Own.fillWith {o p c d : Order} {scale : Nat} (h : o.Own filed ticker p)
    (hc : c.Own filed ticker d) (time time' : Instant) :
    Except.Like (FillCommit.Like filed ticker) (o.fillWith c scale time)
      (p.fillWith d scale time') := by
  have hleg {x y : Order} (hxy : x.Own filed ticker y) :=
    hxy.leg (o.remainingAmount.least c.remainingAmount) c.price scale time time'
  have hincoming := hleg h
  have hcounter := hleg hc
  obtain ⟨earlier, rfl⟩ := h.same
  obtain ⟨earlier', rfl⟩ := hc.same
  refine hincoming.bind fun x x' hx => hcounter.bind fun y y' hy => ?_
  obtain ⟨later, rfl⟩ := hx.same
  obtain ⟨later', rfl⟩ := hy.same
  exact (Except.like_self (o.checkMove x.status)).bind fun _ _ _ =>
    (Except.like_self (c.checkMove y.status)).bind fun _ _ _ => .ok ⟨hx, hy, rfl, rfl, rfl, rfl⟩

/-! ### Calls and work -/

/-- Two outcomes of a fill that are the same but for the executions. -/
inductive FillOutcome.Like : FillOutcome → FillOutcome → Prop
  | committed (receipt receipt') : Like (.committed receipt) (.committed receipt')
  | incomingUnavailable : Like .incomingUnavailable .incomingUnavailable
  | counterUnavailable : Like .counterUnavailable .counterUnavailable

/-- The calls of work on a ticker, two that are the same, and when their answers are alike. -/
inductive Call.Like (filed : OrderId → Option String) (ticker : String) :
    (c c' : Call) → (c.Answer → c'.Answer → Prop) → Prop
  | load (id) : Like filed ticker (.store (.load id)) (.store (.load id))
      (Except.Like (Option.Rel (Order.Like filed ticker)))
  | loadMany (ids) : Like filed ticker (.store (.loadMany ids)) (.store (.loadMany ids))
      (Except.Like (List.Forall₂ (Order.Like filed ticker)))
  | commit {fill fill'} (h : fill.Like filed ticker fill') :
      Like filed ticker (.store (.commit fill)) (.store (.commit fill'))
        (Except.Like FillOutcome.Like)
  | list (side) : Like filed ticker (.index (.list side ticker)) (.index (.list side ticker))
      (Except.Like Eq)
  | remove (side id) : Like filed ticker (.index (.remove side ticker id))
      (.index (.remove side ticker id)) (Except.Like Eq)
  | now : Like filed ticker .now .now fun _ _ => True
  | notify (e e') : Like filed ticker (.notify e) (.notify e') fun _ _ => True
  | count (counter) : Like filed ticker (.count counter) (.count counter) fun _ _ => True
  | recordFill (amount completed) : Like filed ticker (.recordFill amount completed)
      (.recordFill amount completed) fun _ _ => True

/-- Work on a ticker, two pieces that make the same calls and end in the same way. -/
inductive Action.Like (filed : OrderId → Option String) (ticker : String) {α α' : Type}
    (R : α → α' → Prop) : Action α → Action α' → Prop
  | done {a a'} (h : R a a') : Like filed ticker R (.done a) (.done a')
  | fail (e) : Like filed ticker R (.fail e) (.fail e)
  | call {c c' rest rest'} {Q : c.Answer → c'.Answer → Prop} (hc : c.Like filed ticker c' Q)
      (h : ∀ a a', Q a a' → Like filed ticker R (rest a) (rest' a')) :
      Like filed ticker R (.call c rest) (.call c' rest')

namespace Action

variable {α α' β β' : Type} {R : α → α' → Prop} {S : β → β' → Prop}

theorem Like.bind {work : Action α} {work' : Action α'} {next : α → Action β}
    {next' : α' → Action β'} (h : work.Like filed ticker R work')
    (hnext : ∀ a a', R a a' → (next a).Like filed ticker S (next' a')) :
    (work >>= next).Like filed ticker S (work' >>= next') := by
  induction h with
  | done h => exact hnext _ _ h
  | fail e => exact .fail e
  | call hc _ ih => exact .call hc ih

theorem Like.attempt {work : Action α} {work' : Action α'} (h : work.Like filed ticker R work') :
    work.attempt.Like filed ticker (Except.Like R) work'.attempt := by
  induction h with
  | done h => exact .done (.ok h)
  | fail e => exact .done (.error e)
  | call hc _ ih => exact .call hc ih

theorem Like.attemptError {work : Action α} {work' : Action α'}
    (h : work.Like filed ticker R work') :
    work.attemptError.Like filed ticker (Except.Like R) work'.attemptError := by
  induction h with
  | done h => exact .done (.ok h)
  | fail e =>
      cases e with
      | error e => exact .done (.error e)
      | overflow o => exact .fail _
  | call hc _ ih => exact .call hc ih

theorem like_ofExcept {r : Except Error α} {r' : Except Error α'} (h : Except.Like R r r') :
    (ofExcept r).Like filed ticker R (ofExcept r') := by
  cases h with
  | ok h => exact .done h
  | error e => exact .fail _

theorem like_total (o : Overflow) (a : Option α) :
    (total o a).Like filed ticker Eq (total o a) := by
  cases a with
  | none => exact .fail _
  | some a => exact .done rfl

theorem like_store {c c' : StoreCall} {Q : c.Answer → c'.Answer → Prop}
    (h : Call.Like filed ticker (.store c) (.store c') (Except.Like Q)) :
    (store c).Like filed ticker Q (store c') := by
  refine .call h fun a a' ha => ?_
  cases ha with
  | ok h => exact .done h
  | error e => exact .fail _

theorem like_index {c c' : IndexCall} {Q : c.Answer → c'.Answer → Prop}
    (h : Call.Like filed ticker (.index c) (.index c') (Except.Like Q)) :
    (index c).Like filed ticker Q (index c') := by
  refine .call h fun a a' ha => ?_
  cases ha with
  | ok h => exact .done h
  | error e => exact .fail _

end Action

open Bourse.Action

/-! ### The counter orders -/

namespace Side

variable {side : Side} {o p : Order} {os ps : List Order}

theorem place_like (h : o.Own filed ticker p) (hos : List.Forall₂ (Order.Own filed ticker) os ps) :
    List.Forall₂ (Order.Own filed ticker) (side.place o os) (side.place p ps) := by
  induction hos with
  | nil => exact .cons h .nil
  | cons hx hxs ih =>
      unfold place
      rw [h.priority_eq hx]
      split
      · exact .cons hx ih
      · exact .cons h (.cons hx hxs)

theorem queue_like (hos : List.Forall₂ (Order.Own filed ticker) os ps) :
    List.Forall₂ (Order.Own filed ticker) (side.queue os) (side.queue ps) := by
  induction hos with
  | nil => exact .nil
  | cons h _ ih => exact place_like h ih

end Side

namespace Order

variable {o p : Order} {loaded loaded' : List Order}

theorem find?_like (hloaded : List.Forall₂ (Order.Like filed ticker) loaded loaded')
    (id : OrderId) : Option.Rel (Order.Like filed ticker) (loaded.find? (·.id == id))
      (loaded'.find? (·.id == id)) := by
  induction hloaded with
  | nil => exact .none
  | cons hx _ ih =>
      rw [List.find?_cons, List.find?_cons, hx.id_eq]
      split
      · exact .some hx
      · exact ih

/-- The same orders of the ticker, and the same count of entries that were dropped. -/
def FoundLike (filed : OrderId → Option String) (ticker : String) (r r' : List Order × Nat) :
    Prop :=
  List.Forall₂ (Own filed ticker) r.1 r'.1 ∧ r.2 = r'.2

theorem dropStale_like (h : o.Own filed ticker p) (id : OrderId)
    {rest rest' : Action (List Order × Nat)}
    (hrest : rest.Like filed ticker (FoundLike filed ticker) rest') :
    (o.dropStale id rest).Like filed ticker (FoundLike filed ticker) (p.dropStale id rest') := by
  obtain ⟨rfl, -, _, rfl⟩ := h
  refine (like_index (.remove _ _)).bind fun removed _ hremoved => ?_
  subst hremoved
  refine hrest.bind fun r r' hr => .done ⟨hr.1, ?_⟩
  rw [hr.2]

theorem nominated_like (h : o.Own filed ticker p)
    (hloaded : List.Forall₂ (Order.Like filed ticker) loaded loaded') (ids : List OrderId) :
    (o.nominated loaded ids).Like filed ticker (FoundLike filed ticker)
      (p.nominated loaded' ids) := by
  induction ids with
  | nil => exact .done ⟨.nil, rfl⟩
  | cons id ids ih =>
      unfold nominated
      have hfind := find?_like hloaded id
      generalize loaded.find? (·.id == id) = found at hfind
      generalize loaded'.find? (·.id == id) = found' at hfind
      cases hfind with
      | none => exact dropStale_like h id ih
      | @some c d hc =>
          obtain ⟨hsame, hown⟩ := hc.opposes h
          dsimp only
          rw [hsame]
          split
          · rename_i hopposes
            refine ih.bind fun r r' hr => .done ⟨?_, hr.2⟩
            dsimp only
            rw [h.accepts_eq (hown hopposes)]
            split
            · exact .cons (hown hopposes) hr.1
            · exact hr.1
          · exact dropStale_like h id ih

theorem candidates_like (h : o.Own filed ticker p) :
    o.candidates.Like filed ticker (FoundLike filed ticker) p.candidates := by
  obtain ⟨earlier, rfl⟩ := h.same
  have hlist : Call.Like filed ticker (.index (.list o.side.opposite o.ticker))
      (.index (.list o.side.opposite o.ticker)) (Except.Like Eq) := h.trades ▸ .list _
  refine (like_index hlist).bind fun ids _ hids => ?_
  subst hids
  split
  · exact .done ⟨.nil, rfl⟩
  · refine (like_store (.loadMany ids)).bind fun loaded loaded' hloaded => ?_
    exact (nominated_like h hloaded ids).bind fun r r' hr => .done ⟨Side.queue_like hr.1, hr.2⟩

end Order

/-! ### A turn -/

theorem Order.dropFilled_like (o : Order) (ticker : String) :
    (o.dropFilled ticker).Like filed ticker Eq (o.dropFilled ticker) := by
  unfold dropFilled
  split
  · exact (like_index (.remove _ _)).attempt.bind fun _ _ _ => .done rfl
  · exact .done rfl

namespace FillCommit

variable {fill fill' : FillCommit}

theorem Like.completed_eq (h : fill.Like filed ticker fill') :
    fill'.completed = fill.completed := by
  obtain ⟨_, hincoming⟩ := h.incoming.same
  obtain ⟨_, hcounter⟩ := h.counter.same
  unfold completed
  rw [hincoming, hcounter]

theorem settle_like (h : fill.Like filed ticker fill') :
    (fill.settle ticker).Like filed ticker Eq (fill'.settle ticker) := by
  unfold settle
  rw [h.completed_eq, h.counter.dropFilled_eq, h.amount]
  refine .call (.recordFill _ _) fun _ _ _ => ?_
  refine (fill.counter.dropFilled_like ticker).bind fun _ _ _ => ?_
  exact .call (.notify _ _) fun _ _ _ => .done rfl

end FillCommit

/-- The same order of the ticker in the end, and fills of the same amounts. -/
def WalkLike (filed : OrderId → Option String) (ticker : String)
    (r r' : Order × List FillEvent × List Execution) : Prop :=
  r.1.Own filed ticker r'.1 ∧ r.2.1.map (·.amount) = r'.2.1.map (·.amount)

theorem walk_like (scale : Nat) {counters counters' : List Order} {o p : Order}
    (hcounters : List.Forall₂ (Order.Own filed ticker) counters counters')
    (h : o.Own filed ticker p) : (walk scale ticker counters o).Like filed ticker
      (WalkLike filed ticker) (walk scale ticker counters' p) := by
  induction hcounters generalizing o p with
  | nil => exact .done ⟨h, rfl⟩
  | cons hc _ ih =>
      unfold walk
      rw [h.matchable_eq]
      split
      · exact .done ⟨h, rfl⟩
      · refine .call .now fun time time' _ => ?_
        refine (like_ofExcept (h.fillWith hc time time')).bind fun fill fill' hfill => ?_
        refine (like_store (.commit hfill)).bind fun outcome outcome' houtcome => ?_
        cases houtcome with
        | committed receipt receipt' =>
            refine (FillCommit.settle_like hfill).bind fun _ _ _ =>
              (ih hfill.incoming).bind fun r r' hr => .done ⟨hr.1, ?_⟩
            exact List.cons_eq_cons.mpr ⟨hfill.amount.symm, hr.2⟩
        | incomingUnavailable => exact .done ⟨h, rfl⟩
        | counterUnavailable => exact ih h

/-- Two reports of fills of the same amounts. -/
def MatchReport.Like (r r' : MatchReport) : Prop :=
  r.fills.map (·.amount) = r'.fills.map (·.amount)

/-- **A turn goes by what is of its ticker**, whatever order it is given to. -/
theorem processOrder_like (scale : Nat) (id : OrderId) :
    (processOrder scale id ticker).Like filed ticker MatchReport.Like
      (processOrder scale id ticker) := by
  unfold processOrder
  refine (like_store (.load id)).bind fun found found' hfound => ?_
  cases hfound with
  | none => exact .done rfl
  | @some o p hlike =>
      dsimp only
      cases hlike with
      | foreign hid hticker hother =>
          have hrefused : misindexed p ticker = misindexed o ticker := by
            unfold misindexed
            rw [hid, hticker]
          have hne : (o.ticker != ticker) = true := by simpa using hother
          rw [hticker, hrefused, if_pos hne, if_pos hne]
          exact .fail _
      | own h =>
          have htrades : ¬ (o.ticker != ticker) = true := by simpa using h.trades
          rw [h.ticker_eq, h.matchable_eq, h.side_eq, if_neg htrades, if_neg htrades]
          split
          · exact (like_index (.remove _ _)).bind fun _ _ _ => .done rfl
          · refine (Order.candidates_like h).bind fun r r' hr => ?_
            refine (walk_like scale hr.1 h).bind fun w w' hw => ?_
            rw [hw.1.dropFilled_eq]
            exact (w.1.dropFilled_like ticker).bind fun _ _ _ => .done hw.2

/-! ### A pass -/

theorem drainOrders_like (scale : Nat) (ids : List OrderId) (r : TickReport) :
    (drainOrders scale ticker ids r).Like filed ticker Eq (drainOrders scale ticker ids r) := by
  induction ids generalizing r with
  | nil => exact .done rfl
  | cons id ids ih =>
      unfold drainOrders
      refine .call (.count _) fun _ _ _ => ?_
      refine (processOrder_like scale id).attemptError.bind fun x x' hx => ?_
      cases hx with
      | @ok report report' h =>
          have hexecuted : report'.executedAmount = report.executedAmount :=
            congrArg Decimal.sum? (show report.fills.map _ = report'.fills.map _ from h).symm
          have hlength : report'.fills.length = report.fills.length := by
            simpa using (congrArg List.length h).symm
          dsimp only
          rw [hexecuted, hlength]
          refine (like_total _ _).bind fun filled _ hfilled => ?_
          subst hfilled
          refine (like_total _ _).bind fun amount _ hamount => ?_
          subst hamount
          exact ih _
      | error e => exact .call (.count _) fun _ _ _ => ih _

theorem drainSide_like (scale : Nat) (side : Side) (r : TickReport) :
    (drainSide scale ticker side r).Like filed ticker Eq (drainSide scale ticker side r) := by
  unfold drainSide
  refine (like_index (.list side)).attemptError.bind fun x x' hx => ?_
  cases hx with
  | ok h =>
      subst h
      exact drainOrders_like scale _ r
  | error e => exact .done rfl

/-- **A pass over a ticker goes by what is of the ticker**, and comes to the same report. -/
theorem drainTicker_like (scale : Nat) (filed : OrderId → Option String) (ticker : String) :
    (drainTicker scale ticker).Like filed ticker Eq (drainTicker scale ticker) := by
  refine (drainSide_like scale .buy _).bind fun r _ hr => ?_
  subst hr
  exact drainSide_like scale .sell r

end Bourse
