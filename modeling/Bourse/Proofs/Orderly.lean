/-
What every operation keeps.

A floor is `Orderly` when its store has a history of placed, cancelled and traded
orders, its index is tidy, every order on record was placed with what it asks for and
cancelled when it says, and no fill was ever turned away.  A call that does not write
to the store keeps a floor orderly, and so do placing and cancelling an order; a fill
does if it is a trade.

`Quiet` work is made of calls of the first kind, and it ends with the store as it was.
`Keeps` is for work whose end does not matter.
-/
import Bourse.Proofs.Book
import Bourse.Proofs.Run
import Bourse.Proofs.Store

namespace Bourse

/-! ### What every floor keeps -/

/-- What was asked for when the order was placed. -/
def Order.request (o : Order) : OrderRequest := ⟨o.ticker, o.side, o.price, o.amount⟩

theorem Order.SameTerms.request {o p : Order} (h : o.SameTerms p) : p.request = o.request := by
  unfold Order.request
  rw [h.ticker, h.side, h.price, h.amount]

/-- The call that places an order, answered with the order as it is then. -/
def Order.placing (o : Order) : Answered :=
  ⟨.store (.insert o.request o.createdAt), .ok (Order.ofRequest o.id o.request o.createdAt)⟩

theorem Order.SameTerms.placing {o p : Order} (h : o.SameTerms p) : p.placing = o.placing := by
  unfold Order.placing
  rw [h.request, h.createdAt, h.id]

/-- The call that cancelled an order, answered with the order as it is then. -/
def Order.cancelling (o : Order) : Answered :=
  ⟨.store (.cancel o.id o.updatedAt), .ok (some o)⟩

/-- Was the fill turned away that a call was to commit? -/
def Answered.turnedAway : Answered → Bool
  | ⟨.store (.commit _), .ok (.committed _)⟩ => false
  | ⟨.store (.commit _), .ok _⟩ => true
  | _ => false

namespace Floor

/-- What holds on every floor that can be seen. -/
structure Orderly (scale : Nat) (f : Floor) : Prop where
  history : f.store.History scale
  tidy : f.index.Tidy
  /-- Every order on record was placed with what it asks for. -/
  placed : ∀ o ∈ f.store.orders, o.placing ∈ f.log
  /-- Every cancelled order on record was cancelled as it is there. -/
  cancelled : ∀ o ∈ f.store.orders, o.status = .cancelled → o.cancelling ∈ f.log
  /-- No fill was ever turned away. -/
  committed : ∀ e ∈ f.log, e.turnedAway = false

theorem orderly_opened (scale : Nat) : Orderly scale opened :=
  ⟨.empty, WaitingIndex.tidy_empty, List.forall_mem_nil _, List.forall_mem_nil _,
    List.forall_mem_nil _⟩

end Floor

/-- Does a call leave the store as it is? -/
def Call.quiet : Call → Bool
  | store (.insert ..) | store (.commit _) | store (.cancel ..) => false
  | _ => true

namespace Floor

variable {scale : Nat} {f : Floor}

theorem storeAfter_of_quiet {c : Call} (hc : c.quiet = true) (a : c.Answer) :
    f.storeAfter c a = f.store := by
  cases c with
  | store c =>
      cases a with
      | error e => rfl
      | ok a =>
          cases c with
          | insert | commit | cancel => cases hc
          | load | loadMany | executions | live => rfl
  | _ => rfl

theorem indexAfter_tidy (h : f.index.Tidy) (c : Call) (a : c.Answer) :
    (f.indexAfter c a).Tidy := by
  cases c with
  | index c =>
      cases a with
      | error e => exact h
      | ok a => exact h.perform c
  | _ => exact h

/-- An order's placing and, if it is cancelled, its cancelling are in a log. -/
def Accounted (log : List Answered) (o : Order) : Prop :=
  o.placing ∈ log ∧ (o.status = .cancelled → o.cancelling ∈ log)

/-- A floor stays orderly if the store keeps its history and its orders are accounted for. -/
theorem Orderly.next (h : f.Orderly scale) {c : Call} {a : c.Answer}
    (hhistory : (f.storeAfter c a).History scale)
    (haccounted : ∀ o ∈ (f.storeAfter c a).orders, Accounted (f.after c a).log o)
    (hcommitted : (Answered.mk c a).turnedAway = false) : (f.after c a).Orderly scale := by
  refine ⟨hhistory, indexAfter_tidy h.tidy c a, fun o ho => (haccounted o ho).1,
    fun o ho => (haccounted o ho).2, ?_⟩
  intro e he
  rcases List.mem_append.mp he with hin | hin
  · exact h.committed e hin
  · rw [List.mem_singleton.mp hin]
    exact hcommitted

theorem Orderly.accounted (h : f.Orderly scale) {c : Call} {a : c.Answer} {o : Order}
    (ho : o ∈ f.store.orders) : Accounted (f.after c a).log o :=
  ⟨List.mem_append_left _ (h.placed o ho),
    fun hc => List.mem_append_left _ (h.cancelled o ho hc)⟩

/-- An order that has the terms of one on record was placed with them. -/
theorem Orderly.accounted_of_terms (h : f.Orderly scale) {c : Call} {a : c.Answer} {o p : Order}
    (hp : p ∈ f.store.orders) (hterms : p.SameTerms o)
    (hcancelled : o.status = .cancelled → o.cancelling ∈ (f.after c a).log) :
    Accounted (f.after c a).log o := by
  refine ⟨?_, hcancelled⟩
  rw [hterms.placing]
  exact List.mem_append_left _ (h.placed p hp)

theorem Orderly.of_quiet (h : f.Orderly scale) {c : Call} (hc : c.quiet = true) (a : c.Answer) :
    (f.after c a).Orderly scale := by
  refine h.next ?_ ?_ ?_
  · rw [storeAfter_of_quiet hc]
    exact h.history
  · intro o ho
    rw [storeAfter_of_quiet hc] at ho
    exact h.accounted ho
  · cases c with
    | store c =>
        cases c with
        | insert | commit | cancel => cases hc
        | load | loadMany | executions | live => cases a <;> rfl
    | _ => rfl

/-- A call on the store that fails leaves all as it was. -/
theorem Orderly.of_failed (h : f.Orderly scale) (c : StoreCall) (e : Error) :
    (f.after (.store c) (.error e)).Orderly scale := by
  refine h.next h.history (fun o ho => h.accounted ho) ?_
  cases c <;> rfl

theorem Orderly.place (h : f.Orderly scale) {request : OrderRequest} {time : Instant}
    (hamount : request.amount.positive = true) (hprice : request.price.positive = true) :
    (f.after (.store (.insert request time))
      (.ok (f.store.perform (.insert request time)).1)).Orderly scale := by
  refine h.next (h.history.place request time hamount hprice) ?_ rfl
  intro o ho
  rcases List.mem_append.mp ho with hin | hin
  · exact h.accounted hin
  · rw [List.mem_singleton.mp hin]
    exact ⟨List.mem_append_right _ (List.mem_singleton.mpr rfl), fun hc => nomatch hc⟩

theorem Orderly.cancel (h : f.Orderly scale) (id : OrderId) (time : Instant) :
    (f.after (.store (.cancel id time))
      (.ok (f.store.perform (.cancel id time)).1)).Orderly scale := by
  refine h.next (h.history.after_cancel id time) ?_ rfl
  intro o ho
  have hin : o ∈ (f.store.cancel id time).2.orders := ho
  rcases f.store.cancel_cases id time with ⟨p, hfind, -, hcancel⟩ | hcancel
  · obtain ⟨hp, hid⟩ := Store.mem_of_find? hfind
    rw [hcancel] at hin
    rcases Store.mem_orders_replace hin with rfl | hin
    · refine h.accounted_of_terms hp ⟨rfl, rfl, rfl, rfl, rfl, rfl⟩ fun _ => ?_
      refine List.mem_append_right _ (List.mem_singleton.mpr ?_)
      show (⟨.store (.cancel p.id time), .ok (some (Store.cancelled p time))⟩ : Answered) =
        ⟨.store (.cancel id time), .ok (f.store.cancel id time).1⟩
      rw [hcancel, hid]
    · exact h.accounted hin
  · rw [hcancel] at hin
    exact h.accounted hin

theorem Orderly.trade (h : f.Orderly scale) {incoming counter : Order} {fill : FillCommit}
    (t : f.store.Trade scale incoming counter fill) :
    (f.after (.store (.commit fill)) (.ok (f.store.perform (.commit fill)).1)).Orderly scale := by
  refine h.next (h.history.trade t) ?_ ?_
  · intro o ho
    rcases t.mem_orders_commit ho with rfl | rfl | ⟨hin, -, -⟩
    · refine h.accounted_of_terms (Store.mem_of_find? t.incomingFound).1 t.incomingFilled.terms ?_
      exact fun hc => absurd hc t.incoming_ne_cancelled
    · refine h.accounted_of_terms (Store.mem_of_find? t.counterFound).1 t.counterFilled.terms ?_
      exact fun hc => absurd hc t.counter_ne_cancelled
    · exact h.accounted hin
  · show Answered.turnedAway ⟨.store (.commit fill), .ok (f.store.commit fill).1⟩ = false
    rw [t.committed.1]
    rfl

end Floor

/-! ### Work that keeps a floor orderly -/

namespace Action

variable {α β : Type} {scale : Nat} {f : Floor}

/--
However its calls are answered, the work does not write to the store, and `goal` holds
of what it ends with.
-/
def Quiet (goal : α → Prop) : Action α → Prop
  | done a => goal a
  | fail _ => True
  | call c rest => c.quiet = true ∧ ∀ a, (rest a).Quiet goal

theorem Quiet.bind {middle : α → Prop} {goal : β → Prop} {work : Action α}
    {next : α → Action β} (h : work.Quiet middle) (hnext : ∀ a, middle a → (next a).Quiet goal) :
    (work >>= next).Quiet goal := by
  induction work with
  | done a => exact hnext a h
  | fail e => trivial
  | call c rest ih => exact ⟨h.1, fun a => ih a (h.2 a)⟩

theorem Quiet.attempt {goal : α → Prop} {work : Action α} (h : work.Quiet goal) :
    work.attempt.Quiet fun _ => True := by
  induction work with
  | done a => trivial
  | fail e => trivial
  | call c rest ih => exact ⟨h.1, fun a => ih a (h.2 a)⟩

theorem quiet_index (c : IndexCall) : (index c).Quiet fun _ => True :=
  ⟨rfl, fun a => by cases a <;> trivial⟩

/-- Quiet work ends with the store it began with. -/
theorem Quiet.ensures {goal : α → Prop} {work : Action α} (h : work.Quiet goal)
    (hf : f.Orderly scale) :
    work.Ensures (Floor.Orderly scale)
      (fun r g => g.store = f.store ∧ ∀ a, r = .ok a → goal a) f := by
  suffices ∀ g : Floor, g.Orderly scale → g.store = f.store → work.Ensures (Floor.Orderly scale)
      (fun r g => g.store = f.store ∧ ∀ a, r = .ok a → goal a) g from this f hf rfl
  induction work with
  | done a => exact fun g _ hstore => ⟨hstore, fun b hb => by cases hb; exact h⟩
  | fail e => exact fun g _ hstore => ⟨hstore, fun b hb => by cases hb⟩
  | call c rest ih =>
      intro g hg hstore a hmay
      refine ⟨hg.of_quiet h.1 a, ih a (h.2 a) _ (hg.of_quiet h.1 a) ?_⟩
      rw [Floor.after_store, Floor.storeAfter_of_quiet h.1, hstore]

/-- A call on the store, followed by what is done with its answer. -/
theorem ensures_store {keep : Floor → Prop} {goal : Except Failure β → Floor → Prop}
    {c : StoreCall} {next : c.Answer → Action β}
    (hok : keep (f.after (.store c) (.ok (f.store.perform c).1)) ∧
      (next (f.store.perform c).1).Ensures keep goal
        (f.after (.store c) (.ok (f.store.perform c).1)))
    (hfail : ∀ e, keep (f.after (.store c) (.error e)) ∧
      goal (.error (.error e)) (f.after (.store c) (.error e))) :
    (store c >>= next).Ensures keep goal f := by
  intro a hmay
  cases a with
  | error e => exact hfail e
  | ok a =>
      cases (show a = (f.store.perform c).1 from hmay)
      exact hok

/-- A call on the index, followed by what is done with its answer. -/
theorem ensures_index {keep : Floor → Prop} {goal : Except Failure β → Floor → Prop}
    {c : IndexCall} {next : c.Answer → Action β}
    (hok : keep (f.after (.index c) (.ok (f.index.perform c).1)) ∧
      (next (f.index.perform c).1).Ensures keep goal
        (f.after (.index c) (.ok (f.index.perform c).1)))
    (hfail : ∀ e, keep (f.after (.index c) (.error e)) ∧
      goal (.error (.error e)) (f.after (.index c) (.error e))) :
    (index c >>= next).Ensures keep goal f := by
  intro a hmay
  cases a with
  | error e => exact hfail e
  | ok a =>
      cases (show a = (f.index.perform c).1 from hmay)
      exact hok

/-- Done on any orderly floor, the work keeps it orderly. -/
def Keeps (scale : Nat) (work : Action α) : Prop :=
  ∀ f, f.Orderly scale → work.Ensures (Floor.Orderly scale) (fun _ _ => True) f

theorem Keeps.bind {work : Action α} {next : α → Action β} (h : work.Keeps scale)
    (hnext : ∀ a, (next a).Keeps scale) : (work >>= next).Keeps scale :=
  fun f hf => (h f hf).bind hf (fun a g hg _ => hnext a g hg) fun _ _ _ _ => trivial

theorem Keeps.attempt {work : Action α} (h : work.Keeps scale) : work.attempt.Keeps scale :=
  fun f hf => (h f hf).attempt

theorem Keeps.attemptError {work : Action α} (h : work.Keeps scale) :
    work.attemptError.Keeps scale := by
  intro f hf
  refine ((h f hf).mono ?_ hf).attemptError
  intro r g _ _
  cases r with
  | ok a => trivial
  | error e => cases e <;> trivial

theorem Quiet.keeps {goal : α → Prop} {work : Action α} (h : work.Quiet goal) : work.Keeps scale :=
  fun _ hf => (h.ensures hf).mono (fun _ _ _ _ => trivial) hf

end Action

end Bourse
