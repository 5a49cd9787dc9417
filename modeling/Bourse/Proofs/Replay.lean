/-
An order is its executions replayed.

Nothing of an order on record is lost from its executions.  Take the order as it was
placed, give it its fills again one after the other as they were recorded, and each is
taken and the last one leaves the order as it is on record, digit for digit: the same
sums rounded in the same places.  Only a cancellation leaves no execution, and it
changes nothing but the status and the time.

The induction is on the history of the store.  A trade fills an order as it stands on
record, so by the hypothesis it fills what the replay has come to, and that is the
replay with one more execution.
-/
import Bourse.Proofs.Seen

namespace Bourse

/-- Gives an order its fills again, as its executions tell of them. -/
def Order.replay (scale : Nat) (o : Order) (executions : List Execution) :
    Except FillFault Order :=
  executions.foldlM (fun o e => o.fill e.amount e.price scale e.executedAt) o

theorem Order.replay_append {scale : Nat} {o p q : Order} {executions : List Execution}
    {e : Execution} (h : o.replay scale executions = .ok p)
    (hfill : p.fill e.amount e.price scale e.executedAt = .ok q) :
    o.replay scale (executions ++ [e]) = .ok q := by
  unfold replay at h ⊢
  rw [List.foldlM_append, h]
  show (p.fill e.amount e.price scale e.executedAt >>= fun r => .ok r) = _
  rw [hfill]
  rfl

namespace Store

/-- What `o` was when it was placed. -/
def initially (o : Order) : Order := .ofRequest o.id o.request o.createdAt

theorem initially_of_terms {o p : Order} (h : o.SameTerms p) : initially p = initially o := by
  unfold initially
  rw [h.id, h.request, h.createdAt]

/-- The executions of an order replay to it, or to what a cancellation was laid on. -/
def Replays (scale : Nat) (s : Store) (o : Order) : Prop :=
  ∃ p, (initially o).replay scale (s.executionsOf o.id) = .ok p ∧
    (o.status ≠ .cancelled → o = p) ∧ (o.status = .cancelled → o = cancelled p o.updatedAt)

variable {scale : Nat} {s : Store}

/-- A fill of an order that its executions replay to is one more step of the replay. -/
theorem Replays.fill {o after : Order} {amount price : Decimal} {time : Instant} {s' : Store}
    {e : Execution} (h : Replays scale s o) (hlive : o.status ≠ .cancelled)
    (hfill : o.fill amount price scale time = .ok after)
    (he : e.amount = amount ∧ e.price = price ∧ e.executedAt = time)
    (hexecutions : s'.executionsOf after.id = s.executionsOf o.id ++ [e]) :
    Replays scale s' after := by
  obtain ⟨p, hreplay, hsame, -⟩ := h
  obtain rfl := hsame hlive
  obtain ⟨rfl, rfl, rfl⟩ := he
  have hfilled := Order.fill_ok hfill
  refine ⟨after, ?_, fun _ => rfl, fun hc => absurd hc (hfilled.status_ne_cancelled hlive)⟩
  rw [initially_of_terms hfilled.terms, hexecutions]
  exact Order.replay_append hreplay hfill

theorem History.replays (h : History scale s) : ∀ o ∈ s.orders, Replays scale s o := by
  induction h with
  | empty => exact List.forall_mem_nil _
  | @place s h request time _ _ ih =>
      intro o ho
      rcases List.mem_append.mp ho with hin | hnew
      · exact ih o hin
      · rw [List.mem_singleton.mp hnew]
        refine ⟨_, ?_, fun _ => rfl, fun hc => nomatch hc⟩
        show Order.replay scale _ (s.executionsOf s.nextOrderId) = _
        rw [h.executionsOf_next]
        rfl
  | @cancel s p _ hfind hlive time ih =>
      intro o ho
      rcases mem_orders_replace ho with rfl | hin
      · obtain ⟨q, hreplay, hsame, -⟩ := ih p (mem_of_find? hfind).1
        obtain rfl := hsame fun hc => by rw [hc] at hlive; cases hlive
        exact ⟨p, hreplay, fun hne => absurd rfl hne, fun _ => rfl⟩
      · exact ih o hin
  | @trade s incoming counter fill _ t ih =>
      intro o ho
      have hexecutions := t.executionsOf_commit o.id
      rcases t.mem_orders_commit ho with rfl | rfl | ⟨hin, hincoming, hcounter⟩
      · rw [t.incoming_id, if_pos rfl, ← t.incoming_id] at hexecutions
        refine (ih incoming (mem_of_find? t.incomingFound).1).fill
          (Order.ne_cancelled_of_matchable t.matchable) t.meeting.incomingFill
          (e := (s.executionPair fill).incoming) ⟨rfl, rfl, rfl⟩ ?_
        rw [hexecutions, t.incoming_id]
      · have hne : fill.counter.id ≠ incoming.id := t.counter_id ▸ t.ids_ne.symm
        rw [if_neg hne, if_pos t.counter_id] at hexecutions
        refine (ih counter (mem_of_find? t.counterFound).1).fill
          (Order.ne_cancelled_of_matchable t.counter_matchable) t.meeting.counterFill
          (e := (s.executionPair fill).counter) ⟨rfl, rfl, rfl⟩ ?_
        rw [hexecutions, t.counter_id]
      · rw [if_neg hincoming, if_neg hcounter, List.append_nil] at hexecutions
        obtain ⟨p, hreplay, hsame⟩ := ih o hin
        exact ⟨p, by rw [hexecutions]; exact hreplay, hsame⟩

end Store

/--
An order was placed by a call with a request.  Filling what that made, once for every
execution of the order in the order of the ledger, never fails; and the outcome is the
order itself, unless a call has cancelled it, which left its status and its time on top.
-/
def Floor.Recounts (scale : Nat) (f : Floor) (o : Order) : Prop :=
  ∃ request p, ⟨.store (.insert request o.createdAt),
      .ok (Order.ofRequest o.id request o.createdAt)⟩ ∈ f.log ∧
    (Order.ofRequest o.id request o.createdAt).replay scale (f.store.executionsOf o.id) = .ok p ∧
    (o.status ≠ .cancelled → o = p) ∧
    (o.status = .cancelled → o = { p with status := .cancelled, updatedAt := o.updatedAt } ∧
      ⟨.store (.cancel o.id o.updatedAt), .ok (some o)⟩ ∈ f.log)

/-- **Every order on record is what its executions replay to.** -/
theorem Floor.Seen.recounts {scale : Nat} {f : Floor} (h : f.Seen scale) {o : Order}
    (ho : o ∈ f.store.orders) : f.Recounts scale o := by
  obtain ⟨p, hreplay, hsame, hcancelled⟩ := h.orderly.history.replays o ho
  refine ⟨o.request, p, h.orderly.placed o ho, hreplay, hsame, fun hc => ⟨hcancelled hc, ?_⟩⟩
  exact h.orderly.cancelled o ho hc

/-- Two fills of an order for 3.5, at two prices, before it is cancelled. -/
def Floor.withdrawn : Floor :=
  session 2 .epoch [.order .buy (.ofDigits 1 0) (.ofDigits 35 1),
    .order .sell (.ofDigits 1 0) (.ofDigits 1 0),
    .order .sell (.ofDigits 97 2) (.ofDigits 125 2), .tick, .cancel 1]

theorem Floor.recounts_withdrawn :
    withdrawn.Seen 2 ∧ ∃ o ∈ withdrawn.store.orders, o.status = .cancelled ∧
      (withdrawn.store.executionsOf o.id).length = 2 ∧ withdrawn.Recounts 2 o := by
  have hseen : withdrawn.Seen 2 := (reached_session _ _ _).seen
  obtain ⟨o, ho, hstatus, hlength⟩ : ∃ o ∈ withdrawn.store.orders, o.status = .cancelled ∧
      (withdrawn.store.executionsOf o.id).length = 2 := by decide +kernel
  exact ⟨hseen, o, ho, hstatus, hlength, Floor.Seen.recounts hseen ho⟩

end Bourse
