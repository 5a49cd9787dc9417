/-
Why a turn fails.

A turn fails with the error of a call that was refused, because its order is indexed under
another ticker, or because a fill could not be worked out.  The last of these is a matter
of the two orders as they stand on record, and those do not change under a turn but by its
own trades.  So whoever knows something of the store that trades preserve, and that tells
how a fill can fail, knows how a turn can fail: that is `Sustains` and
`processOrder_faults`.

A fill is worked out from what remains of two orders that can be matched, so it is never
too large and never nothing.  What was executed of an order is not less than nothing, and
more than nothing after a fill however it is rounded, so that the order's status always
moves as it may.  There is nothing left for a fill to fail with but a result without room.
-/
import Bourse.Proofs.Cut

namespace Bourse

open Bourse.Action Decimal

variable {scale : Nat}

/-! ### Why a fill fails -/

/-- Is it that a result has found no room? -/
def FillFault.overflows : FillFault → Bool
  | notPositive | exceedsRemaining => false
  | executedAmountOverflow | remainingAmountOverflow | fillValueOverflow
  | executedValueOverflow | averagePriceOverflow => true

/-- The error of a fill for whose results there is no room. -/
def Error.Overflows (e : Error) : Prop :=
  ∃ (fault : FillFault) (id : OrderId), fault.overflows = true ∧ e = fault.error id

theorem Except.bind_error {ε α β : Type} {x : Except ε α} {f : α → Except ε β} {e : ε}
    (h : (x >>= f) = .error e) : x = .error e ∨ ∃ a, x = .ok a ∧ f a = .error e := by
  cases x with
  | error e' =>
      cases h
      exact Or.inl rfl
  | ok a => exact Or.inr ⟨a, rfl, h⟩

theorem FillFault.orElse_error {f fault : FillFault} {a : Option Decimal}
    (h : f.orElse a = .error fault) : fault = f := by
  cases a with
  | none => cases h; rfl
  | some x => cases h

namespace Order

variable {o c after : Order} {amount price : Decimal} {time : Instant}

/-- A fill of more than nothing and no more than remains fails only for want of room. -/
theorem fill_fault {fault : FillFault} (hpositive : 0 < amount.units)
    (hwithin : amount.units ≤ o.remainingAmount.units)
    (h : o.fill amount price scale time = .error fault) : fault.overflows = true := by
  have hover : ¬ o.remainingAmount < amount := fun hlt => by
    rw [lt_iff] at hlt
    omega
  unfold fill at h
  simp only [positive_iff.mpr hpositive, hover, Bool.not_true, Bool.false_eq_true, if_false] at h
  rcases Except.bind_error h with h | ⟨executed, -, h⟩
  · rw [FillFault.orElse_error h]; rfl
  rcases Except.bind_error h with h | ⟨remaining, -, h⟩
  · rw [FillFault.orElse_error h]; rfl
  rcases Except.bind_error h with h | ⟨value, -, h⟩
  · rw [FillFault.orElse_error h]; rfl
  rcases Except.bind_error h with h | ⟨total, -, h⟩
  · rw [FillFault.orElse_error h]; rfl
  rcases Except.bind_error h with h | ⟨average, -, h⟩
  · rw [FillFault.orElse_error h]; rfl
  · cases h

theorem leg_fault {e : Error} (hpositive : 0 < amount.units)
    (hwithin : amount.units ≤ o.remainingAmount.units)
    (h : o.leg amount price scale time = .error e) : e.Overflows := by
  unfold leg at h
  cases hfill : o.fill amount price scale time with
  | ok after =>
      rw [hfill] at h
      cases h
  | error fault =>
      rw [hfill] at h
      cases h
      exact ⟨fault, o.id, fill_fault hpositive hwithin hfill, rfl⟩

namespace FilledTo

/-- However the sum is rounded, something was executed once there was a fill. -/
theorem executed_pos (h : o.FilledTo amount price scale time after)
    (hexecuted : 0 ≤ o.executedAmount.units) : 0 < after.executedAmount.units := by
  have hsum := add_roundsTo h.executed
  have hpos := h.positive
  have := hsum.ge (d := amount) (by omega)
  omega

/-- A fill leaves an order partly filled, or filled. -/
theorem status_cases (h : o.FilledTo amount price scale time after)
    (hexecuted : 0 ≤ o.executedAmount.units) (hlive : o.status ≠ .cancelled) :
    after.status = .partlyFilled ∨ after.status = .filled := by
  have hpos := h.executed_pos hexecuted
  rw [h.status_eq hlive, if_neg (show ¬ after.executedAmount.units = 0 by omega)]
  by_cases hzero : after.remainingAmount.units = 0
  · exact Or.inr (if_pos hzero)
  · exact Or.inl (if_neg hzero)

end FilledTo

/-- From what can be matched there is a way to what was filled. -/
theorem canBecome_of_filled {s t : OrderStatus} (hlive : s.terminal = false)
    (h : t = .partlyFilled ∨ t = .filled) : s.canBecome t = true := by
  rcases h with rfl | rfl <;> cases s <;> first | rfl | cases hlive

/-- Between orders that can be matched, a fill fails because one of its legs does. -/
theorem fillWith_legs {e : Error} (ho : o.matchable = true) (hc : c.matchable = true)
    (hexecuted : 0 ≤ o.executedAmount.units) (hexecuted' : 0 ≤ c.executedAmount.units)
    (h : o.fillWith c scale time = .error e) :
    o.leg (o.remainingAmount.least c.remainingAmount) c.price scale time = .error e ∨
      c.leg (o.remainingAmount.least c.remainingAmount) c.price scale time = .error e := by
  have hmove {p after : Order} {price : Decimal} (hmatch : p.matchable = true)
      (hnonneg : 0 ≤ p.executedAmount.units)
      (hleg : p.leg (o.remainingAmount.least c.remainingAmount) price scale time = .ok after) :
      p.checkMove after.status = .ok () :=
    if_pos (canBecome_of_filled (matchable_iff.mp hmatch).1
      ((fill_ok (leg_ok hleg)).status_cases hnonneg (ne_cancelled_of_matchable hmatch)))
  unfold fillWith at h
  dsimp only at h
  rcases Except.bind_error h with h | ⟨incoming, hincoming, h⟩
  · exact Or.inl h
  rcases Except.bind_error h with h | ⟨counter, hcounter, h⟩
  · exact Or.inr h
  rw [hmove ho hexecuted hincoming, hmove hc hexecuted' hcounter] at h
  cases h

/-- **Between orders that can be matched, a fill fails only for want of room.** -/
theorem fillWith_fault {e : Error} (ho : o.matchable = true) (hc : c.matchable = true)
    (hexecuted : 0 ≤ o.executedAmount.units) (hexecuted' : 0 ≤ c.executedAmount.units)
    (h : o.fillWith c scale time = .error e) : e.Overflows := by
  have hopos := (matchable_iff.mp ho).2
  have hcpos := (matchable_iff.mp hc).2
  have hleast := units_least o.remainingAmount c.remainingAmount
  rcases fillWith_legs ho hc hexecuted hexecuted' h with h | h <;>
    exact leg_fault (by omega) (by omega) h

end Order

/-- What was executed of an order is never less than nothing. -/
theorem Store.History.executed_nonneg {s : Store} (h : s.History scale) :
    ∀ o ∈ s.orders, 0 ≤ o.executedAmount.units := by
  induction h with
  | empty => exact List.forall_mem_nil _
  | place _ request time _ _ ih =>
      intro o ho
      rcases List.mem_append.mp ho with hin | hnew
      · exact ih o hin
      · rw [List.mem_singleton.mp hnew]
        exact units_zero.ge
  | @cancel s p _ hfind _ time ih =>
      intro o ho
      rcases mem_orders_replace ho with rfl | hin
      · exact ih p (mem_of_find? hfind).1
      · exact ih o hin
  | trade _ t ih =>
      intro o ho
      have hincoming := ih _ (mem_of_find? t.incomingFound).1
      have hcounter := ih _ (mem_of_find? t.counterFound).1
      rcases t.mem_orders_commit ho with rfl | rfl | ⟨hin, -, -⟩
      · exact (t.incomingFilled.executed_pos hincoming).le
      · exact (t.counterFilled.executed_pos hcounter).le
      · exact ih o hin

/-! ### Why a turn fails -/

/-- The error that a call on the store or the index was refused with. -/
def Answered.error? : Answered → Option Error
  | ⟨.store _, .error e⟩ => some e
  | ⟨.index _, .error e⟩ => some e
  | _ => none

namespace Floor

variable {f g h : Floor} {own : Error → Prop} {x : Failure}

/-- On the way a call was refused with this error. -/
def Refuses (f g : Floor) (e : Error) : Prop := ∃ a ∈ f.since g, a.error? = some e

/-- Work has failed because a call was refused, or with an error of its own. -/
def Fails (own : Error → Prop) (f g : Floor) (x : Failure) : Prop :=
  ∃ e, x = .error e ∧ (f.Refuses g e ∨ own e)

theorem Fails.of_refused {c : Call} {a : c.Answer} {e : Error}
    (h : Answered.error? ⟨c, a⟩ = some e) : f.Fails own (f.after c a) (.error e) := by
  refine ⟨e, rfl, Or.inl ⟨⟨c, a⟩, ?_, h⟩⟩
  rw [since_after]
  exact List.mem_singleton_self _

theorem Fails.of_own {e : Error} (h : own e) : f.Fails own g (.error e) := ⟨e, rfl, Or.inr h⟩

theorem Fails.earlier (hx : g.Fails own h x) (hfg : f.log <+: g.log) (hgh : g.log <+: h.log) :
    f.Fails own h x := by
  obtain ⟨e, rfl, ⟨a, ha, he⟩ | hown⟩ := hx
  · refine ⟨e, rfl, Or.inl ⟨a, ?_, he⟩⟩
    rw [since_trans hfg hgh]
    exact List.mem_append_right _ ha
  · exact .of_own hown

theorem Fails.mono {own' : Error → Prop} (hx : f.Fails own g x) (himp : ∀ e, own e → own' e) :
    f.Fails own' g x :=
  hx.imp fun e ⟨he, hcause⟩ => ⟨he, hcause.imp_right (himp e)⟩

end Floor

/-- What is known of the end of work that fails with nothing but such errors of its own. -/
def Floor.Blames (own : Error → Prop) (f : Floor) {α : Type} (r : Except Failure α) (g : Floor) :
    Prop :=
  f.log <+: g.log ∧ ∀ x, r = .error x → f.Fails own g x

namespace Floor.Blames

variable {f g h : Floor} {own : Error → Prop} {α β : Type}

theorem done (a : α) (hlog : f.log <+: g.log) : f.Blames own (.ok a) g :=
  ⟨hlog, fun _ h => nomatch h⟩

theorem failed {x : Failure} (hlog : f.log <+: g.log) (h : f.Fails own g x) :
    f.Blames own (.error x : Except Failure α) g :=
  ⟨hlog, fun _ hx => by cases hx; exact h⟩

theorem earlier {r : Except Failure α} (h' : g.Blames own r h) (hlog : f.log <+: g.log) :
    f.Blames own r h :=
  ⟨hlog.trans h'.1, fun x hx => (h'.2 x hx).earlier hlog h'.1⟩

theorem of_error {x : Failure} (h : f.Blames own (.error x : Except Failure α) g) :
    f.Blames own (.error x : Except Failure β) g := .failed h.1 (h.2 x rfl)

theorem mono {own' : Error → Prop} {r : Except Failure α} (h' : f.Blames own r g)
    (himp : ∀ e, own e → own' e) : f.Blames own' r g :=
  ⟨h'.1, fun x hx => (h'.2 x hx).mono himp⟩

end Floor.Blames

/-- Strict work fails because a call was refused. -/
theorem Action.Strict.blames {α : Type} {work : Action α} (hwork : work.Strict)
    (own : Error → Prop) (f : Floor) :
    work.Ensures (fun _ => True) (fun r g => f.Blames own r g) f := by
  induction work generalizing f with
  | done a => exact .done a (List.prefix_refl _)
  | fail e => cases hwork
  | call c rest ih =>
      intro a _
      refine ⟨trivial, ?_⟩
      cases c with
      | store c =>
          obtain ⟨-, hrefused, hrest⟩ := hwork
          cases a with
          | error e =>
              rw [hrefused]
              exact .failed (f.log_after _ _) (.of_refused rfl)
          | ok a =>
              exact (ih _ (hrest a) _).mono (fun _ _ _ h => h.earlier (f.log_after _ _)) trivial
      | index c =>
          obtain ⟨hrefused, hrest⟩ := hwork
          cases a with
          | error e =>
              rw [hrefused]
              exact .failed (f.log_after _ _) (.of_refused rfl)
          | ok a =>
              exact (ih _ (hrest a) _).mono (fun _ _ _ h => h.earlier (f.log_after _ _)) trivial
      | _ => cases hwork

/--
What is known of a store is preserved by trades, and tells that a fill between two orders
on record fails with such errors only.
-/
structure Store.Sustains (scale : Nat) (P : Store → Prop) (own : Error → Prop) : Prop where
  trade : ∀ {s : Store} {o c : Order} {fill : FillCommit}, P s → s.Trade scale o c fill →
    P (s.commit fill).2
  fault : ∀ {s : Store} {o c : Order} {time : Instant} {e : Error}, P s → s.History scale →
    s.find? o.id = some o → s.find? c.id = some c → o.matchable = true → o.mayMeet c = true →
    o.fillWith c scale time = .error e → own e

section

variable {P : Store → Prop} {own : Error → Prop} {f : Floor}

theorem walk_faults (hs : Store.Sustains scale P own) (ticker : String) {counters : List Order}
    {o : Order} (hf : f.Orderly scale) (hP : P f.store) (hready : f.store.Ready o counters) :
    (walk scale ticker counters o).Ensures (Floor.Orderly scale)
      (fun r g => f.Blames own r g) f := by
  induction counters generalizing o f with
  | nil => exact .done _ (List.prefix_refl _)
  | cons c cs ih =>
      unfold walk
      by_cases hmatch : o.matchable = true
      · simp only [hmatch, Bool.not_true, Bool.false_eq_true, if_false]
        intro time _
        have hg : (f.after .now time).Orderly scale := hf.of_quiet rfl time
        refine ⟨hg, ?_⟩
        show (Action.ofExcept (o.fillWith c scale time) >>= _).Ensures _ _ _
        cases hfill : o.fillWith c scale time with
        | error e =>
            obtain ⟨hfound, hmay⟩ := hready.counterFound c List.mem_cons_self
            exact .failed (f.log_after _ _) (.of_own
              (hs.fault hP hf.history hready.found hfound hmatch hmay hfill))
        | ok fill =>
            have t := hready.trade hmatch hfill
            refine Action.ensures_store (f := f.after .now time) ⟨hg.trade t, ?_⟩ fun e =>
              ⟨hg.of_failed _ e, Floor.Blames.earlier (.failed (Floor.log_after _ _ _)
                (.of_refused rfl)) (f.log_after _ _)⟩
            have htrade := hg.trade t
            have hlog := (f.log_after .now time).trans (Floor.log_after _
              (.store (.commit fill)) (.ok ((f.after .now time).store.perform (.commit fill)).1))
            have hcommitted : ((f.after .now time).store.perform (.commit fill)).1 =
                .committed (f.store.executionPair fill) := t.committed.1
            rw [hcommitted] at htrade hlog ⊢
            -- Telling of the fill leaves the store as the trade made it, and does not fail.
            refine (((fill.quiet_settle ticker).ensures htrade).and
              (fill.settle_ensures ticker)).weaken (fun _ h => h.1) |>.bind htrade ?_ ?_
            · rintro _ k hk ⟨⟨hstore, -⟩, -, k', told, hsilent, rfl⟩
              have hk' := hlog.trans (hsilent.log.trans (k'.log_after _ told))
              have hready' := hready.next t
              have hP' := hs.trade hP t
              rw [show (f.store.commit fill).2 = _ from hstore.symm] at hready' hP'
              refine ((ih hk hP' hready').mono (fun _ _ _ h => h.earlier hk') hk).bind hk ?_ ?_
              · exact fun a l _ h => .done _ h.1
              · exact fun e l _ h => h.of_error
            · rintro e k - ⟨-, h, -⟩
              cases h
      · rw [Bool.not_eq_true] at hmatch
        simp only [hmatch, Bool.not_false, if_true]
        exact .done _ (List.prefix_refl _)

/-- Who is to be met is found on record, or a call was refused. -/
theorem Order.candidates_faults (hf : f.Orderly scale) (o : Order) (own : Error → Prop) :
    o.candidates.Ensures (Floor.Orderly scale) (fun r g => f.Blames own r g ∧
      g.store = f.store ∧ ∀ a, r = .ok a → a.1 = f.queue o) f :=
  ((candidates_ensures hf o).and (o.strict_candidates.blames own f)).weaken (fun _ h => h.1)
    |>.mono (fun _ _ _ h => ⟨h.2, h.1⟩) hf

/-- **A turn fails because a call was refused, its order is misplaced, or a fill fails.** -/
theorem processOrder_faults (hs : Store.Sustains scale P own) (hf : f.Orderly scale)
    (hP : P f.store) (id : OrderId) (ticker : String) :
    (processOrder scale id ticker).Ensures (Floor.Orderly scale)
      (fun r g => f.Blames (fun e => (∃ o, e = misindexed o ticker) ∨ own e) r g) f := by
  unfold processOrder
  have hloaded := hf.of_quiet (c := .store (.load id)) rfl (.ok (f.store.find? id))
  have hlog := f.log_after (.store (.load id)) (.ok (f.store.find? id))
  refine Action.ensures_store ⟨hloaded, ?_⟩ fun e =>
    ⟨hf.of_quiet rfl _, .failed (f.log_after _ _) (.of_refused rfl)⟩
  rw [show (f.store.perform (.load id)).1 = f.store.find? id from rfl]
  cases hfind : f.store.find? id with
  | none => exact .done _ (f.log_after _ _)
  | some o =>
      rw [hfind] at hloaded hlog
      dsimp only
      by_cases hticker : o.ticker = ticker
      · by_cases hmatch : o.matchable = true
        · simp only [hticker, bne_self_eq_false, hmatch, Bool.not_true, Bool.false_eq_true,
            if_false]
          refine (Order.candidates_faults hloaded o own).bind hloaded ?_ ?_
          · rintro ⟨counters, stale⟩ g hg ⟨hblames, hstore, hcounters⟩
            have hready : g.store.Ready o counters := by
              rw [hstore, show counters = f.queue o from hcounters _ rfl]
              exact hf.ready_queue hfind
            have hg' := hlog.trans hblames.1
            refine ((walk_faults hs ticker hg (hstore ▸ hP) hready).mono
              (fun _ _ _ h => h.earlier hg') hg).bind hg ?_ ?_
            · rintro ⟨last, fills, executions⟩ k hk hwalked
              refine (((last.quiet_dropFilled ticker).ensures hk).and
                (last.dropFilled_silent ticker)).weaken (fun _ h => h.1) |>.bind hk ?_ ?_
              · exact fun _ l _ h => .done _ (hwalked.1.trans h.2.2.log)
              · rintro e l - ⟨-, h, -⟩
                cases h
            · exact fun e k _ h => h.of_error.mono fun _ => Or.inr
          · exact fun e g _ h => (h.1.earlier hlog).of_error.mono fun _ => Or.inr
        · rw [Bool.not_eq_true] at hmatch
          simp only [hticker, bne_self_eq_false, hmatch, Bool.not_false, if_true,
            Bool.false_eq_true, if_false]
          refine Action.ensures_index ⟨hloaded.of_quiet rfl _, ?_⟩ fun e =>
            ⟨hloaded.of_quiet rfl _, ?_⟩
          · exact .done _ (hlog.trans (Floor.log_after _ _ _))
          · exact Floor.Blames.earlier (.failed (Floor.log_after _ _ _) (.of_refused rfl)) hlog
      · rw [if_pos (bne_iff_ne.mpr hticker)]
        exact .failed hlog (.of_own (Or.inl ⟨o, rfl⟩))

end

end Bourse
