/-
Matching on a floor that nobody else works on.

Left alone, a turn does more than keep to what others may rely on: what it has read stays
as it was read.  `Trading` says how far a floor may have moved on then, and `Serially` is
`Ensures` with that in place of a fixed property, so that work in parts can be followed
with what each part began with.

`Complete` is what a turn has to find for its queue to be complete: whatever can be
matched is listed.  No trade ever changes that, and in the end a turn comes down to a walk
along such a queue or to nothing at all (`Turned`).
-/
import Bourse.Proofs.Conduct
import Bourse.Proofs.Priority

namespace Bourse

open Decimal

/-! ### How far a floor moves on -/

/-- Does a call leave the index as it is, and the store too? -/
def Call.still : Call → Bool
  | index (.enqueue ..) | index (.remove ..) => false
  | c => c.quiet

namespace Floor

/-- Nothing but trades has happened, and nothing out of order. -/
structure Trading (scale : Nat) (f g : Floor) : Prop extends Trades f g where
  orderly : f.Orderly scale → g.Orderly scale

variable {scale k : Nat} {f g h : Floor}

theorem Trading.refl (scale : Nat) (f : Floor) : f.Trading scale f :=
  ⟨.of_same rfl rfl, id⟩

theorem Trading.trans (hfg : f.Trading scale g) (hgh : g.Trading scale h) : f.Trading scale h :=
  ⟨hfg.toTrades.trans hgh.toTrades, hgh.orderly ∘ hfg.orderly⟩

/-- Nothing has happened to any order. -/
structure Still (scale : Nat) (f g : Floor) : Prop extends Trading scale f g where
  store : g.store = f.store

theorem quiet_of_still {c : Call} (hc : c.still = true) : c.quiet = true := by
  cases c with
  | index => rfl
  | _ => exact hc

/-- A call that is still leaves the store and the index as they are, however it is answered. -/
theorem after_same {c : Call} (hc : c.still = true) (a : c.Answer) :
    (f.after c a).store = f.store ∧ (f.after c a).index = f.index := by
  refine ⟨f.storeAfter_of_quiet (quiet_of_still hc) a, ?_⟩
  cases c with
  | index c =>
      cases a with
      | error e => rfl
      | ok a =>
          cases c with
          | enqueue | remove => cases hc
          | list | tickers | size => rfl
  | _ => rfl

theorem Still.of_still {c : Call} (hc : c.still = true) (a : c.Answer) :
    f.Still scale (f.after c a) := by
  obtain ⟨hstore, hindex⟩ := after_same hc a
  exact ⟨⟨.of_same hstore hindex, fun hf => hf.of_quiet (quiet_of_still hc) a⟩, hstore⟩

/-- What an order that is on record was before. -/
theorem Withdraws.earlier (hfg : f.Withdraws g) {p : Order} (hp : p ∈ g.store.orders) :
    ∃ o ∈ f.store.orders, o.Becomes p := by
  have hfind := Store.mem_orders_iff.mp hp
  obtain ⟨o, ho⟩ := hfg.known p.id p hfind
  obtain ⟨q, hq, hbecomes⟩ := hfg.orders p.id o ho
  rw [hfind, Option.some.injEq] at hq
  exact ⟨o, (Store.mem_of_find? ho).1, hq ▸ hbecomes⟩

/-- All that a turn relies on, with the amounts on a grid. -/
structure Complete (scale k : Nat) (f : Floor) : Prop where
  orderly : f.Orderly scale
  sound : f.Sound
  /-- Every order that can be matched is listed under its side and ticker. -/
  listed : ∀ o ∈ f.store.orders, o.matchable = true →
    o.id ∈ f.index.waiting o.side o.ticker
  grid : ∀ o ∈ f.store.orders, OnGrid k o.amount.units

theorem Complete.trading (hf : f.Complete scale k) (hfg : f.Trading scale g) :
    g.Complete scale k := by
  refine ⟨hfg.orderly hf.orderly, hfg.sound hf.sound, fun p hp hmatch => ?_, fun p hp => ?_⟩
  · obtain ⟨o, ho, hbecomes⟩ := hfg.earlier hp
    have hlisted := hf.listed o ho (hbecomes.matchable hmatch)
    obtain ⟨q, hfind, hq⟩ := hfg.covers hf.sound o.id
      ⟨o, Store.mem_orders_iff.mp ho, fun _ => hlisted⟩
    rw [← hbecomes.terms.id, Store.mem_orders_iff.mp hp, Option.some.injEq] at hfind
    subst hfind
    rw [hbecomes.terms.id]
    exact hq hmatch
  · obtain ⟨o, ho, hbecomes⟩ := hfg.earlier hp
    rw [hbecomes.terms.amount]
    exact hf.grid o ho

/-- On a complete floor the queue of an order is made of all that it may meet. -/
theorem Complete.mem_queue (hf : f.Complete scale k) {o c : Order} :
    c ∈ f.queue o ↔ c ∈ f.store.orders ∧ o.mayMeet c = true := by
  rw [Floor.mem_queue, Order.mayMeet_iff]
  refine ⟨And.right, fun h => ⟨?_, h⟩⟩
  obtain ⟨hc, hmatch, hside, hticker, -⟩ := h
  rw [← hside, ← hticker]
  exact hf.listed c hc hmatch

theorem Complete.allotted (hf : f.Complete scale k) (hk : k ≤ 28) {o last : Order}
    {fills : List FillCommit} {s : Store} (hfind : f.store.find? o.id = some o)
    (hmatch : o.matchable = true) (hmeets : Meets scale f.store o (f.queue o) fills s last) :
    Allotted f.store o (f.queue o) fills s last :=
  hmeets.allotted hk hf.orderly.history (List.forall_mem_map.mpr hf.grid)
    (hf.orderly.ready_queue hfind) (Order.ne_cancelled_of_matchable hmatch)

end Floor

/-! ### Work that is alone -/

namespace Action

variable {α β : Type} {scale : Nat} {f : Floor}

/-- Done alone, the work only trades, and if it ends well, it ends in `goal`. -/
def Serially (scale : Nat) (goal : α → Floor → Prop) (work : Action α) (f : Floor) : Prop :=
  work.Ensures (f.Trading scale) (fun r g => ∀ a, r = .ok a → goal a g) f

theorem serially_done {goal : α → Floor → Prop} {a : α} (h : goal a f) :
    (done a).Serially scale goal f := by
  intro b hb
  cases hb
  exact h

theorem Serially.bind {middle : α → Floor → Prop} {goal : β → Floor → Prop} {work : Action α}
    {next : α → Action β} (h : work.Serially scale middle f)
    (hnext : ∀ a g, f.Trading scale g → middle a g → (next a).Serially scale goal g) :
    (work >>= next).Serially scale goal f := by
  refine Ensures.bind h (.refl scale f) (fun a g hfg hmiddle => ?_) fun _ _ _ _ _ hb => nomatch hb
  exact (hnext a g hfg (hmiddle a rfl)).weaken fun k hgk => hfg.trans hgk

/-- However the work ends, its end is put aside. -/
theorem Serially.attempt {goal : α → Floor → Prop} {held : Except Failure α → Floor → Prop}
    {work : Action α} (h : work.Serially scale goal f)
    (hok : ∀ a g, f.Trading scale g → goal a g → held (.ok a) g)
    (herror : ∀ e g, f.Trading scale g → held (.error e) g) :
    work.attempt.Serially scale held f := by
  refine Ensures.attempt (Ensures.mono (fun r g hfg hgoal s hs => ?_) (.refl scale f) h)
  cases hs
  cases r with
  | ok a => exact hok a g hfg (hgoal a rfl)
  | error e => exact herror e g hfg

theorem serially_still {goal : α → Floor → Prop} {c : Call} (hc : c.still = true)
    {rest : c.Answer → Action α}
    (h : ∀ a g, f.May c a → f.Still scale g → (rest a).Serially scale goal g) :
    (call c rest).Serially scale goal f := by
  intro a hmay
  have hafter : f.Still scale (f.after c a) := .of_still hc a
  exact ⟨hafter.toTrading, (h a _ hmay hafter).weaken fun k hk => hafter.toTrading.trans hk⟩

end Action

/-! ### A turn -/

/-- What a turn that ends well comes to: a walk along a queue, or nothing. -/
inductive Floor.Turned (scale : Nat) (id : OrderId) (f g : Floor) : Prop
  | idle (hstore : g.store = f.store)
      (hidle : ∀ o, f.store.find? id = some o → o.matchable = false)
  | met {o last : Order} {fills : List FillCommit} (hfind : f.store.find? id = some o)
      (hmatch : o.matchable = true)
      (hmeets : Meets scale f.store o (f.queue o) fills g.store last)

variable {scale : Nat} {f : Floor}

/-- The turn of an order that cannot be matched leaves the store as it is. -/
theorem processOrder_idle (hf : f.Orderly scale) (id : OrderId) (ticker : String)
    (hidle : ∀ o, f.store.find? id = some o → o.matchable = false) :
    (processOrder scale id ticker).Ensures (Floor.Orderly scale)
      (fun _ g => g.store = f.store) f := by
  unfold processOrder
  have hloaded := hf.of_quiet (c := .store (.load id)) rfl (.ok (f.store.find? id))
  refine Action.ensures_store ⟨hloaded, ?_⟩ fun e => ⟨hf.of_quiet rfl _, rfl⟩
  rw [show (f.store.perform (.load id)).1 = f.store.find? id from rfl]
  cases hfind : f.store.find? id with
  | none => exact rfl
  | some o =>
      rw [hfind] at hloaded
      dsimp only
      split
      · exact rfl
      · rw [hidle o hfind]
        exact Action.ensures_index ⟨hloaded.of_quiet rfl _, rfl⟩ fun e =>
          ⟨hloaded.of_quiet rfl _, rfl⟩

/-- **Taken alone, a turn is a walk along its queue**, if the order trades that ticker. -/
theorem processOrder_serially (hf : f.Orderly scale) (hsound : f.Sound) (id : OrderId)
    (ticker : String) (hticker : ∀ o, f.store.find? id = some o → o.ticker = ticker) :
    (processOrder scale id ticker).Serially scale (fun _ => f.Turned scale id) f := by
  have htrades : (processOrder scale id ticker).Ensures f.Trades (fun _ _ => True) f :=
    ((processOrder_gives hsound id ticker []).ensures).mono (fun _ _ _ _ => trivial)
      (.of_same rfl rfl)
  suffices h : (processOrder scale id ticker).Ensures (Floor.Orderly scale)
      (fun r g => ∀ report, r = .ok report → f.Turned scale id g) f by
    refine Action.Ensures.mono (fun _ _ _ h => h.1) (.refl scale f) ((h.and htrades).weaken ?_)
    exact fun g hg => ⟨hg.2, fun _ => hg.1⟩
  by_cases hidle : ∀ o, f.store.find? id = some o → o.matchable = false
  · refine (processOrder_idle hf id ticker hidle).mono (fun _ _ _ hstore _ _ => ?_) hf
    exact .idle hstore hidle
  · push Not at hidle
    obtain ⟨o, hfind, hmatch⟩ := hidle
    replace hmatch := Bool.eq_true_of_not_eq_false hmatch
    refine (processOrder_ensures hf id ticker).mono (fun r g _ hturn report hreport => ?_) hf
    obtain ⟨fills, last, hmeets, -⟩ := hturn report o hreport hfind (hticker o hfind) hmatch
    exact .met hfind hmatch hmeets

end Bourse
