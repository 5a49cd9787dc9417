/-
The course of a tick that nobody disturbs.

The notes of a tick say in which order its turns were taken, and between two of them
nothing happens to any order.  So a tick comes down to a series of turns, each of which
is a walk along a queue or nothing at all, unless it has failed; and even a turn that has
failed does no more than trade.  Series are nested like the loops of the tick: turns
within a side, sides within a ticker, tickers within the tick.

From here on nothing needs to be said about calls any more.  What holds of a tick is shown
of a turn and carried along a series.
-/
import Bourse.Proofs.Alone
import Bourse.Proofs.Turns

namespace Bourse

open Bourse.Action

/-! ### Series -/

/-- One thing after the other, each as `step` says, and nothing of note in between. -/
inductive Floor.Series (scale : Nat) {α : Type} (step : Floor → α → Floor → Prop) :
    Floor → List α → Floor → Prop
  | nil {f g : Floor} (h : f.Still scale g) : Series scale step f [] g
  | cons {f f' g' g : Floor} {a : α} {as : List α} (h : f.Still scale f') (hstep : step f' a g')
      (hrest : Series scale step g' as g) : Series scale step f (a :: as) g

namespace Floor

variable {scale : Nat} {f g h : Floor}

theorem Still.refl (scale : Nat) (f : Floor) : f.Still scale f := ⟨.refl scale f, rfl⟩

theorem Still.trans (hfg : f.Still scale g) (hgh : g.Still scale h) : f.Still scale h :=
  ⟨hfg.toTrading.trans hgh.toTrading, hgh.store.trans hfg.store⟩

namespace Series

variable {α : Type} {step : Floor → α → Floor → Prop} {as : List α}

theorem start (hfg : f.Still scale g) (hs : g.Series scale step as h) :
    f.Series scale step as h := by
  cases hs with
  | nil hgh => exact .nil (hfg.trans hgh)
  | cons hg hstep hrest => exact .cons (hfg.trans hg) hstep hrest

theorem finish (hs : f.Series scale step as g) (hgh : g.Still scale h) :
    f.Series scale step as h := by
  induction hs with
  | nil hfg => exact .nil (hfg.trans hgh)
  | cons hf hstep _ ih => exact .cons hf hstep (ih hgh)

theorem trading (hs : f.Series scale step as g)
    (hstep : ∀ {f a g}, step f a g → f.Trading scale g) : f.Trading scale g := by
  induction hs with
  | nil hfg => exact hfg.toTrading
  | cons hf h _ ih => exact hf.toTrading.trans ((hstep h).trans ih)

/-- There is a moment at which each thing was done, after and before nothing but trades. -/
theorem split (hs : f.Series scale step as g)
    (hstep : ∀ {f a g}, step f a g → f.Trading scale g) {a : α} (ha : a ∈ as) :
    ∃ f' g', f.Trading scale f' ∧ step f' a g' ∧ g'.Trading scale g := by
  induction hs with
  | nil => cases ha
  | cons hf h hrest ih =>
      rcases List.mem_cons.mp ha with rfl | ha
      · exact ⟨_, _, hf.toTrading, h, hrest.trading hstep⟩
      · obtain ⟨f', g', hf', ha, hg'⟩ := ih ha
        exact ⟨f', g', hf.toTrading.trans ((hstep h).trans hf'), ha, hg'⟩

end Series

end Floor

/-! ### What the notes are of -/

/-- How a turn goes that nobody disturbs. -/
structure OrderTurn.Taken (scale : Nat) (f : Floor) (t : OrderTurn) (g : Floor) : Prop
    extends f.Trading scale g where
  turned : t.Fine → f.Turned scale t.order g

/-- How one side of a ticker is gone through: those that wait when it begins are listed. -/
structure SidePass.Made (scale : Nat) (ticker : String) (f : Floor) (s : SidePass) (g : Floor) :
    Prop where
  listing : ∀ ids, s.listing = .ok ids → ids = f.index.waiting s.side ticker
  turns : f.Series scale (OrderTurn.Taken scale) s.turns g

/-- How a ticker is gone through. -/
def TickerPass.Made (scale : Nat) (f : Floor) (p : TickerPass) (g : Floor) : Prop :=
  f.Series scale (SidePass.Made scale p.ticker) p.sides g

variable {scale : Nat} {f g : Floor} {ticker : String}

theorem SidePass.Made.trading {s : SidePass} (h : s.Made scale ticker f g) : f.Trading scale g :=
  h.turns.trading (·.toTrading)

theorem TickerPass.Made.trading {p : TickerPass} (h : p.Made scale f g) : f.Trading scale g :=
  Floor.Series.trading h (·.trading)

/-! ### Following the calls -/

/-- A turn is taken whether it ends well or not. -/
theorem turn_serially (hf : f.Orderly scale) (hsound : f.Sound) {id : OrderId}
    (hid : ∃ o, f.store.find? id = some o ∧ o.ticker = ticker) :
    (processOrder scale id ticker).attempt.Serially scale
      (fun turn => OrderTurn.Taken scale f ⟨id, turn⟩) f := by
  refine Serially.attempt (processOrder_serially hf hsound id ticker fun o hfind => ?_)
    (fun report g hfg hturned => ⟨hfg, fun _ => hturned⟩) fun e g hfg => ⟨hfg, fun hfine => ?_⟩
  · obtain ⟨p, hfind', hp⟩ := hid
    rw [hfind, Option.some.injEq] at hfind'
    exact hfind' ▸ hp
  · obtain ⟨report, hreport⟩ := hfine
    cases hreport

theorem noteOrders_serially (hf : f.Orderly scale) (hsound : f.Sound) {ids : List OrderId}
    (hids : ∀ id ∈ ids, ∃ o, f.store.find? id = some o ∧ o.ticker = ticker) (r : TickReport) :
    (noteOrders scale ticker ids r).Serially scale
      (fun n => f.Series scale (OrderTurn.Taken scale) n.1) f := by
  induction ids generalizing f r with
  | nil => exact serially_done (.nil (.refl scale f))
  | cons id ids ih =>
      have hkept {g : Floor} (hfg : f.Trading scale g) :
          ∀ id' ∈ id :: ids, ∃ o, g.store.find? id' = some o ∧ o.ticker = ticker := by
        intro id' hid'
        obtain ⟨o, hfind, rfl⟩ := hids id' hid'
        obtain ⟨p, hfind', hp⟩ := hfg.orders id' o hfind
        exact ⟨p, hfind', hp.terms.ticker⟩
      have hrest {g : Floor} (hfg : f.Trading scale g) (r : TickReport) :
          (noteOrders scale ticker ids r).Serially scale
            (fun n => g.Series scale (OrderTurn.Taken scale) n.1) g := by
        refine ih (hfg.orderly hf) (hfg.sound hsound) (fun id' hid' => ?_) r
        exact hkept hfg id' (List.mem_cons_of_mem _ hid')
      unfold noteOrders
      refine serially_still rfl fun _ g _ hfg => ?_
      show ((processOrder scale id ticker).attempt >>= _).Serially _ _ _
      refine (turn_serially (hfg.orderly hf) (hfg.sound hsound)
        (hkept hfg.toTrading id (by simp))).bind fun turn k hgk htaken => ?_
      have hfk := hfg.toTrading.trans hgk
      have hended : f.Series scale (OrderTurn.Taken scale) [⟨id, turn⟩] k :=
        .cons hfg htaken (.nil (.refl scale k))
      cases turn with
      | ok report =>
          dsimp only
          split
          · exact (hrest hfk _).bind fun n l _ hs => serially_done (.cons hfg htaken hs)
          · exact serially_done hended
      | error failure =>
          cases failure with
          | error e =>
              refine serially_still rfl fun _ l _ hkl => ?_
              show (noteOrders scale ticker ids _ >>= _).Serially _ _ _
              exact (hrest (hfk.trans hkl.toTrading) _).bind fun n m _ hs =>
                serially_done (.cons hfg htaken (hs.start hkl))
          | overflow o => exact serially_done hended

theorem noteSide_serially (hf : f.Orderly scale) (hsound : f.Sound) (side : Side)
    (r : TickReport) : (noteSide scale ticker side r).Serially scale
      (fun n => n.1.Made scale ticker f) f := by
  unfold noteSide
  refine serially_still rfl fun ids g hmay hfg => ?_
  cases ids with
  | error e => exact serially_done ⟨fun _ h => (nomatch h), .nil hfg⟩
  | ok ids =>
      have hids : ids = f.index.waiting side ticker := hmay
      refine (noteOrders_serially (hfg.orderly hf) (hfg.sound hsound) (fun id hid => ?_) r).bind
        fun n k _ hs => serially_done ⟨fun ids' h => ?_, hs.start hfg⟩
      · obtain ⟨o, hfind, -, hticker⟩ := hsound.mem_waiting (hids ▸ hid)
        exact ⟨o, hfg.store ▸ hfind, hticker⟩
      · cases h
        exact hids

theorem noteTicker_serially (hf : f.Orderly scale) (hsound : f.Sound) (ticker : String) :
    (noteTicker scale ticker).Serially scale
      (fun p g => p.ticker = ticker ∧ p.Made scale f g) f := by
  unfold noteTicker
  refine (noteSide_serially hf hsound .buy _).bind fun a g hfg hbuys => ?_
  obtain ⟨buys, e | r⟩ := a
  · exact serially_done ⟨rfl, .cons (.refl scale f) hbuys (.nil (.refl scale g))⟩
  · refine (noteSide_serially (hfg.orderly hf) (hfg.sound hsound) .sell r).bind
      fun b k _ hsells => serially_done ⟨rfl, ?_⟩
    exact .cons (.refl scale f) hbuys (.cons (.refl scale g) hsells (.nil (.refl scale k)))

theorem noteTickers_serially (hf : f.Orderly scale) (hsound : f.Sound) (tickers : List String) :
    (noteTickers scale tickers).Serially scale (fun passes g =>
      passes.map (·.ticker) = tickers ∧ f.Series scale (TickerPass.Made scale) passes g) f := by
  induction tickers generalizing f with
  | nil => exact serially_done ⟨rfl, .nil (.refl scale f)⟩
  | cons ticker tickers ih =>
      unfold noteTickers
      refine (noteTicker_serially hf hsound ticker).bind fun p g hfg hp => ?_
      refine (ih (hfg.orderly hf) (hfg.sound hsound)).bind fun passes k _ hpasses => ?_
      refine serially_done ⟨?_, .cons (.refl scale f) hp.2 hpasses.2⟩
      rw [List.map_cons, hp.1, hpasses.1]

/-- How a whole tick goes: ticker by ticker, each that is active when it begins. -/
structure Floor.Ticked (scale : Nat) (f : Floor) (passes : List TickerPass) (g : Floor) : Prop where
  tickers : passes.map (·.ticker) = f.index.tickers
  passes : f.Series scale (TickerPass.Made scale) passes g

theorem notePass_serially (hf : f.Orderly scale) (hsound : f.Sound) :
    (notePass scale).Serially scale (fun n g => ∀ report,
      n.2 = .ok (.completed report) → f.Ticked scale n.1 g) f := by
  unfold notePass
  refine serially_still rfl fun tickers g hmay hfg => ?_
  cases tickers with
  | error e => exact serially_still rfl fun _ _ _ _ => serially_done fun _ h => nomatch h
  | ok tickers =>
      have htickers : tickers = f.index.tickers := hmay
      refine (noteTickers_serially (hfg.orderly hf) (hfg.sound hsound) tickers).bind
        fun passes k _ hpasses => ?_
      cases TickerPass.total passes with
      | none => exact serially_done fun _ h => nomatch h
      | some total =>
          refine serially_still rfl fun _ l _ hkl => serially_done fun _ _ => ?_
          exact ⟨hpasses.1.trans htickers, (hpasses.2.start hfg).finish hkl⟩

/-- **A tick that is completed has gone from ticker to ticker and from turn to turn.** -/
theorem noteTick_serially (hf : f.Orderly scale) (hsound : f.Sound) :
    (noteTick scale).Serially scale (fun n g => ∀ report, n.2 = .ok (.completed report) →
      ∃ f', f.Still scale f' ∧ f'.Ticked scale n.1 g) f := by
  unfold noteTick
  refine serially_still rfl fun time g _ hfg => serially_still rfl fun isOpen k _ hgk => ?_
  cases isOpen with
  | false => exact serially_still rfl fun _ _ _ _ => serially_done fun _ h => nomatch h
  | true =>
      refine serially_still rfl fun begun l _ hkl => ?_
      cases begun with
      | false => exact serially_still rfl fun _ _ _ _ => serially_done fun _ h => nomatch h
      | true =>
          have hfl := (hfg.trans hgk).trans hkl
          refine (notePass_serially (hfl.orderly hf) (hfl.sound hsound)).bind fun n m _ hn =>
            serially_still rfl fun _ m' _ hmm' => serially_done fun report h => ?_
          obtain ⟨htickers, hpasses⟩ := hn report h
          exact ⟨l, hfl, htickers, hpasses.finish hmm'⟩

theorem Floor.Complete.ticked {k : Nat} (hf : f.Complete scale k) {passes : List TickerPass}
    {report : TickReport}
    (hlead : f.Leads (noteTick scale) (.done (passes, .ok (.completed report))) g) :
    ∃ f', f.Still scale f' ∧ f'.Complete scale k ∧ f'.Ticked scale passes g := by
  obtain ⟨-, hticked⟩ :=
    (noteTick_serially hf.orderly hf.sound).of_leads hlead (.refl scale f)
  obtain ⟨f', hstill, hticked⟩ := hticked _ rfl report rfl
  exact ⟨f', hstill, hf.trading hstill.toTrading, hticked⟩

end Bourse
