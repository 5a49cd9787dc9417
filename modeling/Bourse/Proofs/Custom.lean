/-
What may become of a floor on which others work too.

Between two calls of one piece of work, others may make any number of calls, so what it
has read may be out of date when it acts on it.  What it can still rely on is said here
as relations between a floor and what may become of it.  `Becomes` is the weakest: the
orders keep their terms, one that cannot be matched never can again, and the books stay
sound.  `Spares` takes no order out of the index that can still be matched,
`Withdraws` also places none, and `Trades` also cancels none.

`Among` follows work call by call as `Ensures` does, but with a change of the one kind
before each call, and it asks that each call be a change of the other kind.  Work that
is alone is the case in which nothing changes in between (`Among.ensures`).
-/
import Bourse.Proofs.Orderly
import Bourse.Proofs.Waiting

namespace Bourse

/-! ### What may become of an order -/

/-- `p` may have become of `o`: its terms are the same, and it is not matchable anew. -/
structure Order.Becomes (o p : Order) : Prop where
  terms : o.SameTerms p
  matchable : p.matchable = true → o.matchable = true

theorem Order.Becomes.refl (o : Order) : o.Becomes o := ⟨.refl o, fun h => h⟩

theorem Order.Becomes.trans {o p q : Order} (h : o.Becomes p) (h' : p.Becomes q) : o.Becomes q :=
  ⟨h.terms.trans h'.terms, fun hq => h.matchable (h'.matchable hq)⟩

theorem Order.rel_becomes (a : Option Order) : Option.Rel Order.Becomes a a := by
  cases a with
  | none => exact .none
  | some o => exact .some (.refl o)

namespace Floor

/-! ### What is so of every floor -/

/-- The books are in order, and list only what is on record under that side and ticker. -/
structure Sound (f : Floor) : Prop where
  tidy : f.index.Tidy
  inOrder : f.index.InOrder
  /-- Every key is that of an order on record. -/
  filed : ∀ side ticker, ∀ k ∈ f.index.keys side ticker, ∃ o, f.store.find? k.order = some o ∧
    o.side = side ∧ o.ticker = ticker ∧ k = .ofPrice side o.price o.id

theorem sound_opened : Sound opened :=
  ⟨WaitingIndex.tidy_empty, WaitingIndex.inOrder_empty, fun _ _ _ hk => nomatch hk⟩

theorem Sound.mem_waiting {f : Floor} (h : f.Sound) {side : Side} {ticker : String} {id : OrderId}
    (hid : id ∈ f.index.waiting side ticker) :
    ∃ o, f.store.find? id = some o ∧ o.side = side ∧ o.ticker = ticker := by
  obtain ⟨k, hk, rfl⟩ := WaitingIndex.mem_waiting.mp hid
  obtain ⟨o, hfind, hside, hticker, -⟩ := h.filed side ticker k hk
  exact ⟨o, hfind, hside, hticker⟩

/-- The order is on record and, if it can be matched, listed under its side and ticker. -/
def Covers (f : Floor) (id : OrderId) : Prop :=
  ∃ o, f.store.find? id = some o ∧ (o.matchable = true → id ∈ f.index.waiting o.side o.ticker)

/-- What an order has become since it was read is on record. -/
def Knows (f : Floor) (o : Order) : Prop := ∃ p, f.store.find? o.id = some p ∧ o.Becomes p

theorem knows_of_find? {f : Floor} {id : OrderId} {o : Order} (h : f.store.find? id = some o) :
    f.Knows o := by
  obtain rfl := (Store.mem_of_find? h).2
  exact ⟨o, h, .refl o⟩

/-! ### How a floor may change -/

/-- The weakest that can be relied on, whoever works on the floor. -/
structure Becomes (f g : Floor) : Prop where
  sound : f.Sound → g.Sound
  orders : ∀ id o, f.store.find? id = some o → ∃ p, g.store.find? id = some p ∧ o.Becomes p

/-- And no order that can be matched was taken out of the index. -/
structure Spares (f g : Floor) : Prop extends Becomes f g where
  covers : f.Sound → ∀ id, f.Covers id → g.Covers id

/-- And no order was placed. -/
structure Withdraws (f g : Floor) : Prop extends Spares f g where
  known : ∀ id p, g.store.find? id = some p → ∃ o, f.store.find? id = some o

/-- And no order was cancelled. -/
structure Trades (f g : Floor) : Prop extends Withdraws f g where
  uncancelled : ∀ id o p, f.store.find? id = some o → g.store.find? id = some p →
    p.status = .cancelled → o.status = .cancelled

variable {f g h : Floor}

theorem Becomes.knows (hfg : f.Becomes g) {o : Order} (ho : f.Knows o) : g.Knows o := by
  obtain ⟨p, hfind, hp⟩ := ho
  obtain ⟨q, hfind', hq⟩ := hfg.orders _ p hfind
  exact ⟨q, hfind', hp.trans hq⟩

theorem Becomes.trans (hfg : f.Becomes g) (hgh : g.Becomes h) : f.Becomes h where
  sound hf := hgh.sound (hfg.sound hf)
  orders id o hfind := by
    obtain ⟨p, hfind', hp⟩ := hfg.orders id o hfind
    obtain ⟨q, hfind'', hq⟩ := hgh.orders id p hfind'
    exact ⟨q, hfind'', hp.trans hq⟩

theorem Spares.trans (hfg : f.Spares g) (hgh : g.Spares h) : f.Spares h where
  toBecomes := hfg.toBecomes.trans hgh.toBecomes
  covers hf id hcovers := hgh.covers (hfg.sound hf) id (hfg.covers hf id hcovers)

theorem Withdraws.trans (hfg : f.Withdraws g) (hgh : g.Withdraws h) : f.Withdraws h where
  toSpares := hfg.toSpares.trans hgh.toSpares
  known id q hfind := by
    obtain ⟨p, hfind'⟩ := hgh.known id q hfind
    exact hfg.known id p hfind'

theorem Trades.trans (hfg : f.Trades g) (hgh : g.Trades h) : f.Trades h where
  toWithdraws := hfg.toWithdraws.trans hgh.toWithdraws
  uncancelled id o q hfind hfind'' hq := by
    obtain ⟨p, hfind', -⟩ := hfg.orders id o hfind
    exact hfg.uncancelled id o p hfind hfind' (hgh.uncancelled id p q hfind' hfind'' hq)

/-- Where the store and the index are as they were, nothing has changed. -/
theorem Trades.of_same (hstore : g.store = f.store) (hindex : g.index = f.index) :
    f.Trades g := by
  refine ⟨⟨⟨⟨?_, ?_⟩, ?_⟩, ?_⟩, ?_⟩
  · exact fun hf => ⟨hindex ▸ hf.tidy, hindex ▸ hf.inOrder, hstore ▸ hindex ▸ hf.filed⟩
  · exact fun id o hfind => ⟨o, hstore ▸ hfind, .refl o⟩
  · intro _ id hcovers
    unfold Covers
    rw [hstore, hindex]
    exact hcovers
  · exact fun id p hfind => ⟨p, hstore ▸ hfind⟩
  · intro id o p hfind hfind' hp
    rw [hstore, hfind, Option.some.injEq] at hfind'
    rw [hfind']
    exact hp

end Floor

/-- A kind of change of a floor. -/
structure Change where
  holds : Floor → Floor → Prop
  becomes : ∀ {f g}, holds f g → f.Becomes g
  of_same : ∀ {f g : Floor}, g.store = f.store → g.index = f.index → holds f g
  trans : ∀ {f g h}, holds f g → holds g h → holds f h

namespace Change

/-- Whatever may become of a floor. -/
def any : Change where
  holds := Floor.Becomes
  becomes := id
  of_same hstore hindex := (Floor.Trades.of_same hstore hindex).toBecomes
  trans := .trans

/-- What spares the orders that can be matched. -/
def sparing : Change where
  holds := Floor.Spares
  becomes h := h.toBecomes
  of_same hstore hindex := (Floor.Trades.of_same hstore hindex).toSpares
  trans := .trans

/-- What also places no order. -/
def withdrawing : Change where
  holds := Floor.Withdraws
  becomes h := h.toBecomes
  of_same hstore hindex := (Floor.Trades.of_same hstore hindex).toWithdraws
  trans := .trans

/-- What also cancels no order. -/
def trading : Change where
  holds := Floor.Trades
  becomes h := h.toBecomes
  of_same := .of_same
  trans := .trans

/-- Is a change of the one kind always one of the other? -/
def Within (c d : Change) : Prop := ∀ {f g}, c.holds f g → d.holds f g

end Change

/-- Is the call on neither the store nor the index? -/
def Call.aside : Call → Bool
  | store _ | index _ => false
  | _ => true

namespace Floor

variable {f : Floor} {c : Call}

theorem storeAfter_of_aside (hc : c.aside = true) (a : c.Answer) : f.storeAfter c a = f.store := by
  cases c with
  | store | index => cases hc
  | _ => rfl

theorem indexAfter_of_aside (hc : c.aside = true) (a : c.Answer) : f.indexAfter c a = f.index := by
  cases c with
  | store | index => cases hc
  | _ => rfl

end Floor

/-! ### Work among other work -/

namespace Action

variable {α β : Type} {rely give : Change} {f g : Floor} {mine : List Answered}

/--
While the floor changes by `rely` before each of its calls, the work changes it by `give`
with each of them, and if it ends, it ends in `goal`.  The calls of its own are `mine`.
-/
def Among (rely give : Change) (goal : Except Failure α → List Answered → Floor → Prop) :
    Action α → List Answered → Floor → Prop
  | done a, mine, f => goal (.ok a) mine f
  | fail e, mine, f => goal (.error e) mine f
  | call c rest, mine, f => ∀ g, rely.holds f g → ∀ a, g.May c a →
      give.holds g (g.after c a) ∧
        (rest a).Among rely give goal (mine ++ [⟨c, a⟩]) (g.after c a)

variable {goal goal' : Except Failure α → List Answered → Floor → Prop}

/-- What has become of the floor since the work began can be counted on at its end. -/
theorem Among.mono {rely' give' : Change} {work : Action α} (h : work.Among rely give goal mine f)
    (hrely : rely'.Within rely) (hgive : give.Within give')
    (hgoal : ∀ r mine g, f.Becomes g → goal r mine g → goal' r mine g) :
    work.Among rely' give' goal' mine f := by
  suffices ∀ g, f.Becomes g → work.Among rely give goal mine g →
      work.Among rely' give' goal' mine g from this f (Change.any.of_same rfl rfl) h
  clear h
  induction work generalizing mine with
  | done a => exact fun g hfg h => hgoal _ _ g hfg h
  | fail e => exact fun g hfg h => hgoal _ _ g hfg h
  | call c rest ih =>
      intro g hfg h k hgk a hmay
      obtain ⟨hcall, hrest⟩ := h k (hrely hgk) a hmay
      refine ⟨hgive hcall, ih a _ ?_ hrest⟩
      exact (hfg.trans (rely'.becomes hgk)).trans (give.becomes hcall)

theorem Among.bind {middle : Except Failure α → List Answered → Floor → Prop}
    {goal : Except Failure β → List Answered → Floor → Prop} {work : Action α}
    {next : α → Action β} (h : work.Among rely give middle mine f)
    (hnext : ∀ a mine g, f.Becomes g → middle (.ok a) mine g →
      (next a).Among rely give goal mine g)
    (hfail : ∀ e mine g, f.Becomes g → middle (.error e) mine g → goal (.error e) mine g) :
    (work >>= next).Among rely give goal mine f := by
  suffices ∀ g, f.Becomes g → work.Among rely give middle mine g →
      (work >>= next).Among rely give goal mine g from this f (Change.any.of_same rfl rfl) h
  clear h
  induction work generalizing mine with
  | done a => exact fun g hfg h => hnext a _ g hfg h
  | fail e => exact fun g hfg h => hfail e _ g hfg h
  | call c rest ih =>
      intro g hfg h k hgk a hmay
      obtain ⟨hcall, hrest⟩ := h k hgk a hmay
      refine ⟨hcall, ih a _ ?_ hrest⟩
      exact (hfg.trans (rely.becomes hgk)).trans (give.becomes hcall)

theorem Among.attempt {goal : Except Failure (Except Failure α) → List Answered → Floor → Prop}
    {work : Action α} (h : work.Among rely give (fun r mine g => goal (.ok r) mine g) mine f) :
    work.attempt.Among rely give goal mine f := by
  induction work generalizing mine f with
  | done a => exact h
  | fail e => exact h
  | call c rest ih =>
      intro g hfg a hmay
      obtain ⟨hcall, hrest⟩ := h g hfg a hmay
      exact ⟨hcall, ih a hrest⟩

theorem Among.attemptError
    {goal : Except Failure (Except Error α) → List Answered → Floor → Prop}
    {work : Action α} (h : work.Among rely give (fun r mine g => match r with
      | .ok a => goal (.ok (.ok a)) mine g
      | .error (.error e) => goal (.ok (.error e)) mine g
      | .error o => goal (.error o) mine g) mine f) :
    work.attemptError.Among rely give goal mine f := by
  induction work generalizing mine f with
  | done a => exact h
  | fail e => cases e <;> exact h
  | call c rest ih =>
      intro g hfg a hmay
      obtain ⟨hcall, hrest⟩ := h g hfg a hmay
      exact ⟨hcall, ih a hrest⟩

theorem among_aside {c : Call} (hc : c.aside = true) {rest : c.Answer → Action α}
    (h : ∀ a g, rely.holds f g → (rest a).Among rely give goal (mine ++ [⟨c, a⟩]) g) :
    (call c rest).Among rely give goal mine f := by
  intro g hfg a _
  have hstore : (g.after c a).store = g.store := g.storeAfter_of_aside hc a
  have hindex : (g.after c a).index = g.index := g.indexAfter_of_aside hc a
  exact ⟨give.of_same hstore hindex, h a _ (rely.trans hfg (rely.of_same hstore hindex))⟩

/-- A call on the store, its failure included. -/
theorem among_store {c : StoreCall} {goal : Except Failure c.Answer → List Answered → Floor → Prop}
    (hok : ∀ g, rely.holds f g → give.holds g (g.after (.store c) (.ok (g.store.perform c).1)) ∧
      goal (.ok (g.store.perform c).1) (mine ++ [⟨.store c, .ok (g.store.perform c).1⟩])
        (g.after (.store c) (.ok (g.store.perform c).1)))
    (hfail : ∀ g e, rely.holds f g →
      goal (.error (.error e)) (mine ++ [⟨.store c, .error e⟩]) (g.after (.store c) (.error e))) :
    (store c).Among rely give goal mine f := by
  intro g hfg a hmay
  cases a with
  | error e => exact ⟨give.of_same rfl rfl, hfail g e hfg⟩
  | ok a =>
      cases (show a = (g.store.perform c).1 from hmay)
      exact hok g hfg

/-- A call on the index, its failure included. -/
theorem among_index {c : IndexCall} {goal : Except Failure c.Answer → List Answered → Floor → Prop}
    (hok : ∀ g, rely.holds f g → give.holds g (g.after (.index c) (.ok (g.index.perform c).1)) ∧
      goal (.ok (g.index.perform c).1) (mine ++ [⟨.index c, .ok (g.index.perform c).1⟩])
        (g.after (.index c) (.ok (g.index.perform c).1)))
    (hfail : ∀ g e, rely.holds f g →
      goal (.error (.error e)) (mine ++ [⟨.index c, .error e⟩]) (g.after (.index c) (.error e))) :
    (index c).Among rely give goal mine f := by
  intro g hfg a hmay
  cases a with
  | error e => exact ⟨give.of_same rfl rfl, hfail g e hfg⟩
  | ok a =>
      cases (show a = (g.index.perform c).1 from hmay)
      exact hok g hfg

/-- Work that waits among others is as it was, if they keep what it is to end in. -/
theorem Among.later {work : Action α} (h : work.Among rely give goal mine f)
    (hstable : ∀ r, goal r mine f → goal r mine g) (hfg : rely.holds f g) :
    work.Among rely give goal mine g := by
  cases work with
  | done a => exact hstable _ h
  | fail e => exact hstable _ h
  | call c rest => exact fun k hgk a hmay => h k (rely.trans hfg hgk) a hmay

/-- **Work that is alone keeps what it keeps among others.** -/
theorem Among.ensures {work : Action α} (h : work.Among rely give goal mine f) :
    work.Ensures (give.holds f) (fun r g => ∃ mine, goal r mine g) f := by
  suffices ∀ g, give.holds f g → work.Among rely give goal mine g →
      work.Ensures (give.holds f) (fun r g => ∃ mine, goal r mine g) g from
    this f (give.of_same rfl rfl) h
  clear h
  induction work generalizing mine with
  | done a => exact fun g _ h => ⟨mine, h⟩
  | fail e => exact fun g _ h => ⟨mine, h⟩
  | call c rest ih =>
      intro g hfg h a hmay
      obtain ⟨hcall, hrest⟩ := h g (rely.of_same rfl rfl) a hmay
      exact ⟨give.trans hfg hcall, ih a _ (give.trans hfg hcall) hrest⟩

theorem Among.of_leads {work rest : Action α} (hlead : f.Leads work rest g)
    (h : work.Among rely give goal mine f) : give.holds f g :=
  (h.ensures.of_leads hlead (give.of_same rfl rfl)).1

/-! ### Work whose end does not matter -/

/-- Done among others, the work changes the floor by `give` only. -/
def Gives (rely give : Change) (work : Action α) (f : Floor) : Prop :=
  ∀ mine, work.Among rely give (fun _ _ _ => True) mine f

theorem Gives.bind {work : Action α} {next : α → Action β} (h : work.Gives rely give f)
    (hnext : ∀ a g, f.Becomes g → (next a).Gives rely give g) :
    (work >>= next).Gives rely give f :=
  fun mine => (h mine).bind (fun a mine g hfg _ => hnext a g hfg mine) fun _ _ _ _ _ => trivial

theorem Gives.attempt {work : Action α} (h : work.Gives rely give f) :
    work.attempt.Gives rely give f :=
  fun mine => (h mine).attempt

theorem Gives.attemptError {work : Action α} (h : work.Gives rely give f) :
    work.attemptError.Gives rely give f := by
  refine fun mine => ((h mine).mono id id fun r _ _ _ _ => ?_).attemptError
  cases r with
  | ok a => trivial
  | error e => cases e <;> trivial

theorem gives_done (a : α) : (done a).Gives rely give f := fun _ => trivial

theorem gives_fail (e : Failure) : (fail e : Action α).Gives rely give f := fun _ => trivial

theorem gives_ofExcept (r : Except Error α) : (ofExcept r).Gives rely give f := by
  cases r <;> exact fun _ => trivial

theorem gives_total (o : Overflow) (a : Option α) : (total o a).Gives rely give f := by
  cases a <;> exact fun _ => trivial

theorem gives_aside {c : Call} (hc : c.aside = true) {rest : c.Answer → Action α}
    (h : ∀ a g, f.Becomes g → (rest a).Gives rely give g) : (call c rest).Gives rely give f :=
  fun _ => among_aside hc fun a g hfg => h a g (rely.becomes hfg) _

theorem gives_store {c : StoreCall}
    (h : ∀ g, rely.holds f g → give.holds g (g.after (.store c) (.ok (g.store.perform c).1))) :
    (store c).Gives rely give f :=
  fun _ => among_store (fun g hfg => ⟨h g hfg, trivial⟩) fun _ _ _ => trivial

theorem gives_index {c : IndexCall}
    (h : ∀ g, rely.holds f g → give.holds g (g.after (.index c) (.ok (g.index.perform c).1))) :
    (index c).Gives rely give f :=
  fun _ => among_index (fun g hfg => ⟨h g hfg, trivial⟩) fun _ _ _ => trivial

/-- What quiet work ends with, it ends with whatever others do. -/
theorem Among.of_quiet {quiet : α → Prop} {work : Action α}
    (h : work.Among rely give goal mine f) (hquiet : work.Quiet quiet) :
    work.Among rely give (fun r mine g => goal r mine g ∧ ∀ a, r = .ok a → quiet a) mine f := by
  induction work generalizing mine f with
  | done a => exact ⟨h, fun b hb => by cases hb; exact hquiet⟩
  | fail e => exact ⟨h, fun b hb => by cases hb⟩
  | call c rest ih =>
      intro g hfg a hmay
      obtain ⟨hcall, hrest⟩ := h g hfg a hmay
      exact ⟨hcall, ih a hrest (hquiet.2 a)⟩

end Action

end Bourse
