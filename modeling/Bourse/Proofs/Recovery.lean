/-
A recovery from whatever the index holds.

Nothing is asked of the store but that an amount less what was executed has room, and of
the index only that it lists no order twice in a book; what it lists, where and with which
score is anybody's guess.  Which orders are entitled to a place is said by the orders
themselves (`Order.Entitled`), and a recovery that no call fails leaves just these.

The proof follows one recovery with the index that it began with in view.  `Between` says
of one book how far it may have come: nothing is there that was not there or is new, and
what is entitled has kept its key.  Each call keeps that, so it is so wherever a recovery
breaks off, and it is transitive; so another recovery that starts from there still ends
where the first one would have ended (`Between.mended`).
-/
import Bourse.Proofs.Lasting
import Bourse.Proofs.Mending
import Mathlib.Data.Set.Card
import Mathlib.Logic.Relation

namespace Bourse

/-! ### Who is entitled to a place -/

/-- The order is live, has something left to trade, and agrees with itself. -/
structure Order.Entitled (o : Order) : Prop where
  live : o.status.terminal = false
  remains : 0 < o.remainingAmount.units
  left : ∃ left, o.amount.sub o.executedAmount = some left ∧
    left.units = o.remainingAmount.units
  status : o.derivedStatus = o.status

/-- A place in the index: the side and the ticker of a book, and an order. -/
abbrev Place := Side × String × OrderId

/-- The places that are taken. -/
def WaitingIndex.places (i : WaitingIndex) : Set Place := {p | p.2.2 ∈ i.waiting p.1 p.2.1}

/-- The places that the orders on record are entitled to. -/
def Store.entitled (s : Store) : Set Place :=
  {p | ∃ o ∈ s.orders, o.Entitled ∧ (o.side, o.ticker, o.id) = p}

namespace Reconciliation

open Decimal

theorem entitled_iff {o : Order} (hroom : ∃ left, o.amount.sub o.executedAmount = some left) :
    o.consistent? = some true ∧ o.matchable = true ↔ o.Entitled := by
  obtain ⟨left, hleft⟩ := hroom
  rw [Order.matchable_iff]
  have hneg (hpositive : 0 < o.remainingAmount.units) : o.remainingAmount.negative = false := by
    have hmantissa := of_decide_eq_true (positive_iff.mpr hpositive)
    simpa [negative] using Int.le_of_lt hmantissa
  have hconsistent (hpositive : 0 < o.remainingAmount.units) : o.consistent? = some true ↔
      left.units = o.remainingAmount.units ∧ o.derivedStatus = o.status := by
    simp [Order.consistent?, hneg hpositive, hleft, Decimal.same]
  constructor
  · rintro ⟨hagrees, hlive, hpositive⟩
    obtain ⟨hunits, hstatus⟩ := (hconsistent hpositive).mp hagrees
    exact ⟨hlive, hpositive, ⟨left, hleft, hunits⟩, hstatus⟩
  · intro h
    obtain ⟨left', hleft', hunits⟩ := h.left
    rw [hleft, Option.some.injEq] at hleft'
    exact ⟨(hconsistent h.remains).mpr ⟨hleft' ▸ hunits, h.status⟩, h.live, h.remains⟩

/-- **What a recovery goes by are the orders that are entitled to a place.** -/
theorem survey_entitled {s : Store}
    (hroom : ∀ o ∈ s.orders, ∃ left, o.amount.sub o.executedAmount = some left) :
    ∃ belonging n, survey s.live = some (belonging, n) ∧ (belonging.map (·.id)).Nodup ∧
      ∀ o, o ∈ belonging ↔ o ∈ s.orders ∧ o.Entitled := by
  have hlive (o : Order) : o ∈ s.live ↔ o ∈ s.orders ∧ o.status.terminal = false := by
    simp [Store.live]
  have hdefined : ∀ o ∈ s.live, ∃ b, o.consistent? = some b := by
    intro o ho
    obtain ⟨left, hleft⟩ := hroom o ((hlive o).mp ho).1
    unfold Order.consistent?
    rw [hleft]
    split
    · exact ⟨false, rfl⟩
    · exact ⟨_, rfl⟩
  obtain ⟨n, hsurvey⟩ := survey_eq hdefined
  refine ⟨_, n, hsurvey, ?_, fun o => ?_⟩
  · refine ((List.filter_sublist.trans List.filter_sublist).map _).nodup ?_
    exact s.sorted.imp Int.ne_of_lt
  rw [List.mem_filter, Bool.and_eq_true, beq_iff_eq, hlive, and_assoc]
  refine and_congr_right fun ho => ?_
  rw [entitled_iff (hroom o ho)]
  exact ⟨And.right, fun h => ⟨h.live, h⟩⟩

/-! ### How far a book may have come -/

/-- A key that a recovery adds to the book: that of an order that belongs there and is missing. -/
def New (belonging : List Order) (i : WaitingIndex) (side : Side) (ticker : String)
    (k : IndexKey) : Prop :=
  ∃ o ∈ belonging, o.side = side ∧ o.ticker = ticker ∧ o.id ∉ i.waiting side ticker ∧
    k = .ofPrice side o.price o.id

/-- How the book of `j` comes from that of `i` while it is being mended. -/
structure Between (belonging : List Order) (side : Side) (ticker : String)
    (i j : WaitingIndex) : Prop where
  sound : ∀ k ∈ j.keys side ticker, k ∈ i.keys side ticker ∨ New belonging i side ticker k
  kept : ∀ k ∈ i.keys side ticker, Belongs belonging side ticker k.order → k ∈ j.keys side ticker

/-- The book of `j` is that of `i`, mended. -/
def Mended (belonging : List Order) (side : Side) (ticker : String) (i j : WaitingIndex) : Prop :=
  ∀ k, k ∈ j.keys side ticker ↔
    k ∈ i.keys side ticker ∧ Belongs belonging side ticker k.order ∨ New belonging i side ticker k

variable {belonging : List Order} {side side' : Side} {ticker ticker' : String}
  {i j l : WaitingIndex} {k : IndexKey} {id : OrderId}

theorem New.belongs (h : New belonging i side ticker k) :
    Belongs belonging side ticker k.order := by
  obtain ⟨o, ho, hside, hticker, -, rfl⟩ := h
  exact ⟨o, ho, hside, hticker, rfl⟩

namespace Between

theorem refl (belonging : List Order) (side : Side) (ticker : String) (i : WaitingIndex) :
    Between belonging side ticker i i := ⟨fun _ => Or.inl, fun _ hk _ => hk⟩

/-- What belongs and was listed is listed all the while. -/
theorem waiting (h : Between belonging side ticker i j) (hlisted : id ∈ i.waiting side ticker)
    (hbelongs : Belongs belonging side ticker id) : id ∈ j.waiting side ticker := by
  obtain ⟨k, hk, rfl⟩ := WaitingIndex.mem_waiting.mp hlisted
  exact WaitingIndex.mem_waiting.mpr ⟨k, h.kept k hk hbelongs, rfl⟩

/-- So what is missing later was missing before. -/
theorem new (h : Between belonging side ticker i j) (hnew : New belonging j side ticker k) :
    New belonging i side ticker k := by
  obtain ⟨o, ho, hside, hticker, hmissing, rfl⟩ := hnew
  exact ⟨o, ho, hside, hticker,
    fun hlisted => hmissing (h.waiting hlisted ⟨o, ho, hside, hticker, rfl⟩), rfl⟩

theorem trans (h : Between belonging side ticker i j) (h' : Between belonging side ticker j l) :
    Between belonging side ticker i l := by
  refine ⟨fun k hk => ?_, fun k hk hbelongs => h'.kept k (h.kept k hk hbelongs) hbelongs⟩
  rcases h'.sound k hk with hk | hnew
  · exact h.sound k hk
  · exact Or.inr (h.new hnew)

/-- **A book that was left half mended is mended as it would have been at once.** -/
theorem mended (h : Between belonging side ticker i j) (hnodup : (belonging.map (·.id)).Nodup)
    (h' : Mended belonging side ticker j l) : Mended belonging side ticker i l := by
  intro k
  rw [h' k]
  constructor
  · rintro (⟨hk, hbelongs⟩ | hnew)
    · exact (h.sound k hk).imp_left fun hk => ⟨hk, hbelongs⟩
    · exact Or.inr (h.new hnew)
  · rintro (⟨hk, hbelongs⟩ | hnew)
    · exact Or.inl ⟨h.kept k hk hbelongs, hbelongs⟩
    · have hbelongs := hnew.belongs
      obtain ⟨o, ho, hside, hticker, hmissing, rfl⟩ := hnew
      by_cases hlisted : o.id ∈ j.waiting side ticker
      · -- It has been put in already, and with the same key, for it is the same order.
        obtain ⟨k', hk', hid⟩ := WaitingIndex.mem_waiting.mp hlisted
        rcases h.sound k' hk' with hold | ⟨p, hp, -, -, -, rfl⟩
        · exact absurd (WaitingIndex.mem_waiting.mpr ⟨k', hold, hid⟩) hmissing
        · rw [List.inj_on_of_nodup_map hnodup hp ho hid] at hk'
          exact Or.inl ⟨hk', hbelongs⟩
      · exact Or.inr ⟨o, ho, hside, hticker, hlisted, rfl⟩

end Between

/-- **A mended book lists what belongs in it.** -/
theorem Mended.mem_waiting (h : Mended belonging side ticker i j) :
    id ∈ j.waiting side ticker ↔ Belongs belonging side ticker id := by
  rw [WaitingIndex.mem_waiting]
  constructor
  · rintro ⟨k, hk, rfl⟩
    rcases (h k).mp hk with ⟨-, hbelongs⟩ | hnew
    · exact hbelongs
    · exact hnew.belongs
  · intro hbelongs
    by_cases hlisted : id ∈ i.waiting side ticker
    · obtain ⟨k, hk, rfl⟩ := WaitingIndex.mem_waiting.mp hlisted
      exact ⟨k, (h k).mpr (Or.inl ⟨hk, hbelongs⟩), rfl⟩
    · obtain ⟨o, ho, hside, hticker, rfl⟩ := hbelongs
      exact ⟨_, (h _).mpr (Or.inr ⟨o, ho, hside, hticker, hlisted, rfl⟩), rfl⟩

/-- What a recovery leaves as it was, of a floor and of the books, wherever it has come to. -/
structure Partway (s : Store) (belonging : List Order) (i : WaitingIndex) (f : Floor) : Prop where
  store : f.store = s
  tidy : f.index.Tidy
  between : ∀ side ticker, Between belonging side ticker i f.index

/-- The books have the same keys, but for one of them. -/
def SameBut (side : Side) (ticker : String) (i j : WaitingIndex) : Prop :=
  ∀ side' ticker', (side', ticker') ≠ (side, ticker) →
    ∀ k, k ∈ j.keys side' ticker' ↔ k ∈ i.keys side' ticker'

theorem SameBut.trans (h : SameBut side ticker i j) (h' : SameBut side ticker j l) :
    SameBut side ticker i l :=
  fun side' ticker' hne k => (h' side' ticker' hne k).trans (h side' ticker' hne k)

namespace Partway

variable {s : Store} {f : Floor}

theorem start (s : Store) (belonging : List Order) {f : Floor} (hstore : f.store = s)
    (ht : f.index.Tidy) : Partway s belonging f.index f :=
  ⟨hstore, ht, fun side ticker => .refl belonging side ticker f.index⟩

/-- A call that is turned down, or that only looks, changes nothing. -/
theorem unchanged (h : Partway s belonging i f) {g : Floor} (hstore : g.store = f.store)
    (hindex : g.index = f.index) : Partway s belonging i g := by
  refine ⟨hstore.trans h.store, ?_, ?_⟩
  · rw [hindex]
    exact h.tidy
  · rw [hindex]
    exact h.between

theorem enqueue (h : Partway s belonging i f) {o : Order} (ho : o ∈ belonging)
    (hmissing : o.id ∉ i.waiting o.side o.ticker)
    (a : (Call.index (.enqueue o.side o.ticker o.id o.price)).Answer) :
    Partway s belonging i (f.after (.index (.enqueue o.side o.ticker o.id o.price)) a) := by
  cases a with
  | error e => exact h.unchanged rfl rfl
  | ok a =>
      refine ⟨h.store, h.tidy.perform _, fun side ticker => ⟨fun k hk => ?_, fun k hk hb => ?_⟩⟩
      · rcases h.tidy.mem_keys_enqueue.mp hk with ⟨hbook, rfl⟩ | ⟨hk, -⟩
        · obtain ⟨rfl, rfl⟩ := Prod.mk.inj hbook
          exact Or.inr ⟨o, ho, rfl, rfl, hmissing, rfl⟩
        · exact (h.between side ticker).sound k hk
      · refine h.tidy.mem_keys_enqueue.mpr (Or.inr ⟨(h.between side ticker).kept k hk hb, ?_⟩)
        rintro hbook hid
        obtain ⟨rfl, rfl⟩ := Prod.mk.inj hbook
        exact hmissing (WaitingIndex.mem_waiting.mpr ⟨k, hk, hid⟩)

theorem remove (h : Partway s belonging i f) (hstale : ¬ Belongs belonging side ticker id)
    (a : (Call.index (.remove side ticker id)).Answer) :
    Partway s belonging i (f.after (.index (.remove side ticker id)) a) := by
  cases a with
  | error e => exact h.unchanged rfl rfl
  | ok a =>
      refine ⟨h.store, h.tidy.perform _, fun side' ticker' => ⟨fun k hk => ?_, fun k hk hb => ?_⟩⟩
      · exact (h.between side' ticker').sound k (h.tidy.mem_keys_remove.mp hk).1
      · refine h.tidy.mem_keys_remove.mpr ⟨(h.between side' ticker').kept k hk hb, ?_⟩
        rintro hbook rfl
        obtain ⟨rfl, rfl⟩ := Prod.mk.inj hbook
        exact hstale hb

end Partway

/-! ### Counting places -/

/-- The places that orders belong to. -/
def nominees (belonging : List Order) : Set Place := {p | Belongs belonging p.1 p.2.1 p.2.2}

/-- The places of one book are as many as their orders. -/
theorem encard_book {D : Set Place} {ids : List OrderId} (hnodup : ids.Nodup)
    (hids : ∀ id, id ∈ ids ↔ (side, ticker, id) ∈ D) :
    (ids.length : ℕ∞) = {p ∈ D | p.1 = side ∧ p.2.1 = ticker}.encard := by
  have himage : {p ∈ D | p.1 = side ∧ p.2.1 = ticker} =
      (fun id : OrderId => ((side, ticker, id) : Place)) '' (ids.toFinset : Set OrderId) := by
    ext ⟨side', ticker', id⟩
    simp only [Set.mem_ofPred_eq, Set.mem_image, Finset.mem_coe, List.mem_toFinset, hids]
    constructor
    · rintro ⟨hin, rfl, rfl⟩
      exact ⟨id, hin, rfl⟩
    · rintro ⟨id', hin, hplace⟩
      cases hplace
      exact ⟨hin, rfl, rfl⟩
  have hinjective : Function.Injective fun id : OrderId => ((side, ticker, id) : Place) :=
    fun _ _ h => by simpa using h
  rw [himage, hinjective.encard_image, Set.encard_coe_eq_coe_finsetCard,
    List.toFinset_card_of_nodup hnodup]

/-- The places of some tickers are those of the first one and those of the others. -/
theorem encard_tickers {D : Set Place} {tickers : List String} (hnew : ticker ∉ tickers) :
    {p ∈ D | p.2.1 ∈ ticker :: tickers}.encard =
      {p ∈ D | p.1 = .buy ∧ p.2.1 = ticker}.encard +
        {p ∈ D | p.1 = .sell ∧ p.2.1 = ticker}.encard + {p ∈ D | p.2.1 ∈ tickers}.encard := by
  rw [← Set.encard_union_eq, ← Set.encard_union_eq]
  · congr 1
    ext ⟨side, ticker', id⟩
    cases side <;> simp [← and_or_left]
  · rw [Set.disjoint_left]
    rintro ⟨side, ticker', id⟩ (⟨-, -, rfl⟩ | ⟨-, -, rfl⟩) hlater
    · exact hnew hlater.2
    · exact hnew hlater.2
  · rw [Set.disjoint_left]
    rintro p ⟨-, hbuy, -⟩ ⟨-, hsell, -⟩
    rw [hbuy] at hsell
    cases hsell

/-! ### What a book lacks and what it has too many -/

/-- The orders that belong in the book and are not listed. -/
def missing (belonging : List Order) (side : Side) (ticker : String) (indexed : List OrderId) :
    List Order :=
  (belonging.filter fun o => o.side == side && o.ticker == ticker).filter
    fun o => !indexed.contains o.id

/-- What is listed and does not belong in the book. -/
def stale (belonging : List Order) (side : Side) (ticker : String) (indexed : List OrderId) :
    List OrderId :=
  indexed.filter fun id =>
    !(belonging.filter fun o => o.side == side && o.ticker == ticker).any (·.id == id)

theorem mendBook_eq (belonging : List Order) (side : Side) (ticker : String) :
    mendBook belonging side ticker = Action.index (.list side ticker) >>= fun indexed =>
      enqueueAll side ticker (missing belonging side ticker indexed) >>= fun _ =>
        removeAll side ticker (stale belonging side ticker indexed) >>= fun removed =>
          Action.done ((missing belonging side ticker indexed).length, removed) := rfl

theorem mem_missing {indexed : List OrderId} {o : Order} :
    o ∈ missing belonging side ticker indexed ↔
      o ∈ belonging ∧ o.side = side ∧ o.ticker = ticker ∧ o.id ∉ indexed := by
  simp only [missing, List.mem_filter, Bool.and_eq_true, beq_iff_eq, Bool.not_eq_true',
    List.contains_eq_mem, decide_eq_false_iff_not, and_assoc]

theorem mem_stale {indexed : List OrderId} :
    id ∈ stale belonging side ticker indexed ↔
      id ∈ indexed ∧ ¬ Belongs belonging side ticker id := by
  simp [stale, Belongs]

theorem count_missing {indexed : List OrderId} (hnodup : (belonging.map (·.id)).Nodup)
    (hlisted : ∀ id, id ∈ indexed ↔ id ∈ i.waiting side ticker) :
    ((missing belonging side ticker indexed).length : ℕ∞) =
      {p ∈ nominees belonging \ i.places | p.1 = side ∧ p.2.1 = ticker}.encard := by
  rw [← List.length_map (f := fun o : Order => o.id)]
  refine encard_book ?_ fun id => ?_
  · exact ((List.filter_sublist.trans List.filter_sublist).map _).nodup hnodup
  · rw [List.mem_map]
    simp only [mem_missing, hlisted]
    constructor
    · rintro ⟨o, ⟨ho, hside, hticker, hnew⟩, rfl⟩
      exact ⟨⟨o, ho, hside, hticker, rfl⟩, hnew⟩
    · rintro ⟨⟨o, ho, hside, hticker, rfl⟩, hnew⟩
      exact ⟨o, ⟨ho, hside, hticker, hnew⟩, rfl⟩

theorem count_stale {indexed : List OrderId} (hnodup : indexed.Nodup)
    (hlisted : ∀ id, id ∈ indexed ↔ id ∈ i.waiting side ticker) :
    ((stale belonging side ticker indexed).length : ℕ∞) =
      {p ∈ i.places \ nominees belonging | p.1 = side ∧ p.2.1 = ticker}.encard := by
  refine encard_book (List.filter_sublist.nodup hnodup) fun id => ?_
  rw [mem_stale, hlisted]
  rfl

/-! ### One book -/

/-- The entries that are put in: each has a key of its own price, and only they have changed. -/
theorem enqueueAll_ensures {s : Store} {os : List Order} {f : Floor}
    (hnodup : (belonging.map (·.id)).Nodup) (hf : Partway s belonging i f)
    (hos : ∀ o ∈ os, o ∈ belonging ∧ o.side = side ∧ o.ticker = ticker ∧
      o.id ∉ i.waiting side ticker) :
    (enqueueAll side ticker os).Ensures (Partway s belonging i) (fun r g => ∀ done, r = .ok done →
      SameBut side ticker f.index g.index ∧ ∀ k, k ∈ g.index.keys side ticker ↔
        (∃ o ∈ os, k = .ofPrice side o.price o.id) ∨
          k ∈ f.index.keys side ticker ∧ ∀ o ∈ os, k.order ≠ o.id) f := by
  induction os generalizing f with
  | nil => exact fun _ _ => ⟨fun _ _ _ _ => Iff.rfl, by simp⟩
  | cons o os ih =>
      obtain ⟨⟨ho, rfl, rfl, hmissing⟩, hrest⟩ := List.forall_mem_cons.mp hos
      intro a hmay
      have hafter := hf.enqueue ho hmissing a
      refine ⟨hafter, ?_⟩
      cases a with
      | error e => exact fun _ h => nomatch h
      | ok a =>
          refine (ih hafter hrest).mono (fun r g _ hgoal done hdone => ?_) hafter
          obtain ⟨hsame, hkeys⟩ := hgoal done hdone
          refine ⟨SameBut.trans (fun side' ticker' hne k => ?_) hsame, fun k => ?_⟩
          · refine hf.tidy.mem_keys_enqueue.trans ?_
            simp [hne]
          · have hput : k ∈ (f.after (.index (.enqueue o.side o.ticker o.id o.price))
                (.ok a)).index.keys o.side o.ticker ↔ k = .ofPrice o.side o.price o.id ∨
                  k ∈ f.index.keys o.side o.ticker ∧ k.order ≠ o.id := by
              refine hf.tidy.mem_keys_enqueue.trans ?_
              simp
            rw [hkeys, hput]
            simp only [List.mem_cons, exists_eq_or_imp, forall_eq_or_imp]
            constructor
            · rintro (hnew | ⟨rfl | hold, hothers⟩)
              · exact Or.inl (Or.inr hnew)
              · exact Or.inl (Or.inl rfl)
              · exact Or.inr ⟨hold.1, hold.2, hothers⟩
            · rintro ((rfl | hnew) | ⟨hold, hne, hothers⟩)
              · by_cases hagain : o ∈ os
                · exact Or.inl ⟨o, hagain, rfl⟩
                · refine Or.inr ⟨Or.inl rfl, fun p hp hid => hagain ?_⟩
                  rwa [List.inj_on_of_nodup_map hnodup ho (hrest p hp).1 hid]
              · exact Or.inl hnew
              · exact Or.inr ⟨Or.inr ⟨hold, hne⟩, hothers⟩

/-- The entries that are taken out: all of them were there, and only they are gone. -/
theorem removeAll_ensures {s : Store} {ids : List OrderId} {f : Floor}
    (hf : Partway s belonging i f) (hstale : ∀ id ∈ ids, ¬ Belongs belonging side ticker id)
    (hlisted : ∀ id ∈ ids, id ∈ f.index.waiting side ticker) (hnodup : ids.Nodup) :
    (removeAll side ticker ids).Ensures (Partway s belonging i) (fun r g => ∀ n, r = .ok n →
      n = ids.length ∧ SameBut side ticker f.index g.index ∧
        ∀ k, k ∈ g.index.keys side ticker ↔
          k ∈ f.index.keys side ticker ∧ k.order ∉ ids) f := by
  induction ids generalizing f with
  | nil =>
      intro n hn
      cases hn
      exact ⟨rfl, fun _ _ _ _ => Iff.rfl, by simp⟩
  | cons id ids ih =>
      obtain ⟨hid, hrest⟩ := List.forall_mem_cons.mp hstale
      obtain ⟨hin, hrest'⟩ := List.forall_mem_cons.mp hlisted
      obtain ⟨hnew, hnodup⟩ := List.nodup_cons.mp hnodup
      intro a hmay
      have hafter := hf.remove hid a
      refine ⟨hafter, ?_⟩
      cases a with
      | error e => exact fun _ h => nomatch h
      | ok removed =>
          have hremoved : removed = true := by
            rw [show removed = (f.index.remove side ticker id).1 from hmay]
            exact hf.tidy.fst_remove.mpr hin
          have hgone (side' : Side) (ticker' : String) (k : IndexKey) :
              k ∈ (f.after (.index (.remove side ticker id)) (.ok removed)).index.keys side' ticker'
                ↔ k ∈ f.index.keys side' ticker' ∧
                  ((side', ticker') = (side, ticker) → k.order ≠ id) := hf.tidy.mem_keys_remove
          have hstill : ∀ id' ∈ ids, id' ∈ (f.after (.index (.remove side ticker id))
              (.ok removed)).index.waiting side ticker := by
            intro id' hid'
            obtain ⟨k, hk, rfl⟩ := WaitingIndex.mem_waiting.mp (hrest' id' hid')
            refine WaitingIndex.mem_waiting.mpr ⟨k, (hgone ..).mpr ⟨hk, fun _ hsame => ?_⟩, rfl⟩
            exact hnew (hsame ▸ hid')
          refine (ih hafter hrest hstill hnodup).bind_ok hafter fun m g _ hgoal => ?_
          obtain ⟨rfl, hsame, hkeys⟩ := hgoal
          intro n hn
          rw [hremoved] at hn
          cases hn
          refine ⟨rfl, SameBut.trans (fun side' ticker' hne k => ?_) hsame, fun k => ?_⟩
          · rw [hgone]
            simp [hne]
          · rw [hkeys, hgone, List.mem_cons]
            tauto

/-- **A book that no call fails on is mended**, and the others are left alone. -/
theorem mendBook_ensures {s : Store} {f : Floor} (hnodup : (belonging.map (·.id)).Nodup)
    (hf : Partway s belonging i f)
    (hbook : ∀ k, k ∈ f.index.keys side ticker ↔ k ∈ i.keys side ticker) :
    (mendBook belonging side ticker).Ensures (Partway s belonging i) (fun r g => ∀ n, r = .ok n →
      Mended belonging side ticker i g.index ∧ SameBut side ticker f.index g.index ∧
        (n.1 : ℕ∞) = {p ∈ nominees belonging \ i.places | p.1 = side ∧ p.2.1 = ticker}.encard ∧
          (n.2 : ℕ∞) = {p ∈ i.places \ nominees belonging | p.1 = side ∧ p.2.1 = ticker}.encard)
      f := by
  have hlisted (id : OrderId) : id ∈ f.index.waiting side ticker ↔ id ∈ i.waiting side ticker := by
    rw [WaitingIndex.mem_waiting, WaitingIndex.mem_waiting]
    simp only [hbook]
  have hindexed := hf.tidy.nodup_waiting side ticker
  have hmissing {o : Order} (ho : o ∈ missing belonging side ticker (f.index.waiting side ticker)) :
      o ∈ belonging ∧ o.side = side ∧ o.ticker = ticker ∧ o.id ∉ i.waiting side ticker := by
    simpa only [mem_missing, hlisted] using ho
  rw [mendBook_eq]
  have hafter := hf.unchanged (g := f.after (.index (.list side ticker))
    (.ok (f.index.waiting side ticker))) rfl rfl
  refine Action.ensures_index ⟨hafter, ?_⟩ fun e => ⟨hf.unchanged rfl rfl, fun _ h => nomatch h⟩
  refine (enqueueAll_ensures hnodup hafter fun o ho => hmissing ho).bind_ok hafter
    fun _ h hh ⟨hsame, hkeys⟩ => ?_
  -- What was listed still is, since what is put in was not.
  have hkeys (k : IndexKey) : k ∈ h.index.keys side ticker ↔
      New belonging i side ticker k ∨ k ∈ i.keys side ticker := by
    rw [hkeys]
    refine or_congr ?_ ⟨fun hk => (hbook k).mp hk.1, fun hk => ⟨(hbook k).mpr hk, ?_⟩⟩
    · simp only [New, mem_missing, hlisted, and_assoc]
    · intro o ho hid
      exact (hmissing ho).2.2.2 (WaitingIndex.mem_waiting.mpr ⟨k, hk, hid⟩)
  have hthere : ∀ id ∈ stale belonging side ticker (f.index.waiting side ticker),
      id ∈ h.index.waiting side ticker := by
    intro id hid
    obtain ⟨k, hk, rfl⟩ := WaitingIndex.mem_waiting.mp ((hlisted id).mp (mem_stale.mp hid).1)
    exact WaitingIndex.mem_waiting.mpr ⟨k, (hkeys k).mpr (Or.inr hk), rfl⟩
  refine (removeAll_ensures hh (fun id hid => (mem_stale.mp hid).2) hthere
    (List.filter_sublist.nodup hindexed)).bind_ok hh fun n g _ hgone => ?_
  obtain ⟨rfl, hsame', hkeys'⟩ := hgone
  intro n hn
  cases hn
  refine ⟨fun k => ?_, hsame.trans hsame', count_missing hnodup hlisted,
    count_stale hindexed hlisted⟩
  have hbook' : k ∈ i.keys side ticker → k.order ∈ f.index.waiting side ticker := fun hk =>
    WaitingIndex.mem_waiting.mpr ⟨k, (hbook k).mpr hk, rfl⟩
  rw [hkeys', hkeys, mem_stale]
  constructor
  · rintro ⟨hnew | hk, hkept⟩
    · exact Or.inr hnew
    · exact Or.inl ⟨hk, Classical.byContradiction fun hforeign => hkept ⟨hbook' hk, hforeign⟩⟩
  · rintro (⟨hk, hbelongs⟩ | hnew)
    · exact ⟨Or.inr hk, fun hforeign => hforeign.2 hbelongs⟩
    · exact ⟨Or.inl hnew, fun hforeign => hforeign.2 hnew.belongs⟩

/-! ### All books -/

/-- **The books of all tickers are mended**, and what was amiss in them is counted. -/
theorem mendTickers_ensures {s : Store} {tickers : List String} {f : Floor}
    (hnodup : (belonging.map (·.id)).Nodup) (htickers : tickers.Nodup)
    (hf : Partway s belonging i f)
    (hbooks : ∀ ticker ∈ tickers, ∀ side k,
      k ∈ f.index.keys side ticker ↔ k ∈ i.keys side ticker) :
    (mendTickers belonging tickers).Ensures (Partway s belonging i) (fun r g => ∀ n, r = .ok n →
      (∀ ticker ∈ tickers, ∀ side, Mended belonging side ticker i g.index) ∧
        (∀ ticker, ticker ∉ tickers → ∀ side k,
          k ∈ g.index.keys side ticker ↔ k ∈ f.index.keys side ticker) ∧
        (n.1 : ℕ∞) = {p ∈ nominees belonging \ i.places | p.2.1 ∈ tickers}.encard ∧
          (n.2 : ℕ∞) = {p ∈ i.places \ nominees belonging | p.2.1 ∈ tickers}.encard) f := by
  induction tickers generalizing f with
  | nil =>
      intro n hn
      cases hn
      exact ⟨List.forall_mem_nil _, fun _ _ _ _ => Iff.rfl, by simp, by simp⟩
  | cons ticker tickers ih =>
      obtain ⟨hnew, htickers⟩ := List.nodup_cons.mp htickers
      obtain ⟨hhere, hlater⟩ := List.forall_mem_cons.mp hbooks
      refine (mendBook_ensures hnodup hf (hhere .buy)).bind_ok hf
        fun buys g hg ⟨hbuys, hsame, hbought⟩ => ?_
      refine (mendBook_ensures hnodup hg fun k => ?_).bind_ok hg
        fun sells h hh ⟨hsells, hsame', hsold⟩ => ?_
      · exact (hsame .sell ticker (by simp) k).trans (hhere .sell k)
      have hother {ticker' : String} (hne : ticker' ≠ ticker) (side : Side) (k : IndexKey) :
          k ∈ h.index.keys side ticker' ↔ k ∈ f.index.keys side ticker' :=
        (hsame' side ticker' (by simp [hne]) k).trans (hsame side ticker' (by simp [hne]) k)
      refine (ih htickers hh fun ticker' hin side k => ?_).bind_ok hh
        fun rest l _ ⟨hmended, hsame'', hcounted⟩ => ?_
      · exact (hother (fun heq => hnew (heq ▸ hin)) side k).trans (hlater ticker' hin side k)
      intro n hn
      cases hn
      refine ⟨List.forall_mem_cons.mpr ⟨fun side k => ?_, hmended⟩,
        fun ticker' hnot side k => ?_, ?_, ?_⟩
      · refine (hsame'' ticker hnew side k).trans ?_
        cases side with
        | buy => exact (hsame' .buy ticker (by simp) k).trans (hbuys k)
        | sell => exact hsells k
      · rw [List.mem_cons, not_or] at hnot
        exact (hsame'' ticker' hnot.2 side k).trans (hother hnot.1 side k)
      · rw [encard_tickers hnew, ← hbought.1, ← hsold.1, ← hcounted.1]
        push_cast
        rfl
      · rw [encard_tickers hnew, ← hbought.2, ← hsold.2, ← hcounted.2]
        push_cast
        rfl

variable {f g h : Floor} {n : Nat}

/-- **A recovery that is done has mended every book**, and has counted what was amiss. -/
theorem reconcile_ensures (hnodup : (belonging.map (·.id)).Nodup)
    (hsurvey : survey f.store.live = some (belonging, n)) (ht : f.index.Tidy) :
    reconcile.Ensures (Partway f.store belonging f.index) (fun r g => ∀ done, r = .ok done →
      (∀ side ticker, Mended belonging side ticker f.index g.index) ∧
        (done.enqueued : ℕ∞) = (nominees belonging \ f.index.places).encard ∧
          (done.staleRemoved : ℕ∞) = (f.index.places \ nominees belonging).encard) f := by
  have hf : Partway f.store belonging f.index f := .start f.store belonging rfl ht
  rw [reconcile_eq]
  refine Action.ensures_store ⟨hf.unchanged rfl rfl, ?_⟩
    fun e => ⟨hf.unchanged rfl rfl, fun _ h => nomatch h⟩
  show (mend f.store.live).Ensures _ _ _
  unfold mend
  rw [hsurvey]
  refine Action.ensures_index ⟨hf.unchanged rfl rfl, ?_⟩
    fun e => ⟨hf.unchanged rfl rfl, fun _ h => nomatch h⟩
  let tickers := belonging.foldl (fun ts o => WaitingIndex.insertTicker o.ticker ts)
    (f.index.tickers.foldl (fun ts t => WaitingIndex.insertTicker t ts) [])
  have hmem (t : String) : t ∈ tickers ↔ t ∈ f.index.tickers ∨ ∃ o ∈ belonging, o.ticker = t := by
    simp only [tickers, WaitingIndex.mem_foldl_insertTicker (fun o : Order => o.ticker),
      WaitingIndex.mem_foldl_insertTicker (fun t : String => t)]
    simp
  have hsorted : tickers.Pairwise (· < ·) :=
    WaitingIndex.pairwise_foldl_insertTicker (fun o : Order => o.ticker) belonging
      (WaitingIndex.pairwise_foldl_insertTicker (fun t : String => t) f.index.tickers .nil)
  -- Every place that is taken, or that an order belongs to, is one of a ticker that is mended.
  have hlisted {side : Side} {ticker : String} {id : OrderId}
      (h : id ∈ f.index.waiting side ticker) : ticker ∈ tickers :=
    (hmem ticker).mpr (Or.inl (WaitingIndex.mem_tickers_of_waiting h))
  have hbelongs {side : Side} {ticker : String} {id : OrderId}
      (h : Belongs belonging side ticker id) : ticker ∈ tickers := by
    obtain ⟨o, ho, -, hticker, -⟩ := h
    exact (hmem ticker).mpr (Or.inr ⟨o, ho, hticker⟩)
  have hafter := hf.unchanged (g := (f.after (.store .live) (.ok f.store.live)).after
    (.index .tickers) (.ok f.index.tickers)) rfl rfl
  show (mendTickers belonging tickers >>= _).Ensures _ _ _
  refine (mendTickers_ensures hnodup (hsorted.imp ne_of_lt) hafter fun _ _ _ _ => Iff.rfl).bind_ok
    hafter fun done g _ ⟨hmended, hsame, henqueued, hremoved⟩ => ?_
  intro stats hstats
  cases hstats
  have hall {D : Set Place} (hD : ∀ p ∈ D, p.2.1 ∈ tickers) : {p ∈ D | p.2.1 ∈ tickers} = D :=
    Set.sep_eq_self_iff_mem_true.mpr hD
  refine ⟨fun side ticker => ?_, ?_, ?_⟩
  · by_cases hin : ticker ∈ tickers
    · exact hmended ticker hin side
    · intro k
      rw [hsame ticker hin side k]
      refine ⟨fun hk => absurd (hlisted (WaitingIndex.mem_waiting.mpr ⟨k, hk, rfl⟩)) hin, ?_⟩
      rintro (⟨hk, -⟩ | hnew)
      · exact hk
      · exact absurd (hbelongs hnew.belongs) hin
  · exact henqueued.trans (congrArg Set.encard (hall fun p hp => hbelongs hp.1))
  · exact hremoved.trans (congrArg Set.encard (hall fun p hp => hlisted hp.1))

/-! ### A recovery that has nothing to do -/

/-- Where just what belongs is listed, nothing is put in and nothing taken out. -/
theorem mendTickers_idle (hlisted : ∀ side ticker id,
    id ∈ g.index.waiting side ticker ↔ Belongs belonging side ticker id) (tickers : List String)
    (hstore : f.store = g.store) (hindex : f.index = g.index) :
    (mendTickers belonging tickers).Ensures (fun f => f.store = g.store ∧ f.index = g.index)
      (fun _ _ => True) f := by
  induction tickers generalizing f with
  | nil => trivial
  | cons ticker tickers ih =>
      have hbook (side : Side) (ticker : String) {f : Floor} (hstore : f.store = g.store)
          (hindex : f.index = g.index) : (mendBook belonging side ticker).Ensures
            (fun f => f.store = g.store ∧ f.index = g.index) (fun _ _ => True) f := by
        rw [mendBook_eq]
        refine Action.ensures_index ⟨⟨hstore, hindex⟩, ?_⟩ fun e => ⟨⟨hstore, hindex⟩, trivial⟩
        have hmissing : missing belonging side ticker (f.index.waiting side ticker) = [] := by
          refine List.eq_nil_iff_forall_not_mem.mpr fun o ho => ?_
          obtain ⟨hin, hside, hticker, hnew⟩ := mem_missing.mp ho
          rw [hindex, hlisted] at hnew
          exact hnew ⟨o, hin, hside, hticker, rfl⟩
        have hstale : stale belonging side ticker (f.index.waiting side ticker) = [] := by
          refine List.eq_nil_iff_forall_not_mem.mpr fun id hid => ?_
          obtain ⟨hin, hforeign⟩ := mem_stale.mp hid
          rw [hindex, hlisted] at hin
          exact hforeign hin
        show (enqueueAll side ticker (missing belonging side ticker
          (f.index.waiting side ticker)) >>= _).Ensures _ _ _
        rw [hmissing]
        show (removeAll side ticker (stale belonging side ticker
          (f.index.waiting side ticker)) >>= _).Ensures _ _ _
        rw [hstale]
        trivial
      refine (hbook .buy ticker hstore hindex).bind ⟨hstore, hindex⟩ (fun _ f hf _ => ?_)
        fun _ _ _ _ => trivial
      refine (hbook .sell ticker hf.1 hf.2).bind hf (fun _ f hf _ => ?_) fun _ _ _ _ => trivial
      exact (ih hf.1 hf.2).bind hf (fun _ _ _ _ => trivial) fun _ _ _ _ => trivial

theorem reconcile_idle (hsurvey : survey f.store.live = some (belonging, n))
    (hlisted : ∀ side ticker id,
      id ∈ f.index.waiting side ticker ↔ Belongs belonging side ticker id) :
    reconcile.Ensures (fun g => g.store = f.store ∧ g.index = f.index) (fun _ _ => True) f := by
  rw [reconcile_eq]
  refine Action.ensures_store ⟨⟨rfl, rfl⟩, ?_⟩ fun e => ⟨⟨rfl, rfl⟩, trivial⟩
  show (mend f.store.live).Ensures _ _ _
  unfold mend
  rw [hsurvey]
  refine Action.ensures_index ⟨⟨rfl, rfl⟩, ?_⟩ fun e => ⟨⟨rfl, rfl⟩, trivial⟩
  have hafter : ((f.after (.store .live) (.ok f.store.live)).after (.index .tickers)
      (.ok f.index.tickers)).store = f.store := rfl
  exact (mendTickers_idle hlisted _ hafter rfl).bind ⟨rfl, rfl⟩ (fun _ _ _ _ => trivial)
    fun _ _ _ _ => trivial

/-- **A recovery is done unless a call fails.** -/
theorem reconcile_done (hsurvey : survey f.store.live = some (belonging, n))
    {r : Except Failure Reconciliation} (hlead : f.Leads reconcile (.ended r) g)
    (hgiven : ∀ e ∈ f.since g, e.refused = false) : ∃ done, r = .ok done := by
  rw [reconcile_eq] at hlead
  obtain ⟨live, hmay, hlead⟩ := hlead.of_call
  rw [hlead.since_call] at hgiven
  obtain ⟨hlive, hgiven⟩ := List.forall_mem_cons.mp hgiven
  cases live with
  | error e => cases hlive
  | ok live =>
      cases (show live = f.store.live from hmay)
      have hcleared : Cleared belonging [] := fun _ _ _ ⟨_, h, _⟩ => nomatch h
      have hmended := (mend_traced hsurvey hcleared).of_ended hlead
      cases r with
      | ok done => exact ⟨done, rfl⟩
      | error e =>
          obtain ⟨e, he, hrefused⟩ := hmended
          rw [hgiven e he] at hrefused
          cases hrefused

end Reconciliation

/-! ### Recoveries that break off -/

namespace Floor

open Reconciliation

variable {f g h : Floor}

/-- A recovery has come from one floor to the other: it is done, or has failed, or breaks off. -/
def Recovering (f g : Floor) : Prop := ∃ rest, f.Leads reconcile rest g

theorem partway_of_recovering {belonging : List Order} {n : Nat} (ht : f.index.Tidy)
    (hnodup : (belonging.map (·.id)).Nodup)
    (hsurvey : survey f.store.live = some (belonging, n))
    (hbroken : Relation.ReflTransGen Recovering f h) :
    Partway f.store belonging f.index h := by
  induction hbroken with
  | refl => exact .start f.store belonging rfl ht
  | @tail k h _ hlast ih =>
      obtain ⟨rest, hlead⟩ := hlast
      have hk : Partway k.store belonging k.index k := .start k.store belonging rfl ih.tidy
      have hh := ((reconcile_ensures hnodup (by rwa [ih.store]) ih.tidy).of_leads hlead hk).1
      exact ⟨hh.store.trans ih.store, hh.tidy,
        fun side ticker => (ih.between side ticker).trans (hh.between side ticker)⟩

/--
**A recovery puts the index right, from whatever it holds.**  The store may hold any orders
whose amounts less what was executed have room, and the index whatever any calls may have
put there (`Tidy.performAll`).  If some recoveries broke off, wherever they did, and then
one is done without a failing call, the places taken are just those that orders are entitled
to: those that were taken before have kept their keys, and the others have the key of the
order's price.  What was put in and taken out is counted, the store is as it was, and a
further recovery finds nothing to do.
-/
theorem recovered (ht : f.index.Tidy)
    (hroom : ∀ o ∈ f.store.orders, ∃ left, o.amount.sub o.executedAmount = some left)
    (hbroken : Relation.ReflTransGen Recovering f h) {r : Except Failure Reconciliation}
    (hlead : h.Leads reconcile (.ended r) g) (hgiven : ∀ e ∈ h.since g, e.refused = false) :
    ∃ done, r = .ok done ∧ g.store = f.store ∧ g.index.places = f.store.entitled ∧
      (∀ side ticker k, k ∈ g.index.keys side ticker ↔
        k ∈ f.index.keys side ticker ∧ (side, ticker, k.order) ∈ f.store.entitled ∨
          ∃ o ∈ f.store.orders, o.Entitled ∧ o.side = side ∧ o.ticker = ticker ∧
            o.id ∉ f.index.waiting side ticker ∧ k = .ofPrice side o.price o.id) ∧
      (done.enqueued : ℕ∞) = (f.store.entitled \ h.index.places).encard ∧
      (done.staleRemoved : ℕ∞) = (h.index.places \ f.store.entitled).encard ∧
      ∀ r' l, g.Leads reconcile (.ended r') l → (∀ e ∈ g.since l, e.refused = false) →
        l.store = g.store ∧ l.index = g.index ∧
          ∃ again, r' = .ok again ∧ again.enqueued = 0 ∧ again.staleRemoved = 0 := by
  obtain ⟨belonging, n, hsurvey, hnodup, hbelonging⟩ := survey_entitled hroom
  have hnominees : nominees belonging = f.store.entitled := by
    ext ⟨side, ticker, id⟩
    simp [nominees, Belongs, Store.entitled, hbelonging, and_assoc]
  have hplace (side : Side) (ticker : String) (id : OrderId) :
      Belongs belonging side ticker id ↔ (side, ticker, id) ∈ f.store.entitled := by
    rw [← hnominees]
    rfl
  have hhalf := partway_of_recovering ht hnodup hsurvey hbroken
  -- Whatever floor a recovery starts from, it goes by the same orders, for they stay as they are.
  have hdone {k l : Floor} {r : Except Failure Reconciliation}
      (hk : Partway f.store belonging f.index k) (hlead : k.Leads reconcile (.ended r) l)
      (hgiven : ∀ e ∈ k.since l, e.refused = false) :
      ∃ done, r = .ok done ∧ l.store = f.store ∧ l.index.Tidy ∧
        (∀ side ticker, Mended belonging side ticker k.index l.index) ∧
        (done.enqueued : ℕ∞) = (f.store.entitled \ k.index.places).encard ∧
          (done.staleRemoved : ℕ∞) = (k.index.places \ f.store.entitled).encard := by
    have hsurvey : survey k.store.live = some (belonging, n) := by rwa [hk.store]
    obtain ⟨done, rfl⟩ := reconcile_done hsurvey hlead hgiven
    obtain ⟨hl, hgoal⟩ := (reconcile_ensures hnodup hsurvey hk.tidy).of_leads hlead
      (.start k.store belonging rfl hk.tidy)
    obtain ⟨hmended, hcounts⟩ := hgoal done rfl
    rw [hnominees] at hcounts
    exact ⟨done, rfl, hl.store.trans hk.store, hl.tidy, hmended, hcounts⟩
  obtain ⟨done, rfl, hstore, htidy, hmended, henqueued, hremoved⟩ := hdone hhalf hlead hgiven
  have hlisted (side : Side) (ticker : String) (id : OrderId) :
      id ∈ g.index.waiting side ticker ↔ Belongs belonging side ticker id :=
    (hmended side ticker).mem_waiting
  have hplaces : g.index.places = f.store.entitled := by
    ext ⟨side, ticker, id⟩
    exact (hlisted side ticker id).trans (hplace side ticker id)
  refine ⟨done, rfl, hstore, hplaces, fun side ticker k => ?_, henqueued, hremoved,
    fun r' l hlead' hgiven' => ?_⟩
  · rw [(hhalf.between side ticker).mended hnodup (hmended side ticker) k, hplace]
    simp only [New, hbelonging, and_assoc]
  · have hagain : Partway f.store belonging f.index g := by
      refine partway_of_recovering ht hnodup hsurvey (hbroken.tail ⟨_, hlead⟩)
    obtain ⟨again, rfl, -, -, -, henqueued, hremoved⟩ := hdone hagain hlead' hgiven'
    obtain ⟨⟨hstore', hindex⟩, -⟩ := (reconcile_idle (by rwa [hstore]) hlisted).of_leads hlead'
      ⟨rfl, rfl⟩
    rw [hplaces, Set.sdiff_self, Set.encard_empty] at henqueued hremoved
    exact ⟨hstore', hindex, again, rfl, by exact_mod_cast henqueued, by exact_mod_cast hremoved⟩

/-- An order to trade one of a ticker at 1. -/
def one (ticker : String) (side : Side) : OrderRequest :=
  ⟨ticker, side, .ofDigits 1 0, .ofDigits 1 0⟩

/-- A fill that leaves an order partly filled of which nothing was executed. -/
def spoiling (id : OrderId) (request : OrderRequest) : FillCommit where
  incoming := .ofRequest id request .epoch
  counter := { Order.ofRequest id request .epoch with status := .partlyFilled }
  incomingExpected := request.amount
  counterExpected := request.amount
  price := request.price
  amount := request.amount
  executedAt := .epoch

/-- Of five orders, one is cancelled and one does not agree with itself. -/
def fiveOrders : Store :=
  Store.empty.performAll [.insert (one "X" .buy) .epoch, .insert (one "X" .sell) .epoch,
    .insert (one "Y" .buy) .epoch, .insert (one "X" .buy) .epoch, .insert (one "X" .sell) .epoch,
    .cancel 4 .epoch, .commit (spoiling 5 (one "X" .sell))]

/--
An index that lists the first order at another price, the second one on the wrong side, the
third one for another ticker, the fourth and the fifth, and one that is nobody's.
-/
def garbage : WaitingIndex :=
  WaitingIndex.empty.performAll [.enqueue .buy "X" 1 (.ofDigits 7 0),
    .enqueue .buy "X" 2 (.ofDigits 1 0), .enqueue .sell "Z" 3 (.ofDigits 1 0),
    .enqueue .sell "X" 4 (.ofDigits 1 0), .enqueue .sell "X" 5 (.ofDigits 1 0),
    .enqueue .buy "X" 99 (.ofDigits 3 0)]

/-- What a floor answers whose index takes no further entries. -/
def full (f : Floor) : (c : Call) → c.Answer
  | .index (.enqueue ..) => .error (.indexUnavailable "")
  | c => f.grant .epoch c

theorem may_full (f : Floor) (c : Call) : f.May c (f.full c) := by
  unfold full
  split
  · trivial
  · exact f.may_grant .epoch _

/-- One recovery fails half way, and the next one brings the index right. -/
theorem recovered_garbage :
    let f : Floor := ⟨fiveOrders, garbage, []⟩
    let h := (f.answering full reconcile).2
    let g := (h.perform .epoch reconcile).2
    (f.index.Tidy ∧ (∀ o ∈ f.store.orders, ∃ left, o.amount.sub o.executedAmount = some left) ∧
      (∀ e ∈ h.since g, e.refused = false)) ∧
    ((f.answering full reconcile).1 = .error (.error (.indexUnavailable "")) ∧
      f.index.waiting .buy "X" = [1, 99, 2] ∧ h.index.waiting .buy "X" = [1] ∧
      h.index.waiting .sell "X" = [4, 5]) ∧
    (h.perform .epoch reconcile).1 = .ok ⟨4, 2, 3, 1⟩ ∧ g.index.places = f.store.entitled ∧
      g.index.keys .buy "X" = [⟨(Decimal.ofDigits 7 0).neg, 1⟩] ∧
      g.index.waiting .sell "X" = [2] ∧ g.index.waiting .buy "Y" = [3] ∧
      (g.perform .epoch reconcile).1 = .ok ⟨4, 0, 0, 1⟩ := by
  intro f h g
  have ht : f.index.Tidy := WaitingIndex.tidy_empty.performAll _
  have hroom : ∀ o ∈ f.store.orders, ∃ left, o.amount.sub o.executedAmount = some left := by
    have hsome : ∀ o ∈ f.store.orders, (o.amount.sub o.executedAmount).isSome = true := by
      decide +kernel
    exact fun o ho => Option.isSome_iff_exists.mp (hsome o ho)
  have hgiven : ∀ e ∈ h.since g, e.refused = false := by decide +kernel
  have hbroken : Relation.ReflTransGen Recovering f h :=
    .single ⟨_, leads_answering may_full f reconcile⟩
  obtain ⟨-, -, -, hplaces, -⟩ := recovered ht hroom hbroken (h.leads_perform .epoch reconcile)
    hgiven
  exact ⟨⟨ht, hroom, hgiven⟩, by decide +kernel, by decide +kernel, hplaces, by decide +kernel⟩

end Floor

end Bourse
