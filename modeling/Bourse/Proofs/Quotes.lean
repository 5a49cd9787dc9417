/-
The index is a table of prices.

Leave aside how a book is kept, and all that the calls on an index say is at which price
an order was put into which book, and whether it was taken out again.  `Quotes` is the
table of just this, and `Quotes.Answers` reads off it what every call is to be answered
with.  This file shows that the index answers so after any calls at all.

`Shows` relates the two: every key of a book is that of an order in the table, under
the price it was put there with last.  A price may come again at another scale, so a key
that is merely equal to the one it replaces is not good enough: it is the price itself
that is kept.  `Kept` is what the index has to look after besides: one book to a name,
none of them empty, and the same keys by price and by identifier.
-/
import Bourse.Proofs.Waiting
import Bourse.Proofs.Queue
import Mathlib.Data.List.Induction

namespace Bourse

/-! ### The table -/

/-- The side, the ticker and the order for which a call sets the price or takes it away. -/
def IndexCall.entry? : IndexCall → Option ((Side × String) × OrderId)
  | .enqueue side ticker id _ | .remove side ticker id => some ((side, ticker), id)
  | .list .. | .tickers | .size .. => none

/-- At which price an order was last put into a book, if it was not taken out since. -/
def Quotes := Side → String → OrderId → Option Decimal

namespace Quotes

/-- No order is in any book. -/
def blank : Quotes := fun _ _ _ => none

/-- The table with another entry for one order in one book. -/
def put (q : Quotes) (side : Side) (ticker : String) (id : OrderId) (price : Option Decimal) :
    Quotes :=
  fun side' ticker' id' =>
    if (side', ticker') = (side, ticker) ∧ id' = id then price else q side' ticker' id'

/-- The table after a call on the index. -/
def after (q : Quotes) : IndexCall → Quotes
  | .enqueue side ticker id price => q.put side ticker id (some price)
  | .remove side ticker id => q.put side ticker id none
  | .list .. | .tickers | .size .. => q

/-- The table after some calls, the first of which found no order in any book. -/
def made (calls : List IndexCall) : Quotes := calls.foldl after blank

variable {q : Quotes} {side side' : Side} {ticker ticker' : String} {id id' : OrderId}
  {price : Option Decimal} {p : Decimal}

theorem put_self : q.put side ticker id price side ticker id = price := if_pos ⟨rfl, rfl⟩

theorem put_eq_some_iff : q.put side ticker id price side' ticker' id' = some p ↔
    ((side', ticker') = (side, ticker) ∧ id' = id) ∧ price = some p ∨
      ((side', ticker') = (side, ticker) → id' ≠ id) ∧ q side' ticker' id' = some p := by
  unfold put
  split <;> simp_all

theorem after_eq_of_ne {c : IndexCall} (h : c.entry? ≠ some ((side, ticker), id)) :
    q.after c side ticker id = q side ticker id := by
  cases c with
  | list | tickers | size => rfl
  | enqueue side' ticker' id' price =>
      exact if_neg fun hsame => h (by rw [IndexCall.entry?, ← hsame.1, hsame.2])
  | remove side' ticker' id' =>
      exact if_neg fun hsame => h (by rw [IndexCall.entry?, ← hsame.1, hsame.2])

theorem made_concat (calls : List IndexCall) (c : IndexCall) :
    made (calls ++ [c]) = (made calls).after c := by
  unfold made
  rw [List.foldl_append]
  rfl

/-- **An order has the price it was put there with last**, and none if it was taken out since. -/
theorem made_eq_some_iff {calls : List IndexCall} : made calls side ticker id = some p ↔
    ∃ before rest, calls = before ++ .enqueue side ticker id p :: rest ∧
      ∀ c ∈ rest, c.entry? ≠ some ((side, ticker), id) := by
  induction calls using List.reverseRecOn with
  | nil => simp [made, blank]
  | append_singleton calls c ih =>
      rw [made_concat]
      -- What splits the calls at an earlier one leaves the last call among those that follow.
      have hlast {before rest : List IndexCall} {e : IndexCall}
          (h : calls ++ [c] = before ++ e :: rest) :
          calls = before ∧ c = e ∧ rest = [] ∨
            ∃ rest', rest = rest' ++ [c] ∧ calls = before ++ e :: rest' := by
        rcases List.eq_nil_or_concat rest with rfl | ⟨rest', c', rfl⟩
        · obtain ⟨hcalls, hc⟩ := List.append_inj' h rfl
          exact Or.inl ⟨hcalls, List.singleton_inj.mp hc, rfl⟩
        · have h : calls ++ [c] = (before ++ e :: rest') ++ [c'] := by simpa using h
          obtain ⟨hcalls, hc⟩ := List.append_inj' h rfl
          obtain rfl := List.singleton_inj.mp hc
          exact Or.inr ⟨rest', by simp, hcalls⟩
      by_cases hentry : c.entry? = some ((side, ticker), id)
      · constructor
        · intro hp
          cases c with
          | list | tickers | size => cases hentry
          | enqueue =>
              cases hentry
              cases put_self.symm.trans hp
              exact ⟨calls, [], rfl, by simp⟩
          | remove =>
              cases hentry
              cases put_self.symm.trans hp
        · rintro ⟨before, rest, hcalls, hrest⟩
          rcases hlast hcalls with ⟨-, rfl, -⟩ | ⟨rest', rfl, -⟩
          · exact put_self
          · exact absurd hentry (hrest c (by simp))
      · rw [after_eq_of_ne hentry, ih]
        constructor
        · rintro ⟨before, rest, rfl, hrest⟩
          refine ⟨before, rest ++ [c], by simp, fun x hx => ?_⟩
          rcases List.mem_append.mp hx with hin | hin
          · exact hrest x hin
          · rwa [List.mem_singleton.mp hin]
        · rintro ⟨before, rest, hcalls, hrest⟩
          rcases hlast hcalls with ⟨-, rfl, -⟩ | ⟨rest', rfl, hbefore⟩
          · exact absurd rfl hentry
          · exact ⟨before, rest', hbefore, fun x hx => hrest x (List.mem_append_left _ hx)⟩

/-! ### What the table says the answers are -/

/-- The first of two orders in a book has the better price or, at the same, the lower identifier. -/
def Before (q : Quotes) (side : Side) (ticker : String) (a b : OrderId) : Prop :=
  ∃ p r, q side ticker a = some p ∧ q side ticker b = some r ∧
    (side.opposite.Prefers p r ∨ p.units = r.units ∧ a < b)

/-- These are the orders of a book, each of them once, in the order of their prices. -/
structure Lists (q : Quotes) (side : Side) (ticker : String) (ids : List OrderId) : Prop where
  mem : ∀ id, id ∈ ids ↔ (q side ticker id).isSome
  nodup : ids.Nodup
  sorted : ids.Pairwise (q.Before side ticker)

/-- The answer to a call is the one that the table gives. -/
def Answers (q : Quotes) : (c : IndexCall) → c.Answer → Prop
  | .enqueue .., _ => True
  | .list side ticker, ids => q.Lists side ticker ids
  | .remove side ticker id, removed => removed = (q side ticker id).isSome
  | .tickers, tickers => tickers.Pairwise (· < ·) ∧
      ∀ ticker, ticker ∈ tickers ↔ ∃ side id, (q side ticker id).isSome
  | .size side ticker, n => ∃ ids, q.Lists side ticker ids ∧ n = ids.length

end Quotes

/-! ### What a book holds twice -/

namespace WaitingBook

variable {b : WaitingBook}

/-- In a tidy book a key is erased with all that has its identifier. -/
theorem Tidy.eraseFrom_eq (h : b.Tidy) {k : IndexKey} (hk : k ∈ b.ordered) :
    k.eraseFrom b.ordered = b.ordered.filter (·.order != k.order) := by
  refine List.filter_congr fun x hx => ?_
  have hmem := IndexKey.mem_eraseFrom (x := x) h.nodup hk
  unfold IndexKey.eraseFrom at hmem
  rw [List.mem_filter] at hmem
  rw [Bool.eq_iff_iff, bne_iff_ne (a := x.order)]
  exact (and_congr_right_iff.mp hmem) hx

theorem Tidy.perm_remove (h : b.Tidy) (hperm : b.ordered.Perm b.members) (id : OrderId) :
    (b.remove id).2.ordered.Perm (b.remove id).2.members := by
  unfold WaitingBook.remove
  cases hkey : b.key? id with
  | none => exact hperm
  | some k =>
      obtain ⟨hk, rfl⟩ := h.key?_some hkey
      show (k.eraseFrom b.ordered).Perm _
      rw [h.eraseFrom_eq hk]
      exact hperm.filter _

theorem Tidy.perm_enqueue (h : b.Tidy) (hperm : b.ordered.Perm b.members) (k : IndexKey) :
    (b.enqueue k).ordered.Perm (b.enqueue k).members := by
  have hothers : (k.insertInto (b.ordered.filter (·.order != k.order))).Perm
      (k :: b.members.filter (·.order != k.order)) := by
    refine (IndexKey.insertInto_perm fun x hx => ?_).trans ((hperm.filter _).cons k)
    exact bne_iff_ne.mp (List.mem_filter.mp hx).2
  unfold WaitingBook.enqueue
  -- Whether the identifier had a key or not, it is inserted among the keys of the others.
  cases hkey : b.key? k.order with
  | none =>
      have hself : b.ordered.filter (·.order != k.order) = b.ordered :=
        List.filter_eq_self.mpr fun x hx => bne_iff_ne.mpr (h.key?_none hkey x hx)
      rwa [hself] at hothers
  | some previous =>
      obtain ⟨hprevious, horder⟩ := h.key?_some hkey
      rwa [← horder, ← h.eraseFrom_eq hprevious, horder] at hothers

end WaitingBook

namespace WaitingIndex

variable {i : WaitingIndex} {q : Quotes} {side : Side} {ticker : String}

/-- One book to a name, none of them empty, and each with the same keys in both places. -/
structure Kept (i : WaitingIndex) : Prop where
  once : (i.books.map (·.1)).Nodup
  filled : ∀ b ∈ i.books, b.2.ordered ≠ []
  alike : ∀ b ∈ i.books, b.2.ordered.Perm b.2.members

theorem kept_empty : empty.Kept where
  once := List.nodup_nil
  filled _ hb := nomatch hb
  alike _ hb := nomatch hb

theorem Kept.dropBook (h : i.Kept) (side : Side) (ticker : String) :
    (i.dropBook side ticker).Kept where
  once := (List.filter_sublist.map _).nodup h.once
  filled b hb := h.filled b (List.mem_filter.mp hb).1
  alike b hb := h.alike b (List.mem_filter.mp hb).1

theorem Kept.setBook (h : i.Kept) {b : WaitingBook} (hfilled : b.ordered ≠ [])
    (halike : b.ordered.Perm b.members) : (i.setBook side ticker b).Kept := by
  have hdrop := h.dropBook side ticker
  refine ⟨List.nodup_cons.mpr ⟨fun hin => ?_, hdrop.once⟩, fun x hx => ?_, fun x hx => ?_⟩
  · obtain ⟨x, hx, hname⟩ := List.mem_map.mp hin
    exact bne_iff_ne.mp (List.mem_filter.mp hx).2 hname
  · rcases List.mem_cons.mp hx with rfl | hin
    · exact hfilled
    · exact hdrop.filled x hin
  · rcases List.mem_cons.mp hx with rfl | hin
    · exact halike
    · exact hdrop.alike x hin

/-- A book that is kept is the one that its name stands for. -/
theorem Kept.book? (h : i.Kept) {b : (Side × String) × WaitingBook} (hb : b ∈ i.books) :
    i.book? b.1.1 b.1.2 = some b.2 := by
  obtain ⟨before, rest, hbooks⟩ := List.append_of_mem hb
  refine List.lookup_eq_some_iff.mpr ⟨before, rest, hbooks, fun x hx => bne_iff_ne.mpr ?_⟩
  have honce := h.once
  rw [hbooks, List.map_append, List.nodup_append] at honce
  exact (honce.2.2 x.1 (List.mem_map_of_mem hx) b.1 (by simp)).symm

theorem Kept.alike_of_book? (h : i.Kept) {b : WaitingBook} (hb : i.book? side ticker = some b) :
    b.ordered.Perm b.members := by
  obtain ⟨before, after, hbooks, -⟩ := List.lookup_eq_some_iff.mp hb
  exact h.alike ((side, ticker), b) (by rw [hbooks]; simp)

theorem Kept.filled_of_book? (h : i.Kept) {b : WaitingBook} (hb : i.book? side ticker = some b) :
    b.ordered ≠ [] := by
  obtain ⟨before, after, hbooks, -⟩ := List.lookup_eq_some_iff.mp hb
  exact h.filled ((side, ticker), b) (by rw [hbooks]; simp)

/-- To take out what is not there leaves every book as it is. -/
theorem Kept.book?_remove (h : i.Kept) (ht : i.Tidy) {id : OrderId}
    (hout : id ∉ i.waiting side ticker) (side' : Side) (ticker' : String) :
    (i.remove side ticker id).2.book? side' ticker' = i.book? side' ticker' := by
  by_cases hbook : (side', ticker') = (side, ticker)
  · obtain ⟨rfl, rfl⟩ := Prod.mk.inj hbook
    unfold remove
    cases hb : i.book? side' ticker' with
    | none => exact hb
    | some b =>
        have hremove : b.remove id = (false, b) := by
          unfold WaitingBook.remove
          cases hkey : b.key? id with
          | none => rfl
          | some k =>
              obtain ⟨hmem, horder⟩ := (ht.book? hb).key?_some hkey
              rw [waiting, hb] at hout
              exact absurd (List.mem_map.mpr ⟨k, hmem, horder⟩) hout
        have hfilled := h.filled_of_book? hb
        dsimp only
        rw [hremove, if_neg (by simpa using hfilled), book?_setBook, if_pos rfl]
  · exact book?_remove_of_ne hbook

/-- **No call on the index leaves a book empty or split.** -/
theorem Kept.perform (h : i.Kept) (ht : i.Tidy) (c : IndexCall) : (i.perform c).2.Kept := by
  cases c with
  | list | tickers | size => exact h
  | enqueue side ticker id price =>
      have htidy := ht.book side ticker
      have hperm : ((i.book? side ticker).getD .empty).ordered.Perm
          ((i.book? side ticker).getD .empty).members := by
        cases hb : i.book? side ticker with
        | none => exact List.Perm.refl _
        | some b => exact h.alike_of_book? hb
      refine h.setBook ?_ (htidy.perm_enqueue hperm _)
      exact List.ne_nil_of_mem (htidy.mem_enqueue.mpr (Or.inl rfl))
  | remove side ticker id =>
      show (i.remove side ticker id).2.Kept
      unfold WaitingIndex.remove
      cases hb : i.book? side ticker with
      | none => exact h
      | some b =>
          dsimp only
          split
          · exact h.dropBook side ticker
          · rename_i hempty
            refine h.setBook (fun hnil => hempty (List.isEmpty_iff.mpr hnil)) ?_
            exact (ht.book? hb).perm_remove (h.alike_of_book? hb) id

/-! ### The index and the table -/

/-- The books have a key for every order in the table, by the price it has there, and no other. -/
structure Shows (i : WaitingIndex) (q : Quotes) : Prop where
  tidy : i.Tidy
  inOrder : i.InOrder
  kept : i.Kept
  keys : ∀ side ticker k, k ∈ i.keys side ticker ↔
    ∃ price, q side ticker k.order = some price ∧ k = .ofPrice side price k.order

theorem shows_empty : empty.Shows .blank where
  tidy := tidy_empty
  inOrder := inOrder_empty
  kept := kept_empty
  keys _ _ _ := ⟨fun hk => (nomatch hk), fun ⟨_, hprice, _⟩ => nomatch hprice⟩

/-- **A call changes the books as it changes the table.** -/
theorem Shows.perform (h : i.Shows q) (c : IndexCall) : (i.perform c).2.Shows (q.after c) := by
  refine ⟨h.tidy.perform c, h.inOrder.perform h.tidy c, h.kept.perform h.tidy c, ?_⟩
  intro side' ticker' k
  cases c with
  | list | tickers | size => exact h.keys side' ticker' k
  | enqueue side ticker id price =>
      refine h.tidy.mem_keys_enqueue.trans ?_
      simp only [Quotes.after, Quotes.put_eq_some_iff, h.keys side' ticker' k]
      constructor
      · rintro (⟨hbook, rfl⟩ | ⟨⟨p, hp, hk⟩, hne⟩)
        · obtain ⟨rfl, rfl⟩ := Prod.mk.inj hbook
          exact ⟨price, Or.inl ⟨⟨rfl, rfl⟩, rfl⟩, rfl⟩
        · exact ⟨p, Or.inr ⟨hne, hp⟩, hk⟩
      · rintro ⟨p, ⟨⟨hbook, hid⟩, hp⟩ | ⟨hne, hp⟩, hk⟩
        · obtain ⟨rfl, rfl⟩ := Prod.mk.inj hbook
          cases hp
          exact Or.inl ⟨rfl, hid ▸ hk⟩
        · exact Or.inr ⟨⟨p, hp, hk⟩, hne⟩
  | remove side ticker id =>
      refine h.tidy.mem_keys_remove.trans ?_
      simp only [Quotes.after, Quotes.put_eq_some_iff, h.keys side' ticker' k, reduceCtorEq,
        and_false, false_or]
      exact ⟨fun ⟨⟨p, hp, hk⟩, hne⟩ => ⟨p, ⟨hne, hp⟩, hk⟩,
        fun ⟨p, ⟨hne, hp⟩, hk⟩ => ⟨⟨p, hp, hk⟩, hne⟩⟩

theorem Shows.performAll (h : i.Shows q) (calls : List IndexCall) :
    (i.performAll calls).Shows (calls.foldl Quotes.after q) := by
  induction calls generalizing i q with
  | nil => exact h
  | cons c calls ih => exact ih (h.perform c)

theorem Shows.mem_waiting (h : i.Shows q) {id : OrderId} :
    id ∈ i.waiting side ticker ↔ (q side ticker id).isSome := by
  rw [WaitingIndex.mem_waiting, Option.isSome_iff_exists]
  constructor
  · rintro ⟨k, hk, rfl⟩
    obtain ⟨price, hprice, -⟩ := (h.keys side ticker k).mp hk
    exact ⟨price, hprice⟩
  · rintro ⟨price, hprice⟩
    exact ⟨.ofPrice side price id, (h.keys side ticker _).mpr ⟨price, hprice, rfl⟩, rfl⟩

/-- What is listed for a book are the orders in the table, in the order of their prices. -/
theorem Shows.lists (h : i.Shows q) (side : Side) (ticker : String) :
    q.Lists side ticker (i.waiting side ticker) := by
  refine ⟨fun id => h.mem_waiting, h.tidy.nodup_waiting side ticker, ?_⟩
  rw [waiting_eq, List.pairwise_map]
  refine (h.inOrder side ticker).imp_of_mem fun {a b} ha hb hlt => ?_
  obtain ⟨p, hp, hkey⟩ := (h.keys side ticker a).mp ha
  obtain ⟨r, hr, hkey'⟩ := (h.keys side ticker b).mp hb
  refine ⟨p, r, hp, hr, ?_⟩
  have hlt := IndexKey.cmp_lt_iff.mp hlt
  rw [hkey, hkey', Decimal.lt_iff] at hlt
  cases side with
  | buy =>
      simp only [IndexKey.ofPrice, Decimal.units_neg] at hlt
      exact hlt.imp (fun h => Int.neg_lt_neg_iff.mp h) (fun h => ⟨Int.neg_inj.mp h.1, h.2⟩)
  | sell => exact hlt

/-- A ticker has a book just if an order is in the table for it. -/
theorem Shows.mem_tickers (h : i.Shows q) :
    ticker ∈ i.tickers ↔ ∃ side id, (q side ticker id).isSome := by
  rw [WaitingIndex.mem_tickers]
  constructor
  · rintro ⟨b, hb, rfl⟩
    obtain ⟨k, hk⟩ := List.exists_mem_of_ne_nil _ (h.kept.filled b hb)
    refine ⟨b.1.1, k.order, h.mem_waiting.mp (WaitingIndex.mem_waiting.mpr ⟨k, ?_, rfl⟩)⟩
    rw [WaitingIndex.keys, h.kept.book? hb]
    exact hk
  · rintro ⟨side, id, hid⟩
    exact WaitingIndex.mem_tickers.mp (mem_tickers_of_waiting (h.mem_waiting.mpr hid))

theorem size_eq (i : WaitingIndex) (side : Side) (ticker : String) :
    i.size side ticker = (i.waiting side ticker).length := by
  unfold size waiting
  cases i.book? side ticker with
  | none => rfl
  | some b => exact (List.length_map _).symm

/-- **An index that shows a table answers by it.** -/
theorem Shows.answers (h : i.Shows q) (c : IndexCall) : q.Answers c (i.perform c).1 := by
  cases c with
  | enqueue => trivial
  | list side ticker => exact h.lists side ticker
  | remove side ticker id => exact Bool.eq_iff_iff.mpr (h.tidy.fst_remove.trans h.mem_waiting)
  | tickers => exact ⟨pairwise_tickers i, fun ticker => h.mem_tickers⟩
  | size side ticker => exact ⟨_, h.lists side ticker, i.size_eq side ticker⟩

/--
**The index is the table of prices.**  After any calls at all it answers every call as the
table that these calls have made does, its books have the keys of the orders in the table
by the prices last given, and there is no book that is empty, comes twice, or has other
keys in one place than in the other.
-/
theorem performAll_refines (calls : List IndexCall) :
    (∀ c, (Quotes.made calls).Answers c ((empty.performAll calls).perform c).1) ∧
    (empty.performAll calls).Kept ∧
    ∀ side ticker k, k ∈ (empty.performAll calls).keys side ticker ↔
      ∃ price, Quotes.made calls side ticker k.order = some price ∧
        k = .ofPrice side price k.order := by
  have h := shows_empty.performAll calls
  exact ⟨h.answers, h.kept, h.keys⟩

end WaitingIndex

end Bourse
