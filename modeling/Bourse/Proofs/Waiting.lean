/-
What each call on the index does to the lists it answers with.

A book is looked at through its keys, best first, and this file says how they move:
`mem_keys_enqueue` and `mem_keys_remove` are the only two ways, and neither touches
another book or another identifier.  So whatever is known of an entry stays known until
the entry itself is enqueued again or taken out.

`InOrder` says that the keys of a book stand by score and then by identifier.  An
identifier never has two keys, so the order is strict and the list is the only one there
can be of these keys.
-/
import Bourse.Proofs.Book
import Mathlib.Data.String.Basic

namespace Bourse

/-! ### The keys of one book -/

namespace WaitingBook

theorem Tidy.mem_remove {b : WaitingBook} (h : b.Tidy) {id : OrderId} {k : IndexKey} :
    k ∈ (b.remove id).2.ordered ↔ k ∈ b.ordered ∧ k.order ≠ id := by
  unfold WaitingBook.remove
  cases hkey : b.key? id with
  | none => exact ⟨fun hk => ⟨hk, h.key?_none hkey k hk⟩, And.left⟩
  | some old =>
      obtain ⟨hmem, rfl⟩ := h.key?_some hkey
      exact IndexKey.mem_eraseFrom h.nodup hmem

theorem Tidy.mem_enqueue {b : WaitingBook} (h : b.Tidy) {new k : IndexKey} :
    k ∈ (b.enqueue new).ordered ↔ k = new ∨ k ∈ b.ordered ∧ k.order ≠ new.order := by
  unfold WaitingBook.enqueue
  cases hkey : b.key? new.order with
  | none =>
      have hnew := h.key?_none hkey
      rw [(IndexKey.insertInto_perm hnew).mem_iff, List.mem_cons]
      exact or_congr_right ⟨fun hk => ⟨hk, hnew k hk⟩, And.left⟩
  | some old =>
      obtain ⟨hmem, horder⟩ := h.key?_some hkey
      have herase {x : IndexKey} : x ∈ old.eraseFrom b.ordered ↔
          x ∈ b.ordered ∧ x.order ≠ new.order := by
        rw [IndexKey.mem_eraseFrom h.nodup hmem, horder]
      rw [(IndexKey.insertInto_perm fun x hx => (herase.mp hx).2).mem_iff, List.mem_cons, herase]

end WaitingBook

/-! ### The order of the keys -/

namespace IndexKey

instance : Std.TransCmp cmp :=
  inferInstanceAs (Std.TransCmp (compareLex (compareOn fun k : IndexKey => k.score.units)
    (compareOn IndexKey.order)))

theorem cmp_lt_iff {a b : IndexKey} : cmp a b = .lt ↔
    a.score < b.score ∨ a.score.units = b.score.units ∧ a.order < b.order := by
  unfold cmp Decimal.cmp
  rw [Ordering.then_eq_lt, Int.compare_eq_lt, Int.compare_eq_eq, Int.compare_eq_lt,
    Decimal.lt_iff]

/-- Every key comes before all that follow it. -/
def InOrder (keys : List IndexKey) : Prop := keys.Pairwise fun a b => cmp a b = .lt

theorem InOrder.insertInto {k : IndexKey} {keys : List IndexKey} (h : InOrder keys)
    (hnew : ∀ x ∈ keys, x.order ≠ k.order) : InOrder (k.insertInto keys) := by
  induction keys with
  | nil => exact List.pairwise_singleton _ _
  | cons x xs ih =>
      obtain ⟨hx, hxs⟩ := List.pairwise_cons.mp h
      have hnew' : ∀ y ∈ xs, y.order ≠ k.order := fun y hy => hnew y (List.mem_cons_of_mem _ hy)
      unfold IndexKey.insertInto
      cases hcmp : cmp k x with
      | lt =>
          refine List.pairwise_cons.mpr ⟨fun y hy => ?_, h⟩
          rcases List.mem_cons.mp hy with rfl | hin
          · exact hcmp
          · exact Std.TransCmp.lt_trans hcmp (hx y hin)
      | eq => exact absurd (order_eq_of_cmp hcmp).symm (hnew x (by simp))
      | gt =>
          refine List.pairwise_cons.mpr ⟨fun y hy => ?_, ih hxs hnew'⟩
          rcases List.mem_cons.mp ((insertInto_perm hnew').mem_iff.mp hy) with rfl | hin
          · exact Std.OrientedCmp.lt_of_gt hcmp
          · exact hx y hin

theorem InOrder.eraseFrom {k : IndexKey} {keys : List IndexKey} (h : InOrder keys) :
    InOrder (k.eraseFrom keys) :=
  h.sublist List.filter_sublist

end IndexKey

namespace WaitingBook

theorem inOrder_remove {b : WaitingBook} (h : IndexKey.InOrder b.ordered) (id : OrderId) :
    IndexKey.InOrder (b.remove id).2.ordered := by
  unfold WaitingBook.remove
  cases b.key? id with
  | none => exact h
  | some k => exact h.eraseFrom

theorem Tidy.inOrder_enqueue {b : WaitingBook} (ht : b.Tidy) (h : IndexKey.InOrder b.ordered)
    (k : IndexKey) : IndexKey.InOrder (b.enqueue k).ordered := by
  unfold WaitingBook.enqueue
  cases hkey : b.key? k.order with
  | none => exact h.insertInto (ht.key?_none hkey)
  | some old =>
      obtain ⟨hmem, horder⟩ := ht.key?_some hkey
      refine h.eraseFrom.insertInto fun x hx => ?_
      rw [← horder]
      exact ((IndexKey.mem_eraseFrom ht.nodup hmem).mp hx).2

end WaitingBook

/-! ### Books among other books -/

namespace WaitingIndex

variable {i : WaitingIndex} {side side' : Side} {ticker ticker' : String} {id : OrderId}
  {k : IndexKey}

/-- The keys of a side of a ticker, best first. -/
def keys (i : WaitingIndex) (side : Side) (ticker : String) : List IndexKey :=
  ((i.book? side ticker).getD .empty).ordered

theorem waiting_eq (i : WaitingIndex) (side : Side) (ticker : String) :
    i.waiting side ticker = (i.keys side ticker).map (·.order) := by
  unfold waiting keys
  cases i.book? side ticker <;> rfl

theorem mem_waiting : id ∈ i.waiting side ticker ↔ ∃ k ∈ i.keys side ticker, k.order = id := by
  rw [waiting_eq, List.mem_map]

theorem Tidy.book (h : i.Tidy) (side : Side) (ticker : String) :
    ((i.book? side ticker).getD .empty).Tidy := by
  cases hb : i.book? side ticker with
  | none => exact WaitingBook.tidy_empty
  | some b => exact h.book? hb

theorem book?_dropBook : (i.dropBook side ticker).book? side' ticker' =
    if (side', ticker') = (side, ticker) then none else i.book? side' ticker' := by
  unfold book? dropBook
  induction i.books with
  | nil => simp
  | cons b bs ih =>
      by_cases hb : b.1 = (side, ticker)
      · rw [List.filter_cons_of_neg (by simpa using hb), ih, List.lookup_cons, hb]
        by_cases hkey : (side', ticker') = (side, ticker)
        · rw [if_pos hkey, if_pos hkey]
        · rw [if_neg hkey, if_neg hkey, beq_eq_false_iff_ne.mpr hkey]
      · rw [List.filter_cons_of_pos (by simpa using hb), List.lookup_cons, List.lookup_cons, ih]
        by_cases hkey : (side', ticker') = b.1
        · rw [hkey]
          simp [hb]
        · rw [beq_eq_false_iff_ne.mpr hkey]

theorem book?_setBook {b : WaitingBook} : (i.setBook side ticker b).book? side' ticker' =
    if (side', ticker') = (side, ticker) then some b else i.book? side' ticker' := by
  show List.lookup (side', ticker') (((side, ticker), b) :: (i.dropBook side ticker).books) = _
  rw [List.lookup_cons]
  by_cases hkey : (side', ticker') = (side, ticker)
  · rw [if_pos hkey, hkey]
    simp
  · rw [if_neg hkey, beq_eq_false_iff_ne.mpr hkey]
    exact (book?_dropBook (i := i)).trans (if_neg hkey)

/-- Who is taken out of one book is not taken out of another. -/
theorem book?_remove_of_ne (hne : (side', ticker') ≠ (side, ticker)) :
    (i.remove side ticker id).2.book? side' ticker' = i.book? side' ticker' := by
  unfold remove
  cases i.book? side ticker with
  | none => rfl
  | some b =>
      dsimp only
      split
      · rw [book?_dropBook, if_neg hne]
      · rw [book?_setBook, if_neg hne]

/-- What comes of taking an order out depends on the one book. -/
theorem remove_congr {j : WaitingIndex} (h : i.book? side ticker = j.book? side ticker)
    (id : OrderId) :
    (i.remove side ticker id).1 = (j.remove side ticker id).1 ∧
      (i.remove side ticker id).2.book? side ticker =
        (j.remove side ticker id).2.book? side ticker := by
  unfold remove
  cases hb : i.book? side ticker with
  | none =>
      rw [hb] at h
      rw [← h]
      exact ⟨rfl, hb.trans h⟩
  | some b =>
      rw [hb] at h
      rw [← h]
      refine ⟨rfl, ?_⟩
      dsimp only
      split
      · rw [book?_dropBook, book?_dropBook, if_pos rfl, if_pos rfl]
      · rw [book?_setBook, book?_setBook, if_pos rfl, if_pos rfl]

/-- **What an order that is enqueued leaves in the books.** -/
theorem Tidy.mem_keys_enqueue (h : i.Tidy) {price : Decimal} :
    k ∈ (i.enqueue side ticker id price).keys side' ticker' ↔
      (side', ticker') = (side, ticker) ∧ k = .ofPrice side price id ∨
        k ∈ i.keys side' ticker' ∧ ((side', ticker') = (side, ticker) → k.order ≠ id) := by
  unfold keys enqueue
  rw [book?_setBook]
  by_cases hkey : (side', ticker') = (side, ticker)
  · obtain ⟨rfl, rfl⟩ := Prod.mk.inj hkey
    rw [if_pos rfl, Option.getD_some, (h.book side' ticker').mem_enqueue]
    simp [IndexKey.ofPrice]
  · rw [if_neg hkey]
    simp [hkey]

/-- **What an order that is taken out leaves in the books.** -/
theorem Tidy.mem_keys_remove (h : i.Tidy) :
    k ∈ (i.remove side ticker id).2.keys side' ticker' ↔
      k ∈ i.keys side' ticker' ∧ ((side', ticker') = (side, ticker) → k.order ≠ id) := by
  unfold keys remove
  cases hb : i.book? side ticker with
  | none =>
      refine ⟨fun hk => ⟨hk, fun hkey => ?_⟩, And.left⟩
      obtain ⟨rfl, rfl⟩ := Prod.mk.inj hkey
      rw [hb] at hk
      cases hk
  | some b =>
      have hmem {k : IndexKey} : k ∈ (b.remove id).2.ordered ↔ k ∈ b.ordered ∧ k.order ≠ id :=
        (h.book? hb).mem_remove
      dsimp only
      by_cases hkey : (side', ticker') = (side, ticker)
      · obtain ⟨rfl, rfl⟩ := Prod.mk.inj hkey
        rw [hb, Option.getD_some]
        split
        · rename_i hempty
          rw [List.isEmpty_iff] at hempty
          rw [book?_dropBook, if_pos rfl]
          simp only [hempty, List.not_mem_nil, false_iff] at hmem
          simpa [WaitingBook.empty] using hmem
        · rw [book?_setBook, if_pos rfl, Option.getD_some, hmem]
          simp
      · simp only [hkey, false_imp_iff, and_true]
        split
        · rw [book?_dropBook, if_neg hkey]
        · rw [book?_setBook, if_neg hkey]

/-- What is taken out was there just if it was listed. -/
theorem Tidy.fst_remove (h : i.Tidy) :
    (i.remove side ticker id).1 = true ↔ id ∈ i.waiting side ticker := by
  unfold remove waiting
  cases hb : i.book? side ticker with
  | none => simp
  | some b =>
      dsimp only [WaitingBook.remove, WaitingBook.ids]
      cases hkey : b.key? id with
      | none =>
          have hnone := (h.book? hb).key?_none hkey
          simpa using hnone
      | some k =>
          obtain ⟨hmem, rfl⟩ := (h.book? hb).key?_some hkey
          have hin : k.isIn b.ordered = true :=
            List.any_eq_true.mpr ⟨k, hmem, by simp [IndexKey.cmp_self]⟩
          exact iff_of_true hin (List.mem_map_of_mem hmem)

/-- **Who is listed once an order is enqueued.** -/
theorem Tidy.mem_waiting_enqueue (h : i.Tidy) {price : Decimal} {id' : OrderId} :
    id' ∈ (i.enqueue side ticker id price).waiting side' ticker' ↔
      (side', ticker') = (side, ticker) ∧ id' = id ∨ id' ∈ i.waiting side' ticker' := by
  rw [mem_waiting, mem_waiting]
  constructor
  · rintro ⟨k, hk, rfl⟩
    rcases h.mem_keys_enqueue.mp hk with ⟨hbook, rfl⟩ | ⟨hin, -⟩
    · exact Or.inl ⟨hbook, rfl⟩
    · exact Or.inr ⟨k, hin, rfl⟩
  · rintro (⟨hbook, rfl⟩ | ⟨k, hk, rfl⟩)
    · exact ⟨_, h.mem_keys_enqueue.mpr (Or.inl ⟨hbook, rfl⟩), rfl⟩
    · by_cases hsame : (side', ticker') = (side, ticker) ∧ k.order = id
      · exact ⟨_, h.mem_keys_enqueue.mpr (Or.inl ⟨hsame.1, rfl⟩), hsame.2.symm⟩
      · exact ⟨k, h.mem_keys_enqueue.mpr
          (Or.inr ⟨hk, fun hbook hid => hsame ⟨hbook, hid⟩⟩), rfl⟩

/-- **Who is listed once an order is taken out.** -/
theorem Tidy.mem_waiting_remove (h : i.Tidy) {id' : OrderId} :
    id' ∈ (i.remove side ticker id).2.waiting side' ticker' ↔
      id' ∈ i.waiting side' ticker' ∧ ((side', ticker') = (side, ticker) → id' ≠ id) := by
  rw [mem_waiting, mem_waiting]
  constructor
  · rintro ⟨k, hk, rfl⟩
    obtain ⟨hin, hne⟩ := h.mem_keys_remove.mp hk
    exact ⟨⟨k, hin, rfl⟩, hne⟩
  · rintro ⟨⟨k, hk, rfl⟩, hne⟩
    exact ⟨k, h.mem_keys_remove.mpr ⟨hk, hne⟩, rfl⟩

/-! ### All books at once -/

/-- The keys of every book stand in order. -/
def InOrder (i : WaitingIndex) : Prop :=
  ∀ side ticker, IndexKey.InOrder (i.keys side ticker)

theorem inOrder_empty : empty.InOrder := fun _ _ => List.Pairwise.nil

/-- No call on the index leaves a book out of order. -/
theorem InOrder.perform (hi : i.InOrder) (ht : i.Tidy) (c : IndexCall) :
    (i.perform c).2.InOrder := by
  intro side' ticker'
  cases c with
  | list | tickers | size => exact hi side' ticker'
  | enqueue side ticker id price =>
      show IndexKey.InOrder ((i.enqueue side ticker id price).keys side' ticker')
      unfold keys enqueue
      rw [book?_setBook]
      split
      · exact (ht.book side ticker).inOrder_enqueue (hi side ticker) _
      · exact hi side' ticker'
  | remove side ticker id =>
      show IndexKey.InOrder ((i.remove side ticker id).2.keys side' ticker')
      unfold WaitingIndex.remove
      cases hb : i.book? side ticker with
      | none => exact hi side' ticker'
      | some b =>
          have hb' : IndexKey.InOrder b.ordered := by
            have := hi side ticker
            rwa [keys, hb] at this
          dsimp only
          unfold keys
          split
          · rw [book?_dropBook]
            split
            · exact List.Pairwise.nil
            · exact hi side' ticker'
          · rw [book?_setBook]
            split
            · exact WaitingBook.inOrder_remove hb' id
            · exact hi side' ticker'

theorem mem_insertTicker {t u : String} {ts : List String} :
    u ∈ insertTicker t ts ↔ u = t ∨ u ∈ ts := by
  induction ts with
  | nil => simp [insertTicker]
  | cons x xs ih =>
      unfold insertTicker
      split
      · rw [List.mem_cons]
      · split
        · rename_i heq
          subst heq
          simp
        · rw [List.mem_cons, List.mem_cons, ih]
          tauto

/-- Tickers that are added one after the other stand in order, each of them once. -/
theorem pairwise_insertTicker {t : String} {ts : List String} (h : ts.Pairwise (· < ·)) :
    (insertTicker t ts).Pairwise (· < ·) := by
  induction ts with
  | nil => exact List.pairwise_singleton _ _
  | cons x xs ih =>
      obtain ⟨hx, hxs⟩ := List.pairwise_cons.mp h
      unfold insertTicker
      split
      · rename_i hlt
        refine List.pairwise_cons.mpr ⟨fun y hy => ?_, h⟩
        rcases List.mem_cons.mp hy with rfl | hin
        · exact hlt
        · exact lt_trans hlt (hx y hin)
      · rename_i hge
        split
        · exact h
        · rename_i hne
          refine List.pairwise_cons.mpr ⟨fun y hy => ?_, ih hxs⟩
          rcases mem_insertTicker.mp hy with rfl | hin
          · exact lt_of_le_of_ne (not_lt.mp hge) (Ne.symm hne)
          · exact hx y hin

theorem mem_foldl_insertTicker {α : Type} (ticker : α → String) (as : List α) (ts : List String)
    (t : String) : t ∈ as.foldl (fun ts a => insertTicker (ticker a) ts) ts ↔
      t ∈ ts ∨ ∃ a ∈ as, ticker a = t := by
  induction as generalizing ts with
  | nil => simp
  | cons a as ih =>
      rw [List.foldl_cons, ih, mem_insertTicker]
      simp only [List.mem_cons, exists_eq_or_imp]
      tauto

theorem pairwise_foldl_insertTicker {α : Type} (ticker : α → String) (as : List α)
    {ts : List String} (h : ts.Pairwise (· < ·)) :
    (as.foldl (fun ts a => insertTicker (ticker a) ts) ts).Pairwise (· < ·) := by
  induction as generalizing ts with
  | nil => exact h
  | cons a as ih => exact ih (pairwise_insertTicker h)

/-- The tickers that are listed are those that have a book. -/
theorem mem_tickers : ticker ∈ i.tickers ↔ ∃ b ∈ i.books, b.1.2 = ticker := by
  unfold tickers
  rw [mem_foldl_insertTicker (fun b : (Side × String) × WaitingBook => b.1.2)]
  simp

theorem pairwise_tickers (i : WaitingIndex) : i.tickers.Pairwise (· < ·) :=
  pairwise_foldl_insertTicker (fun b : (Side × String) × WaitingBook => b.1.2) i.books .nil

/-- A ticker is listed if an order waits for it on either side. -/
theorem mem_tickers_of_waiting (h : id ∈ i.waiting side ticker) : ticker ∈ i.tickers := by
  refine mem_tickers.mpr ?_
  cases hb : i.book? side ticker with
  | none =>
      rw [waiting, hb] at h
      cases h
  | some b =>
      obtain ⟨before, after, hbooks, -⟩ := List.lookup_eq_some_iff.mp hb
      exact ⟨((side, ticker), b), by rw [hbooks]; simp, rfl⟩

end WaitingIndex

end Bourse
