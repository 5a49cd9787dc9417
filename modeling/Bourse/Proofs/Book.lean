/-
No order waits in a book twice.

Matching reads the orders of a book once and then meets them one after the other, and
that is only right if no identifier is listed twice: the second copy of an order would
be out of date once the first has been met.  A book keeps its keys in order and by
identifier, so an identifier that is enqueued at a new price has to give up its former
key in both places.  `Tidy` says that the two agree.
-/
import Bourse.Index.Basic
import Mathlib.Data.List.Nodup

namespace Bourse

namespace IndexKey

theorem order_eq_of_cmp {a b : IndexKey} (h : cmp a b = .eq) : a.order = b.order := by
  unfold cmp at h
  rw [Ordering.then_eq_eq] at h
  exact Std.LawfulEqOrd.eq_of_compare h.2

theorem cmp_self (a : IndexKey) : cmp a a = .eq := by
  unfold cmp Decimal.cmp
  rw [Ordering.then_eq_eq]
  exact ⟨Std.ReflCmp.compare_self, Std.ReflCmp.compare_self⟩

/-- A key whose identifier is new to a list is put into it. -/
theorem insertInto_perm {k : IndexKey} {keys : List IndexKey}
    (h : ∀ x ∈ keys, x.order ≠ k.order) : (k.insertInto keys).Perm (k :: keys) := by
  induction keys with
  | nil => exact List.Perm.refl _
  | cons x xs ih =>
      unfold insertInto
      cases hcmp : cmp k x with
      | lt => exact List.Perm.refl _
      | eq => exact absurd (order_eq_of_cmp hcmp).symm (h x (by simp))
      | gt =>
          have hxs := ih fun y hy => h y (List.mem_cons_of_mem _ hy)
          exact (hxs.cons x).trans (List.Perm.swap k x xs)

/-- Where no identifier comes twice, erasing a key erases what has its identifier. -/
theorem mem_eraseFrom {k x : IndexKey} {keys : List IndexKey}
    (hnodup : (keys.map (·.order)).Nodup) (hk : k ∈ keys) :
    x ∈ k.eraseFrom keys ↔ x ∈ keys ∧ x.order ≠ k.order := by
  unfold eraseFrom
  rw [List.mem_filter, bne_iff_ne]
  refine and_congr_right fun hx => ⟨fun hcmp horder => hcmp ?_, fun horder hcmp => ?_⟩
  · rw [List.inj_on_of_nodup_map hnodup hx hk horder]
    exact cmp_self k
  · exact horder (order_eq_of_cmp hcmp).symm

end IndexKey

namespace WaitingBook

/-- The two ways a book holds its keys agree, and no identifier has two keys. -/
structure Tidy (b : WaitingBook) : Prop where
  agree : ∀ k, k ∈ b.ordered ↔ k ∈ b.members
  nodup : (b.ordered.map (·.order)).Nodup

theorem tidy_empty : empty.Tidy := ⟨fun _ => Iff.rfl, List.nodup_nil⟩

theorem Tidy.key?_some {b : WaitingBook} (h : b.Tidy) {id : OrderId} {k : IndexKey}
    (hk : b.key? id = some k) : k ∈ b.ordered ∧ k.order = id :=
  ⟨(h.agree k).mpr (List.mem_of_find?_eq_some hk), by simpa using List.find?_some hk⟩

theorem Tidy.key?_none {b : WaitingBook} (h : b.Tidy) {id : OrderId} (hk : b.key? id = none) :
    ∀ x ∈ b.ordered, x.order ≠ id := by
  intro x hx
  have := List.find?_eq_none.mp hk x ((h.agree x).mp hx)
  simpa using this

/-- Taking out the key of an identifier, if there is one, leaves the others in both places. -/
theorem Tidy.without {b : WaitingBook} (h : b.Tidy) {id : OrderId} {k : IndexKey}
    (hk : b.key? id = some k) :
    Tidy ⟨k.eraseFrom b.ordered, b.members.filter (·.order != id)⟩ := by
  obtain ⟨hmem, rfl⟩ := h.key?_some hk
  refine ⟨fun x => ?_, (List.filter_sublist.map _).nodup h.nodup⟩
  rw [IndexKey.mem_eraseFrom h.nodup hmem, List.mem_filter, bne_iff_ne, h.agree]

theorem Tidy.remove {b : WaitingBook} (h : b.Tidy) (id : OrderId) : (b.remove id).2.Tidy := by
  unfold WaitingBook.remove
  cases hk : b.key? id with
  | none => exact h
  | some k => exact h.without hk

/-- An identifier that is new to a tidy book can be added to it. -/
theorem Tidy.insert {b : WaitingBook} (h : b.Tidy) {k : IndexKey}
    (hnew : ∀ x ∈ b.ordered, x.order ≠ k.order) :
    Tidy ⟨k.insertInto b.ordered, k :: b.members⟩ := by
  have hperm := IndexKey.insertInto_perm hnew
  refine ⟨fun x => ?_, ?_⟩
  · rw [hperm.mem_iff, List.mem_cons, List.mem_cons, h.agree]
  · refine ((hperm.map _).nodup_iff).mpr (List.nodup_cons.mpr ⟨?_, h.nodup⟩)
    intro hin
    obtain ⟨x, hx, horder⟩ := List.mem_map.mp hin
    exact hnew x hx horder

theorem Tidy.enqueue {b : WaitingBook} (h : b.Tidy) (k : IndexKey) : (b.enqueue k).Tidy := by
  unfold WaitingBook.enqueue
  cases hk : b.key? k.order with
  | none =>
      have hnew := h.key?_none hk
      have hmembers : b.members.filter (·.order != k.order) = b.members := by
        refine List.filter_eq_self.mpr fun x hx => bne_iff_ne.mpr ?_
        exact hnew x ((h.agree x).mpr hx)
      rw [hmembers]
      exact h.insert hnew
  | some previous =>
      obtain ⟨hmem, horder⟩ := h.key?_some hk
      refine (h.without hk).insert fun x hx => ?_
      rw [← horder]
      exact ((IndexKey.mem_eraseFrom h.nodup hmem).mp hx).2

end WaitingBook

namespace WaitingIndex

/-- All books are tidy. -/
def Tidy (i : WaitingIndex) : Prop := ∀ b ∈ i.books, b.2.Tidy

theorem tidy_empty : empty.Tidy := by
  intro b hb
  cases hb

theorem Tidy.book? {i : WaitingIndex} (h : i.Tidy) {side : Side} {ticker : String}
    {b : WaitingBook} (hb : i.book? side ticker = some b) : b.Tidy := by
  obtain ⟨before, after, hbooks, -⟩ := List.lookup_eq_some_iff.mp hb
  refine h ((side, ticker), b) ?_
  rw [hbooks]
  simp

theorem Tidy.dropBook {i : WaitingIndex} (h : i.Tidy) (side : Side) (ticker : String) :
    (i.dropBook side ticker).Tidy :=
  fun b hb => h b (List.mem_filter.mp hb).1

theorem Tidy.setBook {i : WaitingIndex} (h : i.Tidy) (side : Side) (ticker : String)
    {b : WaitingBook} (hb : b.Tidy) : (i.setBook side ticker b).Tidy := by
  intro x hx
  rcases List.mem_cons.mp hx with rfl | hin
  · exact hb
  · exact h.dropBook side ticker x hin

/-- **No call on the index makes it untidy.** -/
theorem Tidy.perform {i : WaitingIndex} (h : i.Tidy) (c : IndexCall) : (i.perform c).2.Tidy := by
  cases c with
  | list | tickers | size => exact h
  | enqueue side ticker id price =>
      refine h.setBook side ticker (WaitingBook.Tidy.enqueue ?_ _)
      cases hb : i.book? side ticker with
      | none => exact WaitingBook.tidy_empty
      | some b => exact h.book? hb
  | remove side ticker id =>
      show (i.remove side ticker id).2.Tidy
      unfold WaitingIndex.remove
      cases hb : i.book? side ticker with
      | none => exact h
      | some b =>
          dsimp only
          split
          · exact h.dropBook side ticker
          · exact h.setBook side ticker ((h.book? hb).remove id)

/-- The index after some calls. -/
def performAll (i : WaitingIndex) (calls : List IndexCall) : WaitingIndex :=
  calls.foldl (fun i c => (i.perform c).2) i

/-- Any calls at all leave a tidy index tidy. -/
theorem Tidy.performAll {i : WaitingIndex} (h : i.Tidy) (calls : List IndexCall) :
    (i.performAll calls).Tidy := by
  induction calls generalizing i with
  | nil => exact h
  | cons c calls ih => exact ih (h.perform c)

/-- A tidy index lists no identifier twice. -/
theorem Tidy.nodup_waiting {i : WaitingIndex} (h : i.Tidy) (side : Side) (ticker : String) :
    (i.waiting side ticker).Nodup := by
  unfold waiting
  cases hb : i.book? side ticker with
  | none => exact List.nodup_nil
  | some b => exact (h.book? hb).nodup

end WaitingIndex

end Bourse
