/-
Orders queue by price, then by age, then by identifier.

`Ahead` says which of two orders is met first in words that do not mention a
comparison, and this file shows that a queue is in that order: every order is ahead of
all that come after it.  Identifiers break the last tie, so between different orders
the rule leaves nothing open and the queue of some orders is the only way to line them
up.
-/
import Bourse.Matching

namespace Bourse

theorem Instant.cmp_eq_iff {a b : Instant} : a.cmp b = .eq ↔ a = b := by
  unfold cmp
  rw [Ordering.then_eq_eq, Ordering.then_eq_eq, Int.compare_eq_eq, Nat.compare_eq_eq,
    Nat.compare_eq_eq]
  refine ⟨fun ⟨⟨hday, hsecond⟩, hnanos⟩ => ?_, fun h => h ▸ ⟨⟨rfl, rfl⟩, rfl⟩⟩
  cases a
  cases b
  simp_all

instance : Std.TransCmp Instant.cmp :=
  inferInstanceAs (Std.TransCmp (compareLex (compareLex (compareOn Instant.day)
    (compareOn Instant.second)) (compareOn Instant.nanos)))

namespace Side

/-- Does an order on `side` rather trade at the first price than at the second? -/
def Prefers (side : Side) (a b : Decimal) : Prop :=
  match side with
  | buy => a < b
  | sell => b < a

/-- Which of two counter orders an order on `side` is to meet first. -/
def Ahead (side : Side) (a b : Order) : Prop :=
  side.Prefers a.price b.price ∨ a.price.units = b.price.units ∧
    (a.createdAt.cmp b.createdAt = .lt ∨ a.createdAt = b.createdAt ∧ a.id < b.id)

private instance age_transCmp : Std.TransCmp fun a b : Order => a.createdAt.cmp b.createdAt where
  eq_swap := Std.OrientedCmp.eq_swap
  isLE_trans := Std.TransCmp.isLE_trans

instance (side : Side) : Std.TransCmp side.priority := by
  cases side with
  | buy =>
      exact inferInstanceAs (Std.TransCmp (compareLex (compareLex
        (compareOn fun o : Order => o.price.units)
        fun a b => a.createdAt.cmp b.createdAt) (compareOn Order.id)))
  | sell =>
      exact inferInstanceAs (Std.TransCmp (compareLex (compareLex
        (fun a b => compareOn (fun o : Order => o.price.units) b a)
        fun a b => a.createdAt.cmp b.createdAt) (compareOn Order.id)))

theorem priority_lt_iff {side : Side} {a b : Order} :
    side.priority a b = .lt ↔ side.Ahead a b := by
  unfold priority Ahead Prefers Decimal.cmp
  cases side with
  | buy =>
      simp only [Ordering.then_eq_lt, Ordering.then_eq_eq, Int.compare_eq_lt, Int.compare_eq_eq,
        Instant.cmp_eq_iff, Decimal.lt_iff]
      grind
  | sell =>
      simp only [Ordering.then_eq_lt, Ordering.then_eq_eq, Int.compare_eq_lt, Int.compare_eq_eq,
        Instant.cmp_eq_iff, Decimal.lt_iff]
      grind

/-- No two orders are each ahead of the other, nor is any order ahead of itself. -/
theorem Ahead.asymm {side : Side} {a b : Order} (h : side.Ahead a b) : ¬ side.Ahead b a :=
  fun h' => Std.OrientedCmp.not_lt_of_lt (priority_lt_iff.mpr h) (priority_lt_iff.mpr h')

theorem Ahead.ne {side : Side} {a b : Order} (h : side.Ahead a b) : a ≠ b := by
  rintro rfl
  exact h.asymm h

theorem Ahead.price_le {a b : Order} (h : buy.Ahead a b) : a.price ≤ b.price := by
  rcases h with hless | ⟨heq, -⟩
  · exact Int.le_of_lt hless
  · exact Int.le_of_eq heq

theorem id_eq_of_priority {side : Side} {a b : Order} (h : side.priority a b = .eq) :
    a.id = b.id := by
  unfold priority at h
  rw [Ordering.then_eq_eq] at h
  exact Int.compare_eq_eq.mp h.2

theorem place_perm (side : Side) (o : Order) (os : List Order) :
    (side.place o os).Perm (o :: os) := by
  induction os with
  | nil => exact List.Perm.refl _
  | cons x xs ih =>
      unfold place
      split
      · exact (ih.cons x).trans (List.Perm.swap o x xs)
      · exact List.Perm.refl _

theorem queue_perm (side : Side) (os : List Order) : (side.queue os).Perm os := by
  induction os with
  | nil => exact List.Perm.refl _
  | cons x xs ih => exact (side.place_perm x _).trans (ih.cons x)

theorem place_sorted {side : Side} {o : Order} {os : List Order}
    (h : os.Pairwise side.Ahead) (hnew : ∀ x ∈ os, x.id ≠ o.id) :
    (side.place o os).Pairwise side.Ahead := by
  induction os with
  | nil => exact List.pairwise_singleton _ _
  | cons x xs ih =>
      rw [List.pairwise_cons] at h
      unfold place
      by_cases hgt : side.priority o x = .gt
      · rw [if_pos hgt, List.pairwise_cons]
        refine ⟨fun y hy => ?_, ih h.2 fun y hy => hnew y (List.mem_cons_of_mem _ hy)⟩
        rcases List.mem_cons.mp ((side.place_perm o xs).mem_iff.mp hy) with rfl | hin
        · exact priority_lt_iff.mp (Std.OrientedCmp.lt_of_gt hgt)
        · exact h.1 y hin
      · rw [if_neg hgt, List.pairwise_cons]
        have hlt : side.priority o x = .lt := by
          cases hcmp : side.priority o x with
          | lt => rfl
          | eq => exact absurd (id_eq_of_priority hcmp).symm (hnew x (by simp))
          | gt => exact absurd hcmp hgt
        refine ⟨fun y hy => priority_lt_iff.mp ?_, List.pairwise_cons.mpr h⟩
        rcases List.mem_cons.mp hy with rfl | hin
        · exact hlt
        · exact Std.TransCmp.lt_trans hlt (priority_lt_iff.mpr (h.1 y hin))

/-- **Orders that are all different queue in the order in which they are to be met.** -/
theorem queue_sorted {side : Side} {os : List Order} (h : (os.map (·.id)).Nodup) :
    (side.queue os).Pairwise side.Ahead := by
  induction os with
  | nil => exact List.Pairwise.nil
  | cons x xs ih =>
      rw [List.map_cons, List.nodup_cons] at h
      refine place_sorted (ih h.2) fun y hy hid => h.1 ?_
      rw [← hid]
      exact List.mem_map_of_mem ((side.queue_perm xs).mem_iff.mp hy)

/-- **Different orders queue in one way only**, however they were lined up before. -/
theorem queue_eq_of_perm {side : Side} {os os' : List Order} (h : os.Perm os')
    (hnodup : (os.map (·.id)).Nodup) : side.queue os = side.queue os' := by
  refine List.Perm.eq_of_pairwise (fun a b _ _ hab hba => absurd hba hab.asymm)
    (queue_sorted hnodup) (queue_sorted ((h.map _).nodup_iff.mp hnodup)) ?_
  exact (side.queue_perm os).trans (h.trans (side.queue_perm os').symm)

end Side

end Bourse
