/-
Products of decimals on a grid.

A product of whole numbers of 10⁻ᵖ and of 10⁻ᵏ is a whole number of 10⁻⁽ᵖ⁺ᵏ⁾, and if that
has no more than 28 places and room in a mantissa, the product is exact, however many
places its factors are written with.  Products of small mantissas with very many places
are given up without looking at them; such a product is no whole number of any step there
is, unless it is nothing.
-/
import Bourse.Proofs.Decimal.Sum

namespace Bourse.Decimal

variable {a b : Decimal} {p k : Nat}

/-- The mantissas multiplied stand at the places of both. -/
theorem units_mul_units (a b : Decimal) :
    a.mantissa * b.mantissa * tenTo (56 - (a.scale + b.scale)) = a.units * b.units := by
  have ha := a.scale_le
  have hb := b.scale_le
  have hsplit : (tenTo (56 - (a.scale + b.scale)) : Int) =
      tenTo (28 - a.scale) * tenTo (28 - b.scale) := by
    rw [← Int.natCast_mul, ← tenTo_add]
    congr 2
    omega
  rw [hsplit]
  unfold units
  ring

/-- The mantissas multiplied, as a number of steps. -/
theorem mantissas_of_steps (hpk : p + k ≤ 28) {j : Int}
    (h : a.units * b.units = j * tenTo (56 - (p + k))) :
    a.mantissa * b.mantissa * tenTo (p + k) = j * tenTo (a.scale + b.scale) := by
  have ha := a.scale_le
  have hb := b.scale_le
  refine Int.eq_of_mul_eq_mul_right (tenTo_cast_ne_zero 56) ?_
  calc a.mantissa * b.mantissa * tenTo (p + k) * tenTo 56
      = a.mantissa * b.mantissa * tenTo (56 - (a.scale + b.scale)) *
          (tenTo (a.scale + b.scale) * tenTo (p + k)) := by
        rw [tenTo_split_cast (show a.scale + b.scale ≤ 56 by omega)]
        ring
    _ = j * tenTo (a.scale + b.scale) * tenTo 56 := by
        rw [units_mul_units, h, tenTo_split_cast (show p + k ≤ 56 by omega)]
        ring

/-- A product that is a number of steps, and not nothing, is not given up unseen. -/
theorem not_small_of_steps (hpk : p + k ≤ 28) {j : Int}
    (h : a.mantissa * b.mantissa * tenTo (p + k) = j * tenTo (a.scale + b.scale))
    (hne : a.mantissa * b.mantissa ≠ 0) :
    ¬ (a.magnitude < twoTo 32 ∧ b.magnitude < twoTo 32 ∧ 47 < a.scale + b.scale) := by
  rintro ⟨ha, hb, hplaces⟩
  have hsplit := tenTo_split (show p + k ≤ a.scale + b.scale by omega)
  -- Beyond the steps there are at least twenty places, and they are zeros.
  have hdvd : tenTo 20 ∣ a.magnitude * b.magnitude := by
    refine (tenTo_dvd (show 20 ≤ a.scale + b.scale - (p + k) by omega)).trans ⟨j.natAbs, ?_⟩
    refine Nat.eq_of_mul_eq_mul_right (tenTo_pos (p + k)) ?_
    have habs := congrArg Int.natAbs h
    rw [Int.natAbs_mul, Int.natAbs_mul, Int.natAbs_mul, Int.natAbs_natCast, Int.natAbs_natCast,
      hsplit] at habs
    calc a.magnitude * b.magnitude * tenTo (p + k)
        = j.natAbs * (tenTo (a.scale + b.scale - (p + k)) * tenTo (p + k)) := habs
      _ = tenTo (a.scale + b.scale - (p + k)) * j.natAbs * tenTo (p + k) := by ring
  have hpos : 0 < a.magnitude * b.magnitude := by
    rw [Nat.pos_iff_ne_zero]
    intro hzero
    refine hne (Int.natAbs_eq_zero.mp ?_)
    rw [Int.natAbs_mul]
    exact hzero
  have hlt : a.magnitude * b.magnitude < tenTo 20 :=
    calc a.magnitude * b.magnitude < twoTo 32 * twoTo 32 := Nat.mul_lt_mul'' ha hb
      _ < tenTo 20 := by decide
  exact absurd (Nat.le_of_dvd hpos hdvd) (Nat.not_le.mpr hlt)

/-- A product that comes to few enough steps is worked out without a loss. -/
theorem mul_of_steps {n : Int} (hpk : p + k ≤ 28)
    (hsteps : a.units * b.units = n * tenTo (56 - (p + k))) (hfits : n.natAbs < limit) :
    ∃ c, a.mul b = some c ∧ c.units * tenTo 28 = a.units * b.units := by
  unfold mul
  by_cases hzero : (a.isZero || b.isZero) = true
  · rw [if_pos hzero]
    refine ⟨zero, rfl, ?_⟩
    rcases Bool.or_eq_true_iff.mp hzero with h | h <;> rw [isZero_iff.mp h] <;> simp
  · rw [if_neg hzero]
    have hne : a.mantissa * b.mantissa ≠ 0 := by
      intro h
      refine hzero (Bool.or_eq_true_iff.mpr ?_)
      simpa [isZero] using Int.mul_eq_zero.mp h
    have hmantissas := mantissas_of_steps hpk hsteps
    rw [if_neg (not_small_of_steps hpk hmantissas hne)]
    obtain ⟨c, hfitted, hc⟩ := fitted_of_steps hpk hfits hmantissas
    refine ⟨c, hfitted, Int.eq_of_mul_eq_mul_right (tenTo_cast_ne_zero 28) ?_⟩
    have := a.scale_le
    have := b.scale_le
    have h56 : (tenTo 28 * tenTo 28 : Int) =
        tenTo (a.scale + b.scale) * tenTo (56 - (a.scale + b.scale)) := by
      rw [← Int.natCast_mul, ← Int.natCast_mul, ← tenTo_add, ← tenTo_add]
      congr 2
      omega
    calc c.units * tenTo 28 * tenTo 28
        = c.units * tenTo (a.scale + b.scale) * tenTo (56 - (a.scale + b.scale)) := by
          rw [Int.mul_assoc, h56, Int.mul_assoc]
      _ = a.mantissa * b.mantissa * tenTo (56 - (a.scale + b.scale)) * tenTo 28 := by
          rw [hc]
          ring
      _ = a.units * b.units * tenTo 28 := by rw [units_mul_units]

/-- The steps of a product, as units of a decimal and as the steps of what is multiplied. -/
theorem tenTo_room (h : p + k ≤ 28) :
    (tenTo (56 - (p + k)) : Int) = tenTo (28 - (p + k)) * tenTo 28 ∧
      (tenTo (56 - (p + k)) : Int) = tenTo (28 - p) * tenTo (28 - k) := by
  constructor
  · rw [tenTo_split_cast (show 28 ≤ 56 - (p + k) by omega),
      show 56 - (p + k) - 28 = 28 - (p + k) by omega]
  · rw [tenTo_split_cast (show 28 - k ≤ 56 - (p + k) by omega),
      show 56 - (p + k) - (28 - k) = 28 - p by omega]

/-- **A product of whole numbers of steps is exact**, if there is room for it. -/
theorem mul_exact (hpk : p + k ≤ 28) (ha : (tenTo (28 - p) : Int) ∣ a.units)
    (hb : (tenTo (28 - k) : Int) ∣ b.units)
    (hroom : (a.units * b.units).natAbs < limit * tenTo (56 - (p + k))) :
    ∃ c, a.mul b = some c ∧ OnGrid (p + k) c.units ∧ c.units * tenTo 28 = a.units * b.units := by
  obtain ⟨i, hi⟩ := ha
  obtain ⟨j, hj⟩ := hb
  have hsteps : a.units * b.units = i * j * tenTo (56 - (p + k)) := by
    rw [hi, hj, (tenTo_room hpk).2]
    ring
  have hfits : (i * j).natAbs < limit := by
    rw [hsteps, Int.natAbs_mul, Int.natAbs_natCast] at hroom
    exact Nat.lt_of_mul_lt_mul_right hroom
  obtain ⟨c, hmul, hc⟩ := mul_of_steps hpk hsteps hfits
  -- What is a whole number of steps is on the grid, once the value is right.
  refine ⟨c, hmul, ⟨i * j, hfits, Int.eq_of_mul_eq_mul_right (tenTo_cast_ne_zero 28) ?_⟩, hc⟩
  rw [hc, hsteps, (tenTo_room hpk).1]
  ring

end Bourse.Decimal
