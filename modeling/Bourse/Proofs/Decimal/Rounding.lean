/-
What `fit` does to a number that has too many digits.

`fit` drops digits and rounds half to even, and three facts about it carry every
argument on amounts.  The result is within half a step of the exact number, a step
being one unit in its last place.  Digits are dropped only if need be, so a number
that would fit exactly at a smaller scale is left exact.  And no decimal lies
strictly between a number and its rounding: one that did would need a finer step
than the rounding had, and a finer step does not reach that far.

The third fact is the one that is easy to get wrong.  A rounding can carry into a
mantissa that is just too large, and then one more digit goes; `FitsAs.needed` is
stated so that it covers that case as well.
-/
import Bourse.Decimal.Arith
import Mathlib.Tactic.Linarith
import Mathlib.Tactic.Ring

namespace Bourse

theorem tenTo_le {m n : Nat} (h : m ≤ n) : tenTo m ≤ tenTo n :=
  Nat.pow_le_pow_right (by decide) h

theorem tenTo_dvd {m n : Nat} (h : m ≤ n) : tenTo m ∣ tenTo n := Nat.pow_dvd_pow 10 h

theorem tenTo_split {m n : Nat} (h : m ≤ n) : tenTo n = tenTo (n - m) * tenTo m := by
  rw [← tenTo_add, Nat.sub_add_cancel h]

theorem tenTo_split_cast {m n : Nat} (h : m ≤ n) : (tenTo n : Int) = tenTo (n - m) * tenTo m := by
  rw [tenTo_split h, Int.natCast_mul]

theorem tenTo_cast_ne_zero (n : Nat) : (tenTo n : Int) ≠ 0 := by exact_mod_cast (tenTo_pos n).ne'

namespace Decimal

theorem limit_eq : limit = 79228162514264337593543950336 := rfl

/-! ### Rounding a quotient -/

/-- A rounded quotient is within half a divisor of the exact one. -/
theorem divHalfEven_near (n : Nat) {d : Nat} (hd : 0 < d) :
    2 * (divHalfEven n d * d) ≤ 2 * n + d ∧ 2 * n ≤ 2 * (divHalfEven n d * d) + d := by
  have hn : d * (n / d) + n % d = n := Nat.div_add_mod n d
  have hr : n % d < d := Nat.mod_lt n hd
  have hq : n / d * d = d * (n / d) := Nat.mul_comm _ _
  have hq1 : (n / d + 1) * d = d * (n / d) + d := by rw [Nat.add_mul, hq, Nat.one_mul]
  unfold divHalfEven
  by_cases hlow : 2 * (n % d) < d
  · simp only [if_pos hlow]
    rw [hq]
    omega
  · simp only [if_neg hlow]
    by_cases hhigh : d < 2 * (n % d)
    · simp only [if_pos hhigh]
      rw [hq1]
      omega
    · simp only [if_neg hhigh]
      by_cases heven : n / d % 2 = 0
      · simp only [if_pos heven]
        rw [hq]
        omega
      · simp only [if_neg heven]
        rw [hq1]
        omega

theorem divHalfEven_le (n d : Nat) : divHalfEven n d ≤ n / d + 1 := by
  unfold divHalfEven
  dsimp only
  split
  · omega
  · split
    · omega
    · split <;> omega

/-- A quotient without a remainder is not rounded. -/
theorem divHalfEven_mul {d : Nat} (hd : 0 < d) (m : Nat) : divHalfEven (m * d) d = m := by
  have hr : m * d % d = 0 := Nat.mul_mod_left m d
  unfold divHalfEven
  rw [hr, Nat.mul_div_cancel m hd]
  simp [hd]

/-! ### How many digits are too many -/

/-- Dropping the surplus digits leaves a mantissa. -/
theorem div_surplusDigits_lt (n : Nat) : n / tenTo (surplusDigits n) < limit := by
  induction n using Nat.strong_induction_on with
  | _ n ih =>
      rw [surplusDigits]
      by_cases h : n < limit
      · rw [if_pos h]
        simpa using h
      · rw [if_neg h]
        have hlt : n / 10 < n := Nat.div_lt_self (by rw [limit_eq] at h; omega) (by decide)
        have := ih _ hlt
        rwa [tenTo_succ, Nat.mul_comm, ← Nat.div_div_eq_div_mul]

/-- No more digits are surplus than have to go. -/
theorem surplusDigits_le : ∀ {n t : Nat}, n / tenTo t < limit → surplusDigits n ≤ t := by
  intro n
  induction n using Nat.strong_induction_on with
  | _ n ih =>
      intro t h
      rw [surplusDigits]
      by_cases hn : n < limit
      · rw [if_pos hn]
        exact Nat.zero_le t
      · rw [if_neg hn]
        have hlt : n / 10 < n := Nat.div_lt_self (by rw [limit_eq] at hn; omega) (by decide)
        cases t with
        | zero => exact absurd (by simpa using h) hn
        | succ t =>
            rw [tenTo_succ, Nat.mul_comm, ← Nat.div_div_eq_div_mul] at h
            exact Nat.succ_le_succ (ih _ hlt h)

/-- With one digit fewer dropped, the number would still be too large. -/
theorem limit_le_of_surplusDigits {n t : Nat} (h : surplusDigits n = t + 1) :
    limit * tenTo t ≤ n := by
  by_contra hc
  have hlt : n / tenTo t < limit := (Nat.div_lt_iff_lt_mul (tenTo_pos t)).mpr (by omega)
  have := surplusDigits_le hlt
  omega

/-! ### Fitting -/

/--
What becomes of `n` at `scale` when its last `drop` digits are given up: `m` at
scale `s`.
-/
structure FitsAs (n scale m s drop : Nat) : Prop where
  scale_eq : scale = s + drop
  scale_le : s ≤ 28
  lt_limit : m < limit
  /-- The result is at most half a step too large. -/
  le_exact : 2 * (m * tenTo drop) ≤ 2 * n + tenTo drop
  /-- The result is at most half a step too small. -/
  exact_le : 2 * n ≤ 2 * (m * tenTo drop) + tenTo drop
  /-- Digits beyond the last place are given up anyway; others only if need be. -/
  needed : drop = scale - 28 ∨ (2 * limit - 1) * tenTo drop ≤ 20 * n ∧ limit ≤ 10 * m

/-- Dropping the surplus digits and rounding, when the result is a mantissa. -/
theorem fitsAs_of_lt {n scale drop : Nat}
    (hdrop : drop = (scale - 28) + surplusDigits (n / tenTo (scale - 28)))
    (hscale : drop ≤ scale) (hlt : divHalfEven n (tenTo drop) < limit) :
    FitsAs n scale (divHalfEven n (tenTo drop)) (scale - drop) drop := by
  obtain ⟨hle, hge⟩ := divHalfEven_near n (tenTo_pos drop)
  refine ⟨by omega, by omega, hlt, hle, hge, ?_⟩
  cases ht : surplusDigits (n / tenTo (scale - 28)) with
  | zero => exact Or.inl (by omega)
  | succ t =>
      right
      have hsurplus := limit_le_of_surplusDigits ht
      have hn : limit * tenTo t * tenTo (scale - 28) ≤ n :=
        (Nat.le_div_iff_mul_le (tenTo_pos _)).mp hsurplus
      have hstep : tenTo drop = 10 * (tenTo t * tenTo (scale - 28)) := by
        rw [hdrop, ht, ← Nat.add_assoc, tenTo_succ, tenTo_add]
        ring
      have hpos : 0 < tenTo t * tenTo (scale - 28) := Nat.mul_pos (tenTo_pos _) (tenTo_pos _)
      rw [Nat.mul_assoc] at hn
      rw [hstep] at hle hge ⊢
      generalize tenTo t * tenTo (scale - 28) = g at *
      generalize divHalfEven n (10 * g) = m at *
      rw [limit_eq] at *
      refine ⟨by omega, ?_⟩
      by_contra hc
      have hm : m ≤ 7922816251426433759354395033 := by omega
      have : m * (10 * g) ≤ 7922816251426433759354395033 * (10 * g) := Nat.mul_le_mul_right _ hm
      omega

/-- Dropping one digit more, when the rounding has carried out of the mantissa. -/
theorem fitsAs_of_carry {n scale drop : Nat}
    (hdrop : drop = (scale - 28) + surplusDigits (n / tenTo (scale - 28)))
    (hscale : drop < scale) (hge : limit ≤ divHalfEven n (tenTo drop)) :
    FitsAs n scale (divHalfEven (divHalfEven n (tenTo drop)) 10) (scale - drop - 1) (drop + 1) := by
  have hsplit : n / tenTo drop = n / tenTo (scale - 28) /
      tenTo (surplusDigits (n / tenTo (scale - 28))) := by
    rw [hdrop, tenTo_add, Nat.div_div_eq_div_mul]
  have hquot : n / tenTo drop < limit := hsplit ▸ div_surplusDigits_lt _
  have hm : divHalfEven n (tenTo drop) = limit := by
    have := divHalfEven_le n (tenTo drop)
    omega
  obtain ⟨hle, -⟩ := divHalfEven_near n (tenTo_pos drop)
  have hn : n < limit * tenTo drop := (Nat.div_lt_iff_lt_mul (tenTo_pos drop)).mp hquot
  rw [hm] at hle ⊢
  have hten : divHalfEven limit 10 = 7922816251426433759354395034 := by decide
  rw [hten]
  have hstep : tenTo (drop + 1) = 10 * tenTo drop := by rw [tenTo_succ, Nat.mul_comm]
  have hpos := tenTo_pos drop
  refine ⟨by omega, by omega, by decide, ?_, ?_, Or.inr ⟨?_, by decide⟩⟩ <;>
    rw [hstep] <;> generalize tenTo drop = g at * <;> rw [limit_eq] at * <;> omega

theorem fit_fitsAs {n scale m s : Nat} (h : fit n scale = some (m, s)) :
    ∃ drop, FitsAs n scale m s drop := by
  obtain ⟨drop, hdrop⟩ : ∃ drop, drop =
      (scale - 28) + surplusDigits (n / tenTo (scale - 28)) := ⟨_, rfl⟩
  unfold fit at h
  simp only [maxScale, ← hdrop] at h
  by_cases hscale : scale < drop
  · simp [hscale] at h
  · rw [if_neg hscale] at h
    by_cases hlt : divHalfEven n (tenTo drop) < limit
    · rw [if_pos hlt] at h
      simp only [Option.some.injEq, Prod.mk.injEq] at h
      obtain ⟨rfl, rfl⟩ := h
      exact ⟨drop, fitsAs_of_lt hdrop (by omega) hlt⟩
    · rw [if_neg hlt] at h
      by_cases hzero : scale - drop = 0
      · simp [hzero] at h
      · rw [if_neg hzero] at h
        simp only [Option.some.injEq, Prod.mk.injEq] at h
        obtain ⟨rfl, rfl⟩ := h
        exact ⟨drop + 1, fitsAs_of_carry hdrop (by omega) (by omega)⟩

/--
A number that would be a mantissa without its last `d` digits, all of them zeros, is
fitted exactly.
-/
theorem fit_exact {j d scale : Nat} (hj : j < limit) (hd : d ≤ scale) (hscale : scale - d ≤ 28) :
    ∃ m s drop, fit (j * tenTo d) scale = some (m, s) ∧ scale = s + drop ∧ s ≤ 28 ∧ m < limit ∧
      m * tenTo drop = j * tenTo d := by
  have hexcess : scale - 28 ≤ d := by omega
  have hquot : j * tenTo d / tenTo (scale - 28) = j * tenTo (d - (scale - 28)) := by
    rw [show tenTo d = tenTo (d - (scale - 28)) * tenTo (scale - 28) by
      rw [← tenTo_add]; congr 1; omega]
    rw [← Nat.mul_assoc, Nat.mul_div_cancel _ (tenTo_pos _)]
  have hsurplus : surplusDigits (j * tenTo (d - (scale - 28))) ≤ d - (scale - 28) :=
    surplusDigits_le (by rwa [Nat.mul_div_cancel _ (tenTo_pos _)])
  obtain ⟨drop, hdrop⟩ : ∃ drop, drop =
      (scale - 28) + surplusDigits (j * tenTo d / tenTo (scale - 28)) := ⟨_, rfl⟩
  have hle : drop ≤ d := by rw [hdrop, hquot]; omega
  have hfactor : j * tenTo d = j * tenTo (d - drop) * tenTo drop := by
    rw [Nat.mul_assoc, ← tenTo_add]; congr 2; omega
  have hround : divHalfEven (j * tenTo d) (tenTo drop) = j * tenTo (d - drop) := by
    rw [hfactor, divHalfEven_mul (tenTo_pos drop)]
  have hlt : divHalfEven (j * tenTo d) (tenTo drop) < limit := by
    have hmantissa := div_surplusDigits_lt (j * tenTo d / tenTo (scale - 28))
    rw [Nat.div_div_eq_div_mul, ← tenTo_add, ← hdrop, hfactor,
      Nat.mul_div_cancel _ (tenTo_pos drop)] at hmantissa
    rwa [hround]
  refine ⟨_, scale - drop, drop, ?_, by omega, by omega, hlt, by rw [hround, ← hfactor]⟩
  unfold fit
  simp only [maxScale, ← hdrop]
  rw [if_neg (by omega), if_pos hlt]

end Decimal

end Bourse
