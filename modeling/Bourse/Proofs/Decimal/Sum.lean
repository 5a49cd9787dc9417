/-
Sums of decimals, in units of 10⁻²⁸.

A sum is exact or it is rounded, and `RoundsTo` says how the two sides hang together.
Two consequences are what the amounts of orders rest on.  A sum that lies on a grid
some decimal scale can hold is exact, whatever the scales of the summands are.  And a
rounding never passes a decimal: whatever decimal bounds the exact sum bounds the
rounded one too.
-/
import Bourse.Proofs.Decimal.Rounding

namespace Bourse.Decimal

/-! ### The units of a decimal that was put together -/

theorem ofParts?_of_lt (negative : Bool) {m s : Nat} (hm : m < limit) (hs : s ≤ 28) :
    ∃ c, ofParts? negative m s = some c ∧
      c.units = (if negative then -(m : Int) else m) * tenTo (28 - s) := by
  unfold ofParts?
  rw [dif_pos ⟨hm, hs⟩]
  exact ⟨_, rfl, rfl⟩

theorem units_of_ofParts? {negative : Bool} {m s : Nat} {c : Decimal}
    (h : ofParts? negative m s = some c) :
    c.units = (if negative then -(m : Int) else m) * tenTo (28 - s) := by
  unfold ofParts? at h
  split at h
  · simp only [Option.some.injEq] at h
    subst h
    rfl
  · simp at h

/-- The magnitude of a decimal's units is a mantissa times a power of ten. -/
theorem natAbs_units (a : Decimal) : a.units.natAbs = a.magnitude * tenTo (28 - a.scale) := by
  unfold units magnitude
  rw [Int.natAbs_mul, Int.natAbs_natCast]

theorem positive_iff {a : Decimal} : a.positive = true ↔ 0 < a.units := by
  have hpos : (0 : Int) < tenTo (28 - a.scale) := by exact_mod_cast tenTo_pos _
  unfold positive units
  rw [decide_eq_true_iff]
  exact (mul_pos_iff_of_pos_right hpos).symm

theorem isZero_iff {a : Decimal} : a.isZero = true ↔ a.units = 0 := by
  rw [units_eq_zero_iff]
  simp [isZero]

theorem units_least (a b : Decimal) : (a.least b).units = min a.units b.units := by
  unfold least
  by_cases h : b < a
  · rw [if_pos h]
    exact (min_eq_right (Int.le_of_lt (lt_iff.mp h))).symm
  · rw [if_neg h]
    exact (min_eq_left (Int.not_lt.mp (fun hc => h (lt_iff.mpr hc)))).symm

/-- Two decimals brought to a common scale and added. -/
theorem units_add_units (a b : Decimal) :
    (a.mantissa * tenTo (max a.scale b.scale - a.scale) +
      b.mantissa * tenTo (max a.scale b.scale - b.scale)) * tenTo (28 - max a.scale b.scale) =
      a.units + b.units := by
  have common : ∀ c : Decimal, c.scale ≤ max a.scale b.scale →
      c.mantissa * tenTo (max a.scale b.scale - c.scale) * tenTo (28 - max a.scale b.scale) =
        c.units := by
    intro c hc
    have hscale : max a.scale b.scale ≤ 28 := max_le a.scale_le b.scale_le
    have hsplit : tenTo (28 - c.scale) =
        tenTo (max a.scale b.scale - c.scale) * tenTo (28 - max a.scale b.scale) := by
      rw [← tenTo_add]; congr 1; omega
    unfold units
    rw [hsplit, Int.natCast_mul, Int.mul_assoc]
  rw [Int.add_mul, common a (le_max_left _ _), common b (le_max_right _ _)]

/-! ### What a sum is rounded to -/

/--
`c` is what `u` is rounded to, both in units and without a sign.  The step `10 ^ q` is
so coarse, unless the number is exact, that neither can be written with a finer one.
-/
structure Near (u c q : Nat) : Prop where
  dvd : tenTo q ∣ c
  le_exact : 2 * c ≤ 2 * u + tenTo q
  exact_le : 2 * u ≤ 2 * c + tenTo q
  coarse : q = 0 ∨ (2 * limit - 1) * tenTo q ≤ 20 * u ∧ limit * tenTo q ≤ 10 * c

theorem Near.refl (u : Nat) : Near u u 0 := ⟨by simp, by omega, by omega, Or.inl rfl⟩

theorem Near.eq_of_zero {u c : Nat} (h : Near u c 0) : c = u := by
  have h1 := h.le_exact
  have h2 := h.exact_le
  rw [tenTo_zero] at h1 h2
  omega

/-- Fitting rounds, at a scale that a decimal can have. -/
theorem FitsAs.near {n scale m s drop : Nat} (hf : FitsAs n scale m s drop)
    (hscale : scale ≤ 28) : ∃ q, Near (n * tenTo (28 - scale)) (m * tenTo (28 - s)) q := by
  -- In units, the mantissa stands at the step of its own last place.
  have hstep : tenTo (28 - s) = tenTo drop * tenTo (28 - scale) := by
    rw [← tenTo_add]; congr 1; have := hf.scale_eq; omega
  rcases hf.needed with hdrop | ⟨hexact, hmantissa⟩
  · have hzero : drop = 0 := by omega
    have h1 := hf.le_exact
    have h2 := hf.exact_le
    rw [hzero] at h1 h2 hstep
    rw [tenTo_zero] at h1 h2 hstep
    have hm : m = n := by omega
    refine ⟨0, ?_⟩
    rw [hm, hstep, Nat.one_mul]
    exact Near.refl _
  · refine ⟨28 - s, Nat.dvd_mul_left _ _, ?_, ?_, Or.inr ⟨?_, ?_⟩⟩
    · rw [hstep]
      calc 2 * (m * (tenTo drop * tenTo (28 - scale)))
          = 2 * (m * tenTo drop) * tenTo (28 - scale) := by ring
        _ ≤ (2 * n + tenTo drop) * tenTo (28 - scale) := Nat.mul_le_mul_right _ hf.le_exact
        _ = 2 * (n * tenTo (28 - scale)) + tenTo drop * tenTo (28 - scale) := by ring
    · rw [hstep]
      calc 2 * (n * tenTo (28 - scale))
          = 2 * n * tenTo (28 - scale) := by ring
        _ ≤ (2 * (m * tenTo drop) + tenTo drop) * tenTo (28 - scale) :=
            Nat.mul_le_mul_right _ hf.exact_le
        _ = 2 * (m * (tenTo drop * tenTo (28 - scale))) + tenTo drop * tenTo (28 - scale) := by
            ring
    · rw [hstep]
      calc (2 * limit - 1) * (tenTo drop * tenTo (28 - scale))
          = (2 * limit - 1) * tenTo drop * tenTo (28 - scale) := by ring
        _ ≤ 20 * n * tenTo (28 - scale) := Nat.mul_le_mul_right _ hexact
        _ = 20 * (n * tenTo (28 - scale)) := by ring
    · calc limit * tenTo (28 - s) ≤ 10 * m * tenTo (28 - s) := Nat.mul_le_mul_right _ hmantissa
        _ = 10 * (m * tenTo (28 - s)) := by ring

/-- `c` is what a sum of `u` units is rounded to. -/
structure RoundsTo (u : Int) (c : Decimal) : Prop where
  nonneg : 0 ≤ u → 0 ≤ c.units
  nonpos : u ≤ 0 → c.units ≤ 0
  near : ∃ q, Near u.natAbs c.units.natAbs q

theorem RoundsTo.refl (c : Decimal) : RoundsTo c.units c := ⟨id, id, 0, Near.refl _⟩

/-- A sum at a common scale is rounded when it is fitted. -/
theorem fitted_roundsTo {n : Int} {scale : Nat} {c : Decimal} (hscale : scale ≤ 28)
    (h : fitted n scale = some c) : RoundsTo (n * tenTo (28 - scale)) c := by
  unfold fitted at h
  simp only [Option.bind_eq_bind, Option.bind_eq_some_iff] at h
  obtain ⟨⟨m, s⟩, hfit, hparts⟩ := h
  obtain ⟨drop, hf⟩ := fit_fitsAs hfit
  obtain ⟨q, hq⟩ := hf.near hscale
  have hc : c.units = (if decide (n < 0) then -(m : Int) else m) * tenTo (28 - s) :=
    units_of_ofParts? hparts
  have hpos : (0 : Int) < tenTo (28 - scale) := by exact_mod_cast tenTo_pos _
  have hmag : (0 : Int) ≤ m * tenTo (28 - s) :=
    Int.mul_nonneg (Int.natCast_nonneg _) (Int.natCast_nonneg _)
  have hcabs : c.units.natAbs = m * tenTo (28 - s) := by
    rw [hc]
    split <;> simp [Int.natAbs_mul]
  have huabs : (n * tenTo (28 - scale)).natAbs = n.natAbs * tenTo (28 - scale) := by
    rw [Int.natAbs_mul, Int.natAbs_natCast]
  have hnear : Near (n * tenTo (28 - scale)).natAbs c.units.natAbs q := by
    rwa [hcabs, huabs]
  refine ⟨?_, ?_, q, hnear⟩
  · intro hu
    have hn : 0 ≤ n := Int.nonneg_of_mul_nonneg_left hu hpos
    rw [hc, if_neg (by simpa using hn)]
    exact hmag
  · intro hu
    by_cases hn : n < 0
    · rw [hc, if_pos (by simpa using hn), Int.neg_mul]
      exact Int.neg_nonpos_of_nonneg hmag
    · have hn0 : n = 0 := by
        have := Int.nonpos_of_mul_nonpos_left hu hpos
        omega
      -- Nothing is rounded to nothing.
      subst hn0
      have hq0 : q = 0 := by
        rcases hnear.coarse with h0 | ⟨h1, -⟩
        · exact h0
        · have := tenTo_pos q
          rw [limit_eq] at h1
          simp at h1
          omega
      subst hq0
      have := hnear.eq_of_zero
      simp at this
      omega

/-- A sum is rounded from the exact one. -/
theorem add_roundsTo {a b c : Decimal} (h : a.add b = some c) :
    RoundsTo (a.units + b.units) c := by
  unfold add at h
  by_cases ha : a.isZero = true
  · rw [if_pos ha, Option.some.injEq] at h
    subst h
    rw [isZero_iff.mp ha, Int.zero_add]
    exact RoundsTo.refl b
  · rw [if_neg ha] at h
    by_cases hb : b.isZero = true
    · rw [if_pos hb, Option.some.injEq] at h
      subst h
      rw [isZero_iff.mp hb, Int.add_zero]
      exact RoundsTo.refl a
    · rw [if_neg hb] at h
      have hscale : max a.scale b.scale ≤ 28 := max_le a.scale_le b.scale_le
      have := fitted_roundsTo hscale h
      rwa [units_add_units] at this

theorem units_sub (a b : Decimal) : a.units + b.neg.units = a.units - b.units := by
  rw [units_neg]
  rfl

/-- A difference is rounded from the exact one. -/
theorem sub_roundsTo {a b c : Decimal} (h : a.sub b = some c) :
    RoundsTo (a.units - b.units) c := by
  rw [← units_sub]
  exact add_roundsTo h

/-! ### A rounding never passes a decimal -/

/-- A decimal that is as large as something rounded to a step is a multiple of that step. -/
theorem dvd_natAbs_units (d : Decimal) {q : Nat}
    (h : (2 * limit - 1) * tenTo q ≤ 20 * d.units.natAbs) : tenTo q ∣ d.units.natAbs := by
  rw [natAbs_units] at h ⊢
  refine Dvd.dvd.mul_left (tenTo_dvd ?_) _
  by_contra hc
  have hstep : 10 * tenTo (28 - d.scale) ≤ tenTo q := by
    have := tenTo_le (show 28 - d.scale + 1 ≤ q by omega)
    rwa [tenTo_succ, Nat.mul_comm] at this
  have hmag : d.magnitude ≤ limit - 1 := Nat.le_sub_one_of_lt d.mantissa_lt
  have : d.magnitude * tenTo (28 - d.scale) ≤ (limit - 1) * tenTo (28 - d.scale) :=
    Nat.mul_le_mul_right _ hmag
  have := tenTo_pos q
  rw [limit_eq] at *
  omega

theorem Near.le_of_le {u c q : Nat} (h : Near u c q) {d : Decimal} (hd : u ≤ d.units.natAbs) :
    c ≤ d.units.natAbs := by
  rcases h.coarse with rfl | ⟨hexact, -⟩
  · rwa [h.eq_of_zero]
  · by_contra hc
    have hdvd : tenTo q ∣ d.units.natAbs := dvd_natAbs_units d (by omega)
    have := Nat.le_of_dvd (by omega) (Nat.dvd_sub h.dvd hdvd)
    have := h.le_exact
    have := tenTo_pos q
    omega

theorem Near.ge_of_ge {u c q : Nat} (h : Near u c q) {d : Decimal} (hd : d.units.natAbs ≤ u) :
    d.units.natAbs ≤ c := by
  rcases h.coarse with rfl | ⟨-, hmantissa⟩
  · rwa [h.eq_of_zero]
  · by_contra hc
    have hcoarse : (2 * limit - 1) * tenTo q ≤ 20 * d.units.natAbs := by
      have := Nat.mul_le_mul_right (tenTo q) (Nat.sub_le (2 * limit) 1)
      rw [Nat.mul_assoc] at this
      omega
    have := Nat.le_of_dvd (by omega) (Nat.dvd_sub (dvd_natAbs_units d hcoarse) h.dvd)
    have := h.exact_le
    have := tenTo_pos q
    omega

/-- **A sum that a decimal bounds is bounded by it once it is rounded.** -/
theorem RoundsTo.le {u : Int} {c : Decimal} (h : RoundsTo u c) {d : Decimal}
    (hd : u ≤ d.units) : c.units ≤ d.units := by
  obtain ⟨q, hq⟩ := h.near
  rcases Int.le_total 0 u with hu | hu
  · have := h.nonneg hu
    have := hq.le_of_le (d := d) (by omega)
    omega
  · have := h.nonpos hu
    rcases Int.le_total 0 d.units with hd0 | hd0
    · omega
    · have := hq.ge_of_ge (d := d) (by omega)
      omega

/-- The same from below. -/
theorem RoundsTo.ge {u : Int} {c : Decimal} (h : RoundsTo u c) {d : Decimal}
    (hd : d.units ≤ u) : d.units ≤ c.units := by
  obtain ⟨q, hq⟩ := h.near
  rcases Int.le_total 0 u with hu | hu
  · have := h.nonneg hu
    rcases Int.le_total 0 d.units with hd0 | hd0
    · have := hq.ge_of_ge (d := d) (by omega)
      omega
    · omega
  · have := h.nonpos hu
    have := hq.le_of_le (d := d) (by omega)
    omega

/-- A rounding keeps the sign: what is less than nothing is not rounded to nothing. -/
theorem RoundsTo.nonneg_iff {u : Int} {c : Decimal} (h : RoundsTo u c) :
    0 ≤ c.units ↔ 0 ≤ u := by
  refine ⟨fun hc => ?_, h.nonneg⟩
  by_contra hu
  obtain ⟨d, hd⟩ : ∃ d : Decimal, d.units = -1 := ⟨⟨-1, 28, by decide, by decide⟩, by decide⟩
  have := h.le (d := d) (by omega)
  omega

/-! ### Sums on a grid are exact -/

/-- `u` units are a whole number of `10 ^ -k` with room for it in a mantissa. -/
def OnGrid (k : Nat) (u : Int) : Prop :=
  ∃ j : Int, j.natAbs < limit ∧ u = j * tenTo (28 - k)

theorem OnGrid.dvd {k : Nat} {u : Int} (h : OnGrid k u) : (tenTo (28 - k) : Int) ∣ u := by
  obtain ⟨j, -, rfl⟩ := h
  exact Int.dvd_mul_left _ _

/-- What is a whole number of steps and no larger than something on the grid is on it. -/
theorem OnGrid.of_dvd {k : Nat} {u v : Int} (hv : OnGrid k v) (hdvd : (tenTo (28 - k) : Int) ∣ u)
    (hle : u.natAbs ≤ v.natAbs) : OnGrid k u := by
  obtain ⟨i, hi, rfl⟩ := hv
  obtain ⟨j, rfl⟩ := hdvd
  refine ⟨j, ?_, Int.mul_comm _ _⟩
  rw [Int.natAbs_mul, Int.natAbs_mul, Int.natAbs_natCast, Nat.mul_comm] at hle
  exact Nat.lt_of_le_of_lt (Nat.le_of_mul_le_mul_right hle (tenTo_pos _)) hi

/-- A decimal with at most `k` places is on the grid, if there is room for it. -/
theorem OnGrid.of_scale {k : Nat} {a : Decimal} (hscale : a.scale ≤ k) (hk : k ≤ 28)
    (hroom : a.magnitude * tenTo (k - a.scale) < limit) : OnGrid k a.units := by
  refine ⟨a.mantissa * tenTo (k - a.scale), ?_, ?_⟩
  · rw [Int.natAbs_mul, Int.natAbs_natCast]
    exact hroom
  · have hsplit : tenTo (28 - a.scale) = tenTo (k - a.scale) * tenTo (28 - k) := by
      rw [← tenTo_add]; congr 1; omega
    unfold units
    rw [hsplit, Int.natCast_mul, Int.mul_assoc]

/--
A number that is a whole number of `10 ^ -k`, with room for it in a mantissa, is fitted
exactly, whatever scale it is found at.
-/
theorem fitted_of_steps {k : Nat} (hk : k ≤ 28) {n j : Int} {scale : Nat}
    (hj : j.natAbs < limit) (h : n * tenTo k = j * tenTo scale) :
    ∃ c, fitted n scale = some c ∧ c.units * tenTo scale = n * tenTo 28 := by
  -- The digits of `n` beyond the grid are zeros.
  obtain ⟨i, d, hi, hd, hd28, hn⟩ : ∃ (i d : Nat), i < limit ∧ d ≤ scale ∧ scale - d ≤ 28 ∧
      n.natAbs = i * tenTo d := by
    have habs : n.natAbs * tenTo k = j.natAbs * tenTo scale := by
      have := congrArg Int.natAbs h
      rwa [Int.natAbs_mul, Int.natAbs_mul, Int.natAbs_natCast, Int.natAbs_natCast] at this
    rcases Nat.le_total scale k with hle | hle
    · refine ⟨n.natAbs, 0, ?_, by omega, by omega, by simp⟩
      rw [tenTo_split hle, ← Nat.mul_assoc] at habs
      have hnj := Nat.eq_of_mul_eq_mul_right (tenTo_pos _) habs
      rw [← hnj] at hj
      exact Nat.lt_of_le_of_lt (Nat.le_mul_of_pos_right _ (tenTo_pos _)) hj
    · refine ⟨j.natAbs, scale - k, hj, by omega, by omega, ?_⟩
      rw [tenTo_split hle, ← Nat.mul_assoc] at habs
      exact Nat.eq_of_mul_eq_mul_right (tenTo_pos _) habs
  obtain ⟨m, s, drop, hfit, hs, hs28, hm, hexact⟩ := fit_exact hi hd hd28
  obtain ⟨c, hc, hcu⟩ := ofParts?_of_lt (decide (n < 0)) hm hs28
  refine ⟨c, ?_, ?_⟩
  · unfold fitted
    rw [hn, hfit]
    exact hc
  · have hstep : (tenTo (28 - s) * tenTo scale : Int) = tenTo drop * tenTo 28 := by
      rw [← Int.natCast_mul, ← Int.natCast_mul, ← tenTo_add, ← tenTo_add]
      congr 2
      omega
    have hmn : (m : Int) * tenTo drop = n.natAbs := by
      rw [hn]
      exact_mod_cast hexact
    rw [hcu, Int.mul_assoc, hstep, ← Int.mul_assoc]
    congr 1
    by_cases hneg : n < 0
    · rw [if_pos (by simpa using hneg), Int.neg_mul, hmn]
      omega
    · rw [if_neg (by simpa using hneg), hmn]
      omega

/-- A sum on a grid is fitted exactly. -/
theorem fitted_exact {k : Nat} (hk : k ≤ 28) {n : Int} {scale : Nat} (hscale : scale ≤ 28)
    (h : OnGrid k (n * tenTo (28 - scale))) :
    ∃ c, fitted n scale = some c ∧ c.units = n * tenTo (28 - scale) := by
  obtain ⟨j, hj, hgrid⟩ := h
  have hsteps : n * tenTo k = j * tenTo scale := by
    refine Int.eq_of_mul_eq_mul_right (tenTo_cast_ne_zero 28) ?_
    calc n * tenTo k * tenTo 28 = n * tenTo (28 - scale) * (tenTo k * tenTo scale) := by
          rw [tenTo_split_cast hscale]; ring
      _ = j * tenTo scale * tenTo 28 := by rw [hgrid, tenTo_split_cast hk]; ring
  obtain ⟨c, hc, hunits⟩ := fitted_of_steps hk hj hsteps
  refine ⟨c, hc, Int.eq_of_mul_eq_mul_right (tenTo_cast_ne_zero scale) ?_⟩
  rw [hunits, tenTo_split_cast hscale, Int.mul_assoc]

/-- **A sum that lies on a grid is there, and exact.** -/
theorem add_exact {k : Nat} (hk : k ≤ 28) {a b : Decimal} (h : OnGrid k (a.units + b.units)) :
    ∃ c, a.add b = some c ∧ c.units = a.units + b.units := by
  unfold add
  by_cases ha : a.isZero = true
  · rw [if_pos ha, isZero_iff.mp ha, Int.zero_add]
    exact ⟨b, rfl, rfl⟩
  · rw [if_neg ha]
    by_cases hb : b.isZero = true
    · rw [if_pos hb, isZero_iff.mp hb, Int.add_zero]
      exact ⟨a, rfl, rfl⟩
    · rw [if_neg hb]
      have hscale : max a.scale b.scale ≤ 28 := max_le a.scale_le b.scale_le
      rw [← units_add_units] at h ⊢
      exact fitted_exact hk hscale h

theorem sub_exact {k : Nat} (hk : k ≤ 28) {a b : Decimal} (h : OnGrid k (a.units - b.units)) :
    ∃ c, a.sub b = some c ∧ c.units = a.units - b.units := by
  rw [← units_sub] at h ⊢
  exact add_exact hk h

/-! ### Sums of many -/

/-- `u` units are a whole number of `10 ^ -k`, and not less than nothing. -/
structure Whole (k : Nat) (u : Int) : Prop where
  nonneg : 0 ≤ u
  dvd : (tenTo (28 - k) : Int) ∣ u

namespace Whole

variable {k : Nat} {u v : Int}

theorem zero (k : Nat) : Whole k 0 := ⟨Int.le_refl 0, Int.dvd_zero _⟩

theorem add (hu : Whole k u) (hv : Whole k v) : Whole k (u + v) :=
  ⟨Int.add_nonneg hu.nonneg hv.nonneg, Int.dvd_add hu.dvd hv.dvd⟩

theorem sum {us : List Int} (h : ∀ u ∈ us, Whole k u) : Whole k us.sum := by
  induction us with
  | nil => exact .zero k
  | cons u us ih =>
      obtain ⟨hu, hus⟩ := List.forall_mem_cons.mp h
      exact hu.add (ih hus)

/-- There is room for part of what there is room for. -/
theorem onGrid (hu : Whole k u) (hle : u ≤ v) (hv : OnGrid k v) : OnGrid k u := by
  refine hv.of_dvd hu.dvd ?_
  have := hu.nonneg
  omega

end Whole

/-- Added one after the other, whole numbers of steps are exact if there is room for all. -/
theorem foldlM_add_exact {k : Nat} (hk : k ≤ 28) {as : List Decimal} {start : Decimal}
    (hstart : Whole k start.units) (has : ∀ a ∈ as, Whole k a.units)
    (hroom : OnGrid k (start.units + (as.map units).sum)) :
    ∃ c, as.foldlM add start = some c ∧ c.units = start.units + (as.map units).sum := by
  induction as generalizing start with
  | nil => exact ⟨start, rfl, (Int.add_zero _).symm⟩
  | cons a as ih =>
      obtain ⟨ha, has⟩ := List.forall_mem_cons.mp has
      have hrest : Whole k (as.map units).sum := .sum (List.forall_mem_map.mpr has)
      rw [List.map_cons, List.sum_cons, ← Int.add_assoc] at hroom ⊢
      have hfirst : OnGrid k (start.units + a.units) := by
        refine (hstart.add ha).onGrid ?_ hroom
        have := hrest.nonneg
        omega
      obtain ⟨c, hc, hunits⟩ := add_exact hk hfirst
      rw [← hunits] at hroom ⊢
      rw [List.foldlM_cons, hc]
      exact ih (hunits ▸ hstart.add ha) has hroom

theorem sum?_exact {k : Nat} (hk : k ≤ 28) {as : List Decimal} (has : ∀ a ∈ as, Whole k a.units)
    (hroom : OnGrid k (as.map units).sum) :
    ∃ c, sum? as = some c ∧ c.units = (as.map units).sum := by
  have hzero : zero.units = 0 := units_zero
  rw [← Int.zero_add (as.map units).sum, ← hzero] at hroom ⊢
  exact foldlM_add_exact hk (hzero.symm ▸ Whole.zero k) has hroom

/-- A sum that is there is what saturating addition comes to, too. -/
theorem foldl_saturatingAdd {as : List Decimal} {start c : Decimal}
    (h : as.foldlM add start = some c) : as.foldl saturatingAdd start = c := by
  induction as generalizing start with
  | nil => exact Option.some.inj h
  | cons a as ih =>
      rw [List.foldlM_cons] at h
      obtain ⟨b, hb, h⟩ := Option.bind_eq_some_iff.mp h
      rw [List.foldl_cons, saturatingAdd, hb]
      exact ih h

/-- The sum of what some parts come to, each added up before it is added. -/
def sumOf {α : Type} (value? : α → Option Decimal) (parts : List α) : Option Decimal :=
  (parts.mapM value?).bind sum?

/-- **A sum of exact sums is there, and exact**, as long as there is room for all of it. -/
theorem sumOf_exact {k : Nat} (hk : k ≤ 28) {α : Type} {value? : α → Option Decimal}
    {value : α → Int} {parts : List α} (hwhole : ∀ p ∈ parts, Whole k (value p))
    (hexact : ∀ p ∈ parts, OnGrid k (value p) → ∃ c, value? p = some c ∧ c.units = value p)
    (hroom : OnGrid k (parts.map value).sum) :
    ∃ c, sumOf value? parts = some c ∧ c.units = (parts.map value).sum := by
  obtain ⟨cs, hcs, hunits⟩ : ∃ cs, parts.mapM value? = some cs ∧
      cs.map units = parts.map value := by
    induction parts with
    | nil => exact ⟨[], rfl, rfl⟩
    | cons p parts ih =>
        obtain ⟨hp, hparts⟩ := List.forall_mem_cons.mp hwhole
        obtain ⟨hpexact, hexact⟩ := List.forall_mem_cons.mp hexact
        have hrest : Whole k (parts.map value).sum := .sum (List.forall_mem_map.mpr hparts)
        rw [List.map_cons, List.sum_cons] at hroom
        have := hp.nonneg
        have := hrest.nonneg
        obtain ⟨c, hc, hcp⟩ := hpexact (hp.onGrid (by omega) hroom)
        obtain ⟨cs, hcs, hunits⟩ := ih hparts hexact (hrest.onGrid (by omega) hroom)
        refine ⟨c :: cs, ?_, by rw [List.map_cons, List.map_cons, hcp, hunits]⟩
        rw [List.mapM_cons, hc, hcs]
        rfl
  rw [← hunits] at hroom ⊢
  have hall : ∀ c ∈ cs, Whole k c.units := by
    rw [← List.forall_mem_map (P := Whole k), hunits]
    exact List.forall_mem_map.mpr hwhole
  unfold sumOf
  rw [hcs]
  exact sum?_exact hk hall hroom

end Bourse.Decimal
