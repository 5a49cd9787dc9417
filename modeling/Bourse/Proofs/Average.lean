/-
An average price is rounded twice.

The quotient of value and amount is rounded half to even at the last place there is room
for, and what comes of it is rounded half up to the places that are asked for.  A second
rounding keeps what the first one did, except at a tie: a quotient that is a little less
than one, and is rounded up to it, is then rounded up once more.  `round_eq_round_iff`
finds this in any rounding that keeps to its side of every tie, and the places of the
division are shown to be fine enough for that unless they are no more than were asked for.

So an average is the exact mean rounded half up, or it is one step higher, and
`averagePrice_rounds_twice` tells the two apart.
-/
import Bourse.Proofs.Decimal.Quotient
import Bourse.Order.Fill
import Mathlib.Algebra.Order.Round
import Mathlib.Data.Rat.Floor
import Mathlib.Tactic.FieldSimp
import Mathlib.Tactic.Positivity

namespace Bourse

namespace Decimal

/-! ### Rounding half up -/

/-- Rounding half up is within half a step, and reaches half a step down only. -/
theorem divHalfUp_near (n : Nat) {d : Nat} (hd : 0 < d) :
    2 * (divHalfUp n d * d) ≤ 2 * n + d ∧ 2 * n < 2 * (divHalfUp n d * d) + d := by
  have hn : n / d * d + n % d = n := Nat.div_add_mod' n d
  have hr : n % d < d := Nat.mod_lt n hd
  unfold divHalfUp
  split
  · omega
  · rw [Nat.add_mul, Nat.one_mul]
    omega

/-- Half of a number of steps, rounded up, is what rounding is for rational numbers. -/
theorem divHalfUp_eq_round (n : Nat) {d : Nat} (hd : 0 < d) :
    (divHalfUp n d : ℤ) = round ((n : ℚ) / d) := by
  obtain ⟨hle, hlt⟩ := divHalfUp_near n hd
  have hdpos : (0 : ℚ) < d := by exact_mod_cast hd
  symm
  rw [round_eq, Int.floor_eq_iff, div_add_div _ _ hdpos.ne' two_ne_zero,
    le_div_iff₀ (by positivity), div_lt_iff₀ (by positivity)]
  have hle' : (2 * (divHalfUp n d * d) : ℚ) ≤ 2 * n + d := by exact_mod_cast hle
  have hlt' : (2 * n : ℚ) < 2 * (divHalfUp n d * d) + d := by exact_mod_cast hlt
  push_cast
  constructor <;> linarith

theorem divHalfUp_le_of_le {n l d : Nat} (hd : 0 < d) (h : n ≤ l * d) : divHalfUp n d ≤ l := by
  by_contra hc
  have hnear := (divHalfUp_near n hd).1
  have : (l + 1) * d ≤ divHalfUp n d * d := Nat.mul_le_mul_right _ (by omega)
  rw [Nat.add_mul, Nat.one_mul] at this
  omega

theorem le_divHalfUp_of_le {n l d : Nat} (hd : 0 < d) (h : l * d ≤ n) : l ≤ divHalfUp n d := by
  by_contra hc
  have hnear := (divHalfUp_near n hd).2
  have : (divHalfUp n d + 1) * d ≤ l * d := Nat.mul_le_mul_right _ (by omega)
  rw [Nat.add_mul, Nat.one_mul] at this
  omega

theorem divHalfUp_mul_mul (n d : Nat) {c : Nat} (hc : 0 < c) :
    divHalfUp (n * c) (d * c) = divHalfUp n d := by
  unfold divHalfUp
  have hlt (x y : Nat) : 2 * (x * c) < y * c ↔ 2 * x < y := by
    rw [← Nat.mul_assoc]
    exact Nat.mul_lt_mul_right hc
  simp only [Nat.mul_div_mul_right _ _ hc, Nat.mul_mod_mul_right, hlt]

theorem divHalfUp_mul {d : Nat} (hd : 0 < d) (m : Nat) : divHalfUp (m * d) d = m := by
  unfold divHalfUp
  rw [Nat.mul_mod_left, Nat.mul_div_cancel m hd]
  simp [hd]

/-- **Fewer places are a rounding half up**, in units, and none at all if there were no more. -/
theorem units_roundAway {a : Decimal} (ha : 0 ≤ a.units) {places : Nat} (hp : places ≤ 28) :
    (a.roundAway places).units =
      (divHalfUp a.units.natAbs (tenTo (28 - places)) * tenTo (28 - places) : Nat) := by
  unfold roundAway
  have hscale := a.scale_le
  by_cases hfine : a.scale ≤ places
  · rw [if_pos hfine]
    have hsplit : tenTo (28 - a.scale) = tenTo (places - a.scale) * tenTo (28 - places) := by
      rw [← tenTo_add]; congr 1; omega
    rw [natAbs_units, hsplit, ← Nat.mul_assoc, divHalfUp_mul (tenTo_pos _), Nat.mul_assoc,
      ← hsplit, ← natAbs_units, Int.natAbs_of_nonneg ha]
  · rw [if_neg hfine]
    have hsplit : tenTo (28 - places) = tenTo (a.scale - places) * tenTo (28 - a.scale) := by
      rw [← tenTo_add]; congr 1; omega
    have hlt : divHalfUp a.magnitude (tenTo (a.scale - places)) < limit := by
      refine Nat.lt_of_le_of_lt (divHalfUp_le_of_le (tenTo_pos _) ?_) a.mantissa_lt
      exact Nat.le_mul_of_pos_right _ (tenTo_pos _)
    obtain ⟨c, hc, hunits⟩ := ofParts?_of_lt a.negative hlt hp
    rw [hc, Option.getD_some, hunits, not_negative ha, if_neg (by decide), natAbs_units]
    conv_rhs => rw [hsplit]
    rw [divHalfUp_mul_mul _ _ (tenTo_pos _), ← hsplit]
    push_cast
    rfl

end Decimal

open Decimal

/-! ### Averages -/

/-- What an average is: a quotient as it is found, and then with fewer places. -/
theorem averagePrice_eq_some {value amount c : Decimal} {scale : Nat} (hvalue : 0 ≤ value.units)
    (hamount : 0 < amount.units) (hscale : scale ≤ 28)
    (h : averagePrice value amount scale = some c) :
    ∃ d m places, value.div amount = some d ∧
      Rounded value.units.natAbs amount.units.natAbs m places ∧
      d.units = m * tenTo (28 - places) ∧
      c.units = (divHalfUp (m * tenTo (28 - places)) (tenTo (28 - scale)) * tenTo (28 - scale) :
        Nat) := by
  unfold averagePrice at h
  split at h
  · cases h
  · rcases div_cases hvalue hamount with ⟨d, m, places, hd, hround, hunits⟩ | ⟨hnone, -⟩
    · refine ⟨d, m, places, hd, hround, hunits, ?_⟩
      rw [hd, Option.map_some, Option.some.injEq] at h
      have hnonneg : 0 ≤ d.units := by
        rw [hunits]
        positivity
      rw [← h, units_roundAway hnonneg hscale, show d.units.natAbs = m * tenTo (28 - places) by
        rw [hunits]
        exact_mod_cast rfl]
    · rw [hnone] at h
      cases h

/-- There is an average, unless the mean is larger than any decimal. -/
theorem averagePrice_isSome {value amount : Decimal} (scale : Nat) (hvalue : 0 ≤ value.units)
    (hamount : 0 < amount.units)
    (hroom : value.units ≤ ((limit - 1 : Nat) : Int) * amount.units) :
    ∃ c, averagePrice value amount scale = some c := by
  have hzero : ¬ amount.isZero = true := fun h => by
    rw [isZero_iff] at h
    omega
  unfold averagePrice
  rw [if_neg hzero]
  rcases div_cases hvalue hamount with ⟨d, -, -, hd, -⟩ | ⟨-, hlarge⟩
  · exact ⟨d.roundAway scale, by rw [hd]; rfl⟩
  · omega

section

variable {value amount c l : Decimal} {scale : Nat}

/-- **An average is at most what the mean is at most**, if that has no more places than it. -/
theorem averagePrice_le (hvalue : 0 ≤ value.units) (hamount : 0 < amount.units)
    (hscale : scale ≤ 28) (h : averagePrice value amount scale = some c) (hl : 0 ≤ l.units)
    (hplaces : tenTo (28 - scale) ∣ l.units.natAbs)
    (hle : value.units * tenTo 28 ≤ l.units * amount.units) : c.units ≤ l.units := by
  obtain ⟨-, m, places, -, hround, -, hc⟩ := averagePrice_eq_some hvalue hamount hscale h
  have hnat : value.units.natAbs * tenTo 28 ≤ l.units.natAbs * amount.units.natAbs := by
    zify
    rwa [abs_of_nonneg hvalue, abs_of_nonneg hl, abs_of_pos hamount]
  have hquot := hround.le_of_le (by omega) hnat
  obtain ⟨j, hj⟩ := hplaces
  rw [hj, Nat.mul_comm _ j] at hquot
  have := Nat.mul_le_mul_right (tenTo (28 - scale)) (divHalfUp_le_of_le (tenTo_pos _) hquot)
  rw [Nat.mul_comm j, ← hj] at this
  omega

/-- **An average is at least what the mean is at least**, if that has no more places than it. -/
theorem le_averagePrice (hvalue : 0 ≤ value.units) (hamount : 0 < amount.units)
    (hscale : scale ≤ 28) (h : averagePrice value amount scale = some c) (hl : 0 ≤ l.units)
    (hplaces : tenTo (28 - scale) ∣ l.units.natAbs)
    (hge : l.units * amount.units ≤ value.units * tenTo 28) : l.units ≤ c.units := by
  obtain ⟨-, m, places, -, hround, -, hc⟩ := averagePrice_eq_some hvalue hamount hscale h
  have hnat : l.units.natAbs * amount.units.natAbs ≤ value.units.natAbs * tenTo 28 := by
    zify
    rwa [abs_of_nonneg hvalue, abs_of_nonneg hl, abs_of_pos hamount]
  have hquot := hround.ge_of_ge (by omega) hnat
  obtain ⟨j, hj⟩ := hplaces
  rw [hj, Nat.mul_comm _ j] at hquot
  have := Nat.mul_le_mul_right (tenTo (28 - scale)) (le_divHalfUp_of_le (tenTo_pos _) hquot)
  rw [Nat.mul_comm j, ← hj] at this
  omega

end

/-! ### Averages as rational numbers -/

/-- The number that a decimal stands for. -/
def Decimal.toRat (a : Decimal) : ℚ := a.units / 10 ^ 28

/-- The nearest number with so many places; of two that are as near, the larger one. -/
def roundedUp (q : ℚ) (places : ℕ) : ℚ := round (q * 10 ^ places) / 10 ^ places

theorem tenTo_cast (n : Nat) : (tenTo n : ℚ) = 10 ^ n := by
  show ((10 ^ n : ℕ) : ℚ) = 10 ^ n
  push_cast
  rfl

/-- A number of last places, in units, is that many of them. -/
theorem toRat_of_units {c : Decimal} {m places : Nat} (hp : places ≤ 28)
    (h : c.units = (m * tenTo (28 - places) : Nat)) : c.toRat = m / 10 ^ places := by
  have hsplit : (10 : ℚ) ^ 28 = 10 ^ (28 - places) * 10 ^ places := by
    rw [← pow_add]
    congr 1
    omega
  unfold Decimal.toRat
  rw [h, hsplit]
  push_cast
  rw [tenTo_cast]
  field_simp

/--
Of two numbers that lie on the same side of every half, or on it, the second is rounded as
the first one is, unless it has come up to a half from below.
-/
theorem round_eq_round_iff {x y : ℚ} (hle : ∀ n : ℤ, x ≤ n + 1 / 2 → y ≤ n + 1 / 2)
    (hge : ∀ n : ℤ, (n : ℚ) + 1 / 2 ≤ x → (n : ℚ) + 1 / 2 ≤ y) :
    round y = round x ↔ ¬ (x < y ∧ round y - y = 1 / 2) := by
  obtain ⟨hlow, hhigh⟩ := Int.floor_eq_iff.mp (round_eq y).symm
  have hx : x < round y + 1 / 2 := by
    by_contra hc
    have := hge (round y) (not_lt.mp hc)
    linarith
  have hround : round y = round x ↔ (round y : ℚ) - 1 / 2 ≤ x := by
    rw [eq_comm, round_eq x, Int.floor_eq_iff]
    constructor
    · rintro ⟨h, -⟩
      linarith
    · intro h
      constructor <;> linarith
  rw [hround]
  constructor
  · rintro h ⟨hxy, htie⟩
    linarith
  · intro h
    by_contra hc
    -- Then `y` is brought up to the half below it, and no further.
    have hy := hle (round y - 1) (by push_cast; linarith)
    push_cast at hy
    exact h ⟨by linarith, by linarith⟩

namespace Decimal.Rounded

variable {value amount m places : Nat}

/-- The quotient and its rounding lie on the same side of every whole number of last places. -/
theorem le_int (h : Rounded value amount m places) (hamount : 0 < amount) {l : ℤ}
    (hl : (value : ℚ) / amount * 10 ^ places ≤ l) : (m : ℤ) ≤ l := by
  have hpos : (0 : ℚ) < amount := by exact_mod_cast hamount
  obtain ⟨n, rfl⟩ : ∃ n : ℕ, l = n := by
    refine ⟨l.toNat, (Int.toNat_of_nonneg ?_).symm⟩
    have : (0 : ℚ) ≤ l := le_trans (by positivity) hl
    exact_mod_cast this
  rw [div_mul_eq_mul_div, div_le_iff₀ hpos, ← tenTo_cast] at hl
  rw [h.rounded]
  exact_mod_cast divHalfEven_le_of_le hamount (by exact_mod_cast hl)

theorem int_le (h : Rounded value amount m places) (hamount : 0 < amount) {l : ℤ}
    (hl : (l : ℚ) ≤ value / amount * 10 ^ places) : l ≤ m := by
  have hpos : (0 : ℚ) < amount := by exact_mod_cast hamount
  rcases Int.le_total 0 l with hnonneg | hneg
  · obtain ⟨n, rfl⟩ : ∃ n : ℕ, l = n := ⟨l.toNat, (Int.toNat_of_nonneg hnonneg).symm⟩
    rw [div_mul_eq_mul_div, le_div_iff₀ hpos, ← tenTo_cast] at hl
    rw [h.rounded]
    exact_mod_cast le_divHalfEven_of_le hamount (by exact_mod_cast hl)
  · omega

/-- The rounding is at most half a last place from the quotient. -/
theorem sub_le (h : Rounded value amount m places) (hamount : 0 < amount) :
    m - (value : ℚ) / amount * 10 ^ places ≤ 1 / 2 := by
  have hpos : (0 : ℚ) < amount := by exact_mod_cast hamount
  have hnear := (divHalfEven_near (value * tenTo places) hamount).1
  rw [← h.rounded] at hnear
  have hnear' : (2 * (m * amount) : ℚ) ≤ 2 * (value * 10 ^ places) + amount := by
    rw [← tenTo_cast]
    exact_mod_cast hnear
  rw [div_mul_eq_mul_div, sub_le_iff_le_add', ← sub_le_iff_le_add, le_div_iff₀ hpos]
  linarith

/-- A half of a coarser place is a whole number of last places. -/
theorem half_eq {scale : Nat} (hfine : scale < places) (n : ℤ) :
    ((n : ℚ) + 1 / 2) * 10 ^ (places - scale) =
      ((2 * n + 1) * 5 * 10 ^ (places - scale - 1) : ℤ) := by
  obtain ⟨k, hk⟩ : ∃ k, places - scale = k + 1 := ⟨places - scale - 1, by omega⟩
  rw [hk, Nat.add_sub_cancel, pow_succ]
  push_cast
  ring

/-- Both roundings together, where the first one was finer: in steps of the second one. -/
theorem round_eq_iff (h : Rounded value amount m places) (hamount : 0 < amount) {scale : Nat}
    (hfine : scale < places) {x y : ℚ} (hx : x = (value : ℚ) / amount * 10 ^ scale)
    (hy : y = m / 10 ^ places * 10 ^ scale) :
    (round y = round x ↔ ¬ (x < y ∧ round y - y = 1 / 2)) ∧
      (round y ≠ round x → round y = round x + 1) := by
  have hsplit : (10 : ℚ) ^ places = 10 ^ scale * 10 ^ (places - scale) := by
    rw [← pow_add]
    congr 1
    omega
  have hstep : (0 : ℚ) < 10 ^ (places - scale) := by positivity
  have hxp : x * 10 ^ (places - scale) = value / amount * 10 ^ places := by
    rw [hx, hsplit]
    ring
  have hyp : y * 10 ^ (places - scale) = m := by
    rw [hy, hsplit]
    field_simp
  have hiff := round_eq_round_iff (x := x) (y := y) (fun n hn => ?_) fun n hn => ?_
  · refine ⟨hiff, fun hne => ?_⟩
    obtain ⟨hlt, htie⟩ := not_not.mp (mt hiff.mpr hne)
    -- The first rounding has moved the number by less than a step of the second.
    have hnear : y - x ≤ 1 / 2 := by
      have hsub : (y - x) * 10 ^ (places - scale) ≤ 1 / 2 := by
        rw [sub_mul, hyp, hxp]
        exact h.sub_le hamount
      have hone : (1 : ℚ) ≤ 10 ^ (places - scale) := one_le_pow₀ (by norm_num)
      nlinarith
    have hround : round x = round y - 1 := by
      rw [round_eq x, Int.floor_eq_iff]
      push_cast
      constructor <;> linarith
    omega
  · rw [← mul_le_mul_iff_left₀ hstep, half_eq hfine] at hn ⊢
    rw [hyp]
    rw [hxp] at hn
    exact_mod_cast h.le_int hamount hn
  · rw [← mul_le_mul_iff_left₀ hstep, half_eq hfine] at hn ⊢
    rw [hyp]
    rw [hxp] at hn
    exact_mod_cast h.int_le hamount hn

end Decimal.Rounded

theorem roundedUp_inj {q r : ℚ} {places : ℕ} :
    roundedUp q places = roundedUp r places ↔
      round (q * 10 ^ places) = round (r * 10 ^ places) := by
  unfold roundedUp
  rw [div_left_inj' (by positivity)]
  exact Int.cast_inj

/-- A number with so few places is not rounded at all. -/
theorem roundedUp_of_le {m places scale : ℕ} (h : places ≤ scale) :
    roundedUp (m / 10 ^ places) scale = m / 10 ^ places := by
  have hwhole : (m : ℚ) / 10 ^ places * 10 ^ scale = ((m * 10 ^ (scale - places) : ℕ) : ℤ) := by
    have hsplit : (10 : ℚ) ^ scale = 10 ^ (scale - places) * 10 ^ places := by
      rw [← pow_add]
      congr 1
      omega
    rw [hsplit]
    push_cast
    field_simp
  unfold roundedUp
  rw [hwhole, round_intCast, ← hwhole]
  field_simp

/-- A number is rounded to what is half a step from it at most, and not above half a step. -/
theorem eq_roundedUp_iff {q r : ℚ} {places : ℕ} (hr : roundedUp r places = r) :
    r = roundedUp q places ↔ r - 1 / 2 / 10 ^ places ≤ q ∧ q < r + 1 / 2 / 10 ^ places := by
  have hpos : (0 : ℚ) < 10 ^ places := by positivity
  have hwhole : (round (r * 10 ^ places) : ℚ) = r * 10 ^ places := by
    rw [← div_left_inj' hpos.ne', mul_div_cancel_right₀ _ hpos.ne']
    exact hr
  have hlow : r - 1 / 2 / 10 ^ places ≤ q ↔ r * 10 ^ places ≤ q * 10 ^ places + 1 / 2 := by
    rw [← mul_le_mul_iff_left₀ hpos, sub_mul, div_mul_cancel₀ _ hpos.ne', sub_le_iff_le_add]
  have hhigh : q < r + 1 / 2 / 10 ^ places ↔ q * 10 ^ places + 1 / 2 < r * 10 ^ places + 1 := by
    rw [← mul_lt_mul_iff_left₀ hpos, add_mul, div_mul_cancel₀ _ hpos.ne']
    constructor <;> intro h <;> linarith
  rw [hlow, hhigh, ← hwhole]
  conv_lhs => rw [← hr, roundedUp_inj, eq_comm, round_eq (q * _), Int.floor_eq_iff]

theorem toRat_div_toRat {value amount : Decimal} (hvalue : 0 ≤ value.units)
    (hamount : 0 ≤ amount.units) :
    value.toRat / amount.toRat = (value.units.natAbs : ℚ) / amount.units.natAbs := by
  have hcast {a : Decimal} (ha : 0 ≤ a.units) : (a.units : ℚ) = a.units.natAbs := by
    rw [Nat.cast_natAbs, abs_of_nonneg ha]
  unfold Decimal.toRat
  rw [hcast hvalue, hcast hamount, div_div_div_cancel_right₀ (by positivity)]

/--
What two roundings make of `q`: first `d`, which was rounded to `places` places, and then
`c`, which is `d` rounded half up to `scale` places.
-/
structure RoundedTwice (q d c : ℚ) (places scale : ℕ) : Prop where
  second : c = roundedUp d scale
  /-- A finer rounding misleads the second one just if it comes up to a tie from below. -/
  finer : scale < places →
    (c = roundedUp q scale ↔ ¬ (q < d ∧ c - d = 1 / 2 / 10 ^ scale))
  /-- Then the result is one step too high. -/
  above : scale < places → c ≠ roundedUp q scale → c = roundedUp q scale + 1 / 10 ^ scale
  /-- After a rounding that was no finer there is nothing left to round. -/
  coarser : places ≤ scale → c = d ∧
    (c = roundedUp q scale ↔ d - 1 / 2 / 10 ^ scale ≤ q ∧ q < d + 1 / 2 / 10 ^ scale)

/--
**An average is the exact mean rounded half to even at the last place there is room for,
and then half up.**  So it is the mean rounded half up unless the first rounding came up to
a tie from below, or had no room for as many places as were asked for.
-/
theorem averagePrice_rounds_twice {value amount c : Decimal} {scale : Nat} (hvalue : .zero ≤ value)
    (hamount : .zero < amount) (hscale : scale ≤ 28)
    (h : averagePrice value amount scale = some c) :
    ∃ d m places, value.div amount = some d ∧
      Rounded value.units.natAbs amount.units.natAbs m places ∧ d.toRat = m / 10 ^ places ∧
      RoundedTwice (value.toRat / amount.toRat) d.toRat c.toRat places scale := by
  rw [Decimal.le_iff, Decimal.units_zero] at hvalue
  rw [Decimal.lt_iff, Decimal.units_zero] at hamount
  obtain ⟨d, m, places, hd, hround, hunits, hc⟩ := averagePrice_eq_some hvalue hamount hscale h
  have hdrat : d.toRat = m / 10 ^ places :=
    toRat_of_units hround.places_le (by exact_mod_cast hunits)
  have hpos : (0 : ℚ) < 10 ^ scale := by positivity
  have hcrat : c.toRat = roundedUp d.toRat scale := by
    have hsteps : d.toRat * 10 ^ scale = (m * tenTo (28 - places) : Nat) / tenTo (28 - scale) := by
      have hsplit : (10 : ℚ) ^ 28 = 10 ^ (28 - scale) * 10 ^ scale := by
        rw [← pow_add]
        congr 1
        omega
      unfold Decimal.toRat
      rw [hunits, hsplit, tenTo_cast]
      push_cast
      field_simp
    unfold roundedUp
    rw [hsteps, ← divHalfUp_eq_round _ (tenTo_pos _), toRat_of_units hscale hc]
    push_cast
    rfl
  have hfiner (hfine : scale < places) := hround.round_eq_iff (by omega) hfine
    (x := value.toRat / amount.toRat * 10 ^ scale) (y := d.toRat * 10 ^ scale)
    (by rw [toRat_div_toRat hvalue hamount.le]) (by rw [hdrat])
  have htie : (round (d.toRat * 10 ^ scale) : ℚ) - d.toRat * 10 ^ scale = 1 / 2 ↔
      roundedUp d.toRat scale - d.toRat = 1 / 2 / 10 ^ scale := by
    unfold roundedUp
    rw [← div_left_inj' hpos.ne', sub_div, mul_div_cancel_right₀ _ hpos.ne']
  refine ⟨d, m, places, hd, hround, hdrat, hcrat, fun hfine => ?_, fun hfine hne => ?_,
    fun hcoarse => ?_⟩
  · have hiff := (hfiner hfine).1
    rw [mul_lt_mul_iff_left₀ hpos, htie] at hiff
    rwa [hcrat, roundedUp_inj]
  · rw [hcrat, Ne, roundedUp_inj] at hne
    rw [hcrat]
    unfold roundedUp
    rw [(hfiner hfine).2 hne]
    push_cast
    ring
  · have hexact : c.toRat = d.toRat := by
      rw [hcrat, hdrat, roundedUp_of_le hcoarse]
    refine ⟨hexact, ?_⟩
    rw [hexact]
    exact eq_roundedUp_iff (hcrat.symm.trans hexact)

/-! ### A mean just below a tie -/

/-- A value whose mean over `nearTieAmount` is less than half a hundredth, by 5 · 10⁻³¹. -/
def Decimal.nearTieValue : Decimal := ⟨9999999999999999999999999999, 2, by decide, by decide⟩

/-- The amount of that mean. -/
def Decimal.nearTieAmount : Decimal :=
  { Decimal.zero with mantissa := 20000000000000000000000000000, mantissa_lt := by decide }

/-- One hundredth. -/
def Decimal.hundredth : Decimal := ⟨1, 2, by decide, by decide⟩

theorem averagePrice_nearTie :
    averagePrice .nearTieValue .nearTieAmount 2 = some .hundredth := by decide +kernel

theorem averagePrice_rounds_twice_nearTie :
    (Decimal.zero ≤ .nearTieValue ∧ Decimal.zero < .nearTieAmount ∧ 2 ≤ 28 ∧
      averagePrice .nearTieValue .nearTieAmount 2 = some .hundredth) ∧
    ∃ d m places, Decimal.nearTieValue.div .nearTieAmount = some d ∧
      Rounded Decimal.nearTieValue.units.natAbs Decimal.nearTieAmount.units.natAbs m places ∧
      d.toRat = m / 10 ^ places ∧
      RoundedTwice (Decimal.nearTieValue.toRat / Decimal.nearTieAmount.toRat) d.toRat
        Decimal.hundredth.toRat places 2 :=
  ⟨⟨by decide, by decide, by decide, averagePrice_nearTie⟩,
    averagePrice_rounds_twice (by decide) (by decide) (by decide) averagePrice_nearTie⟩

/-- **An average need not be the mean rounded half up.**  This one is a whole step too high. -/
theorem averagePrice_not_roundedUp : ¬ ∀ (value amount c : Decimal) (scale : Nat),
    .zero ≤ value → .zero < amount → scale ≤ 28 → averagePrice value amount scale = some c →
      c.toRat = roundedUp (value.toRat / amount.toRat) scale := by
  intro h
  have hc := h .nearTieValue .nearTieAmount .hundredth 2 (by decide) (by decide) (by decide)
    averagePrice_nearTie
  have hmean : round (Decimal.nearTieValue.toRat / Decimal.nearTieAmount.toRat * 10 ^ 2) = 0 := by
    rw [round_eq, Int.floor_eq_iff]
    norm_num [Decimal.toRat, Decimal.units, Decimal.nearTieValue, Decimal.nearTieAmount,
      Decimal.zero, tenTo]
  unfold roundedUp at hc
  rw [hmean] at hc
  norm_num [Decimal.toRat, Decimal.units, Decimal.hundredth, tenTo] at hc

end Bourse
