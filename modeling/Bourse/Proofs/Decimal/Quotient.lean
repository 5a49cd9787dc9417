/-
What a quotient of decimals is.

A quotient is found digit by digit, and it ends in one of three ways: nothing remains,
the remainder is rounded off, or a digit that no longer fits is given up.  Each of them
has its own rule for rounding.  `Rounded` says what they have in common: what is found is
the exact quotient, rounded once and half to even, at the most places for which a
mantissa has room.

All that the rounds of a division keep is in `Division.Stands`, the equation of a long
division.  From it follow the two facts that averages rest on.  A quotient no larger than
the largest decimal is always found.  And rounding it never passes a decimal, on either
side: a decimal with more places than the quotient was left with is too small to be near.
-/
import Bourse.Proofs.Decimal.Sum

namespace Bourse.Decimal

/-! ### Rounding half to even -/

theorem divHalfEven_le_of_le {n l d : Nat} (hd : 0 < d) (h : n ≤ l * d) :
    divHalfEven n d ≤ l := by
  by_contra hc
  have hnear := (divHalfEven_near n hd).1
  have : (l + 1) * d ≤ divHalfEven n d * d := Nat.mul_le_mul_right _ (by omega)
  rw [Nat.add_mul, Nat.one_mul] at this
  omega

theorem le_divHalfEven_of_le {n l d : Nat} (hd : 0 < d) (h : l * d ≤ n) :
    l ≤ divHalfEven n d := by
  by_contra hc
  have hnear := (divHalfEven_near n hd).2
  have : (divHalfEven n d + 1) * d ≤ l * d := Nat.mul_le_mul_right _ (by omega)
  rw [Nat.add_mul, Nat.one_mul] at this
  omega

/-- A common factor does not matter. -/
theorem divHalfEven_mul_mul (n d : Nat) {c : Nat} (hc : 0 < c) :
    divHalfEven (n * c) (d * c) = divHalfEven n d := by
  unfold divHalfEven
  have hlt (x y : Nat) : 2 * (x * c) < y * c ↔ 2 * x < y := by
    rw [← Nat.mul_assoc]
    exact Nat.mul_lt_mul_right hc
  have hgt (x y : Nat) : y * c < 2 * (x * c) ↔ y < 2 * x := by
    rw [← Nat.mul_assoc]
    exact Nat.mul_lt_mul_right hc
  simp only [Nat.mul_div_mul_right _ _ hc, Nat.mul_mod_mul_right, hlt, hgt]

/-- Rounding, when quotient and remainder are known. -/
theorem divHalfEven_of_eq {n q d r : Nat} (h : n = q * d + r) (hr : r < d) :
    divHalfEven n d = if d < 2 * r ∨ (2 * r = d ∧ q % 2 = 1) then q + 1 else q := by
  have hq : n / d = q := by
    rw [h, Nat.mul_comm, Nat.mul_add_div (by omega), Nat.div_eq_of_lt hr, Nat.add_zero]
  have hm : n % d = r := by
    rw [h, Nat.mul_comm, Nat.mul_add_mod, Nat.mod_eq_of_lt hr]
  unfold divHalfEven
  simp only [hq, hm]
  split_ifs <;> omega

/-- Rounding, when quotient and remainder are known of a tenfold: `e` is the digit given up. -/
theorem divHalfEven_of_digit {n q e d r : Nat} (h : 10 * n = (10 * q + e) * d + r) (he : e < 10)
    (hr : r < d) :
    divHalfEven n d = if 5 < e ∨ (e = 5 ∧ (r ≠ 0 ∨ q % 2 = 1)) then q + 1 else q := by
  -- The remainder at the place before is a tenth of what the digit and the remainder make.
  obtain ⟨t, ht⟩ : ∃ t, n = q * d + t := by
    refine ⟨n - q * d, ?_⟩
    have : 10 * (q * d) ≤ 10 * n := by
      rw [h]
      calc 10 * (q * d) ≤ 10 * (q * d) + (e * d + r) := Nat.le_add_right _ _
        _ = (10 * q + e) * d + r := by ring
    omega
  have hten : 10 * t = e * d + r := by
    have : (10 * q + e) * d = 10 * (q * d) + e * d := by ring
    omega
  have hle : e * d ≤ 9 * d := Nat.mul_le_mul_right _ (by omega)
  rw [divHalfEven_of_eq ht (by omega)]
  have hup : (d < 2 * t ∨ (2 * t = d ∧ q % 2 = 1)) ↔
      (5 < e ∨ (e = 5 ∧ (r ≠ 0 ∨ q % 2 = 1))) := by
    rcases Nat.lt_trichotomy e 5 with hlow | rfl | hhigh
    · have : e * d ≤ 4 * d := Nat.mul_le_mul_right _ (by omega)
      omega
    · omega
    · have : 6 * d ≤ e * d := Nat.mul_le_mul_right _ (by omega)
      omega
  simp only [hup]

/-! ### The rounds of a division -/

namespace Division

/--
The division of `a` by `b`, begun at the scale `start`, stands at `d` once `k` more digits
of the quotient have been found.
-/
structure Stands (a b : Nat) (start : Int) (d : Division) (k : Nat) : Prop where
  exact : a * tenTo k = d.quotient * b + d.remainder
  remainder_lt : d.remainder < b
  quotient_lt : d.quotient < limit
  scale_eq : d.scale = start + k
  scale_le : d.scale ≤ 28

/-- The quotient of `a` and `b`, begun at the scale `start`, is larger than any decimal. -/
def TooLarge (a b : Nat) (start : Int) : Prop :=
  start ≤ 0 ∧ (limit - 1) * b < a * tenTo (-start).toNat

/-- The division of `a` by `b`, begun at the scale `start`, ends in `m` at the scale `s`. -/
structure EndsIn (a b : Nat) (start : Int) (m : Nat) (s : Int) : Prop where
  nonneg : 0 ≤ s
  scale_le : s ≤ 28
  lt_limit : m < limit
  rounded : ∃ k : Nat, s = start + k ∧ m = divHalfEven (a * tenTo k) b ∧
    (a * tenTo k = m * b ∨ s = 28 ∨ limit ≤ divHalfEven (a * tenTo (k + 1)) b)

/-- What may come of a round of a division that stands at the scale `s`. -/
def Gives (a b : Nat) (start s : Int) : DivisionRound → Prop
  | .overflow => TooLarge a b start
  | .ended m t _ => EndsIn a b start m t
  | .goesOn d => s < d.scale ∧ ∃ k, d.Stands a b start k

variable {a b k : Nat} {start : Int} {d : Division}

/-- A quotient that has reached the limit before the point is too large. -/
theorem tooLarge_of_limit_le {q x y : Nat} (hb : 0 < b) (hexact : q * b ≤ a * tenTo x)
    (hq : limit ≤ q * tenTo y) (hscale : start + x + y ≤ 0) : TooLarge a b start := by
  refine ⟨by omega, ?_⟩
  calc (limit - 1) * b < limit * b := Nat.mul_lt_mul_of_pos_right (by decide) hb
    _ ≤ q * tenTo y * b := Nat.mul_le_mul_right _ hq
    _ = q * b * tenTo y := Nat.mul_right_comm _ _ _
    _ ≤ a * tenTo x * tenTo y := Nat.mul_le_mul_right _ hexact
    _ = a * tenTo (x + y) := by rw [tenTo_add, Nat.mul_assoc]
    _ ≤ a * tenTo (-start).toNat := Nat.mul_le_mul_left _ (tenTo_le (by omega))

/-- Dropping the last digit rounds at the place before. -/
theorem dropDigit_eq {n q r : Nat} {s : Int} (h : 10 * n = q * b + r) (hr : r < b) (hs : 0 < s) :
    dropDigit q s (r != 0) = some (divHalfEven n b, s - 1) := by
  have hdigit : 10 * n = (10 * (q / 10) + q % 10) * b + r := by rw [Nat.div_add_mod, h]
  rw [divHalfEven_of_digit hdigit (Nat.mod_lt _ (by decide)) hr]
  unfold dropDigit
  rw [if_neg (by omega)]
  simp

/-- Further digits leave the equation of the division true. -/
theorem Stands.shifted (h : d.Stands a b start k) (x : Nat) :
    a * tenTo (k + x) = (d.quotient * tenTo x + d.remainder * tenTo x / b) * b +
      d.remainder * tenTo x % b := by
  calc a * tenTo (k + x) = (d.quotient * b + d.remainder) * tenTo x := by
        rw [tenTo_add, ← Nat.mul_assoc, h.exact]
    _ = d.quotient * tenTo x * b + d.remainder * tenTo x := by ring
    _ = d.quotient * tenTo x * b +
        (b * (d.remainder * tenTo x / b) + d.remainder * tenTo x % b) := by
        rw [Nat.div_add_mod]
    _ = _ := by ring

/-- Digits are shifted in while there is room for them, and one is given up if there is not. -/
theorem shift_gives {x : Nat} (h : d.Stands a b start k) (hx : 0 < x) (hnine : x ≤ 9)
    (hscale : d.scale + x ≤ 28) (hroom : d.quotient * tenTo x < limit) :
    Gives a b start d.scale (d.shift b x) := by
  have hb : 0 < b := Nat.lt_of_le_of_lt (Nat.zero_le _) h.remainder_lt
  have hr : d.remainder * tenTo x % b < b := Nat.mod_lt _ hb
  have hexact := h.shifted x
  have hquot : d.remainder * tenTo x / b ≤ tenTo x :=
    Nat.div_le_of_le_mul (Nat.mul_le_mul_right _ h.remainder_lt.le)
  have hten : tenTo x ≤ 1000000000 := tenTo_le hnine
  have hstep := h.scale_eq
  unfold shift
  dsimp only
  rw [if_neg (by omega)]
  generalize d.remainder * tenTo x / b = t at *
  generalize d.remainder * tenTo x % b = r at *
  have hbelow : (d.quotient * tenTo x + t) * b ≤ a * tenTo (k + x) := by
    rw [hexact]
    exact Nat.le_add_right _ _
  by_cases hfull : limit ≤ d.quotient * tenTo x + t
  · rw [if_pos hfull]
    by_cases hpoint : 0 < d.scale + (x : Int)
    · -- A digit is given up, so the quotient is rounded at the place before the last.
      obtain ⟨y, rfl⟩ : ∃ y, x = y + 1 := ⟨x - 1, by omega⟩
      have hdigit : 10 * (a * tenTo (k + y)) = (d.quotient * tenTo (y + 1) + t) * b + r := by
        rw [← hexact, ← Nat.add_assoc, tenTo_succ]
        ring
      rw [dropDigit_eq hdigit hr hpoint]
      have hlt : divHalfEven (a * tenTo (k + y)) b < limit := by
        have hfar : (d.quotient * tenTo (y + 1) + t) * b + b ≤ 10 * (limit - 1) * b := by
          rw [← Nat.succ_mul]
          exact Nat.mul_le_mul_right _ (by rw [limit_eq] at *; omega)
        refine Nat.lt_of_le_of_lt (divHalfEven_le_of_le hb ?_) (show limit - 1 < limit by decide)
        rw [Nat.mul_assoc] at hfar
        omega
      have hge : limit ≤ divHalfEven (a * tenTo (k + y + 1)) b :=
        Nat.le_trans hfull (le_divHalfEven_of_le hb hbelow)
      refine ⟨by omega, by omega, hlt, k + y, by push_cast; omega, rfl, Or.inr (Or.inr hge)⟩
    · rw [show dropDigit _ _ _ = none from if_pos (by omega)]
      refine tooLarge_of_limit_le (y := 0) hb hbelow (by simpa using hfull) ?_
      push_cast
      omega
  · rw [if_neg hfull]
    refine ⟨?_, k + x, hexact, hr, Nat.lt_of_not_le hfull, ?_, hscale⟩
    · show d.scale < d.scale + x
      omega
    · show d.scale + (x : Int) = _
      push_cast
      omega

/-- A rounding that carries out of the mantissa gives up a digit, or there is none to give up. -/
theorem carryOut_gives (h : d.Stands a b start k) (ha : a < limit) (hscale : 0 ≤ d.scale)
    (hr : d.remainder ≠ 0) (hquot : d.quotient = limit - 1)
    (hcarry : divHalfEven (a * tenTo k) b = limit) (strip : Bool) :
    Gives a b start d.scale (endWith (dropDigit limit d.scale false) strip) := by
  have hle := h.scale_le
  have hstep := h.scale_eq
  have hexact := h.exact
  rw [hquot] at hexact
  by_cases hpoint : d.scale = 0
  · rw [show dropDigit limit d.scale false = none from if_pos (by omega)]
    refine ⟨by omega, ?_⟩
    rw [show (-start).toNat = k by omega, hexact]
    omega
  · -- Some digit was shifted in: a whole number divided by more than one is not so large.
    obtain ⟨j, rfl⟩ : ∃ j, k = j + 1 := by
      refine ⟨k - 1, ?_⟩
      by_contra hk
      rw [show k = 0 by omega, tenTo_zero, Nat.mul_one] at hexact
      have : (limit - 1) * 2 ≤ (limit - 1) * b :=
        Nat.mul_le_mul_left _ (by have := h.remainder_lt; omega)
      rw [limit_eq] at *
      omega
    have hdigit : 10 * (a * tenTo j) =
        (10 * 7922816251426433759354395033 + 5) * b + d.remainder := by
      rw [limit_eq] at hexact
      rw [← hexact, tenTo_succ]
      ring
    have hm := divHalfEven_of_digit hdigit (by decide) h.remainder_lt
    rw [if_pos (Or.inr ⟨rfl, Or.inl hr⟩)] at hm
    have hdrop : dropDigit limit d.scale false =
        some (7922816251426433759354395034, d.scale - 1) := by
      unfold dropDigit
      rw [if_neg (by omega)]
      rfl
    rw [hdrop]
    refine ⟨by omega, by omega, by decide, j, by push_cast at *; omega, hm.symm, ?_⟩
    exact Or.inr (Or.inr hcarry.ge)

/-- With no room for a further digit, the quotient is rounded off where it stands. -/
theorem roundOff_gives (h : d.Stands a b start k) (ha : a < limit) (hscale : 0 ≤ d.scale)
    (hfull : d.scale = 28 ∨ limit ≤ d.quotient * 10) (hr : d.remainder ≠ 0) :
    Gives a b start d.scale (d.roundOff b) := by
  have hb : 0 < b := Nat.lt_of_le_of_lt (Nat.zero_le _) h.remainder_lt
  have hround := divHalfEven_of_eq h.exact h.remainder_lt
  have hle := h.scale_le
  have hstep := h.scale_eq
  have hlt := h.quotient_lt
  -- There would be a digit too many at the next place.
  have hnext : d.scale = 28 ∨ limit ≤ divHalfEven (a * tenTo (k + 1)) b := by
    refine hfull.imp id fun hq => Nat.le_trans hq (le_divHalfEven_of_le hb ?_)
    rw [tenTo_succ, ← Nat.mul_assoc, h.exact, Nat.mul_right_comm]
    exact Nat.mul_le_mul_right _ (Nat.le_add_right _ _)
  unfold roundOff
  dsimp only
  rw [← hround]
  by_cases hfits : divHalfEven (a * tenTo k) b < limit
  · rw [if_pos hfits]
    exact ⟨hscale, hle, hfits, k, hstep, rfl, Or.inr hnext⟩
  · -- The rounding has carried out of the mantissa, so that a digit goes after all.
    rw [if_neg hfits]
    have hcarry : divHalfEven (a * tenTo k) b = limit ∧ d.quotient = limit - 1 := by
      rw [hround] at hfits ⊢
      split_ifs at hfits ⊢ with hup
      · exact ⟨by omega, by omega⟩
      · omega
    obtain ⟨hcarry, hquot⟩ := hcarry
    rw [hcarry]
    exact carryOut_gives h ha hscale hr hquot hcarry _

/-- The first of the numbers from nine downwards that passes a test is the greatest. -/
theorem firstOfNine_spec (test : Nat → Bool) :
    ∀ x, ([9, 8, 7, 6, 5, 4, 3, 2, 1].find? test).getD 0 = x →
      x ≤ 9 ∧ (x ≠ 0 → test x = true) ∧ (x < 9 → test (x + 1) = false) := by
  intro x hx
  simp only [List.find?] at hx
  repeat' split at hx
  all_goals
    simp only [Option.getD_some, Option.getD_none] at hx
    subst hx
    simp_all

theorem roomFor_spec (q : Nat) (s : Int) :
    roomFor q s ≤ 9 ∧ (roomFor q s ≠ 0 → s + roomFor q s ≤ 28 ∧ q * tenTo (roomFor q s) < limit) ∧
      (roomFor q s < 9 → 28 < s + (roomFor q s + 1 : Nat) ∨
        limit ≤ q * tenTo (roomFor q s + 1)) := by
  obtain ⟨hnine, htest, hmost⟩ := firstOfNine_spec
    (fun x : Nat => s + x ≤ 28 && q * tenTo x < limit) (roomFor q s) rfl
  refine ⟨hnine, fun hne => ?_, fun hlt => ?_⟩
  · simpa using htest hne
  · have := hmost hlt
    rw [Bool.and_eq_false_iff, decide_eq_false_iff_not, decide_eq_false_iff_not] at this
    exact this.imp Int.not_le.mp Nat.not_lt.mp

/-- **Whatever a round of a division leads to is right.** -/
theorem round_gives (h : d.Stands a b start k) (ha : a < limit) :
    Gives a b start d.scale (d.round b) := by
  have hb : 0 < b := Nat.lt_of_le_of_lt (Nat.zero_le _) h.remainder_lt
  have hstep := h.scale_eq
  have hbelow : d.quotient * b ≤ a * tenTo k := by
    rw [h.exact]
    exact Nat.le_add_right _ _
  unfold round
  by_cases hr : d.remainder = 0
  · rw [if_pos hr]
    have hexact : a * tenTo k = d.quotient * b := by rw [h.exact, hr, Nat.add_zero]
    by_cases hpoint : 0 ≤ d.scale
    · rw [if_pos hpoint]
      refine ⟨hpoint, h.scale_le, h.quotient_lt, k, hstep, ?_, Or.inl hexact⟩
      rw [hexact, divHalfEven_mul hb]
    · rw [if_neg hpoint]
      by_cases hroom : d.quotient * tenTo (min 9 (-d.scale).toNat) < limit
      · exact shift_gives h (by omega) (by omega) (by omega) hroom
      · have hover : d.shift b (min 9 (-d.scale).toNat) = .overflow := if_pos (by omega)
        rw [hover]
        exact tooLarge_of_limit_le hb hbelow (Nat.not_lt.mp hroom) (by omega)
  · rw [if_neg hr]
    obtain ⟨hnine, hroom, hmost⟩ := roomFor_spec d.quotient d.scale
    dsimp only
    by_cases hover : roomFor d.quotient d.scale < 9 ∧ d.scale + roomFor d.quotient d.scale < 0
    · rw [if_pos hover]
      have hlimit := (hmost hover.1).resolve_left (by omega)
      exact tooLarge_of_limit_le hb hbelow hlimit (by omega)
    · rw [if_neg hover]
      by_cases hzero : roomFor d.quotient d.scale = 0
      · rw [if_pos hzero]
        rw [hzero] at hmost hover
        refine roundOff_gives h ha (by omega) ?_ hr
        have := h.scale_le
        exact (hmost (by decide)).imp (by omega) id
      · rw [if_neg hzero]
        have hstands : ({ d with strip := true } : Division).Stands a b start k :=
          ⟨h.exact, h.remainder_lt, h.quotient_lt, h.scale_eq, h.scale_le⟩
        exact shift_gives hstands (by omega) hnine (hroom hzero).1 (hroom hzero).2

/-- **A division ends in the quotient, or the quotient is too large**, if its rounds suffice. -/
theorem run_ends {rounds : Nat} (h : d.Stands a b start k) (ha : a < limit)
    (hrounds : 28 < d.scale + rounds) :
    match run b rounds d with
    | some (m, s, _) => EndsIn a b start m s
    | none => TooLarge a b start := by
  induction rounds generalizing d k with
  | zero =>
      have := h.scale_le
      omega
  | succ rounds ih =>
      have hgives := round_gives h ha
      unfold run
      cases hround : d.round b with
      | overflow =>
          rw [hround] at hgives
          exact hgives
      | ended m s strip =>
          rw [hround] at hgives
          exact hgives
      | goesOn d' =>
          rw [hround] at hgives
          obtain ⟨hlt, k', h'⟩ := hgives
          exact ih h' (by push_cast at *; omega)

end Division

/-! ### The zeros at the end of a quotient -/

/-- Some of the zeros at the end of `q` at the scale `s` are gone. -/
structure Stripped (q : Nat) (s : Int) (r : Nat × Int) : Prop where
  nonneg : 0 ≤ r.2
  exact : ∃ j : Nat, q = r.1 * tenTo j ∧ s = r.2 + j

namespace Stripped

variable {q : Nat} {s : Int}

theorem refl (hs : 0 ≤ s) : Stripped q s (q, s) := ⟨hs, 0, by simp, by simp⟩

theorem trans {r t : Nat × Int} (h : Stripped q s r) (h' : Stripped r.1 r.2 t) :
    Stripped q s t := by
  obtain ⟨i, hq, hs⟩ := h.exact
  obtain ⟨j, hq', hs'⟩ := h'.exact
  refine ⟨h'.nonneg, j + i, ?_, by push_cast; omega⟩
  rw [hq, hq', tenTo_add, Nat.mul_assoc]

theorem of_mod {k : Nat} (hscale : (k : Int) ≤ s) (hzeros : q % tenTo k = 0) :
    Stripped q s (q / tenTo k, s - k) := by
  refine ⟨by simpa using hscale, k, ?_, by simp⟩
  exact (Nat.div_mul_cancel (Nat.dvd_of_mod_eq_zero hzeros)).symm

theorem strip (k : Nat) (hs : 0 ≤ s) : Stripped q s (stripZeros.strip k q s) := by
  unfold stripZeros.strip
  split
  · rename_i h
    exact of_mod h.1 h.2
  · exact refl hs

theorem stripEights (n : Nat) (hs : 0 ≤ s) : Stripped q s (stripZeros.stripEights q s n) := by
  induction n generalizing q s with
  | zero => exact refl hs
  | succ n ih =>
      unfold stripZeros.stripEights
      split
      · rename_i h
        have height : Stripped q s (q / tenTo 8, s - 8) := of_mod h.2.1 h.2.2
        exact height.trans (ih height.nonneg)
      · exact refl hs

end Stripped

theorem stripZeros_stripped {q : Nat} {s : Int} (hs : 0 ≤ s) :
    Stripped q s (stripZeros q s) := by
  have h8 := Stripped.stripEights (q := q) 4 hs
  have h4 := h8.trans (.strip 4 h8.nonneg)
  have h2 := h4.trans (.strip 2 h4.nonneg)
  exact h2.trans (.strip 1 h2.nonneg)

/-! ### Quotients -/

/--
The quotient of `value` and `amount` is `m / 10 ^ places`, rounded half to even at the
most places that leave room for it.
-/
structure Rounded (value amount m places : Nat) : Prop where
  places_le : places ≤ 28
  lt_limit : m < limit
  rounded : m = divHalfEven (value * tenTo places) amount
  most : value * tenTo places = m * amount ∨ places = 28 ∨
    limit ≤ divHalfEven (value * tenTo (places + 1)) amount

/-- What a division ends in, at scales of its own, is the quotient in units. -/
theorem Division.EndsIn.rounded_units {a b : Decimal} {m : Nat} {s : Int}
    (h : EndsIn a.magnitude b.magnitude ((a.scale : Int) - b.scale) m s) :
    Rounded a.units.natAbs b.units.natAbs m s.toNat := by
  obtain ⟨k, hs, hm, hmost⟩ := h.rounded
  have hnonneg := h.nonneg
  have ha28 := a.scale_le
  have hb28 := b.scale_le
  -- Both are multiplied by the same power of ten.
  have common (i : Nat) : a.units.natAbs * tenTo (s.toNat + i) =
      a.magnitude * tenTo (k + i) * tenTo (28 - b.scale) := by
    rw [natAbs_units, Nat.mul_assoc, Nat.mul_assoc, ← tenTo_add, ← tenTo_add]
    congr 2
    omega
  have hround (i : Nat) : divHalfEven (a.units.natAbs * tenTo (s.toNat + i)) b.units.natAbs =
      divHalfEven (a.magnitude * tenTo (k + i)) b.magnitude := by
    rw [common, natAbs_units, divHalfEven_mul_mul _ _ (tenTo_pos _)]
  refine ⟨by have := h.scale_le; omega, h.lt_limit, ?_, ?_⟩
  · rw [hm]
    exact (hround 0).symm
  · rcases hmost with hexact | hlast | hnext
    · left
      rw [show s.toNat = s.toNat + 0 from rfl, common, Nat.add_zero, hexact, natAbs_units,
        Nat.mul_assoc]
    · exact Or.inr (Or.inl (by omega))
    · exact Or.inr (Or.inr (by rwa [hround]))

theorem Division.TooLarge.units {a b : Decimal} (ha : 0 ≤ a.units) (hb : 0 ≤ b.units)
    (h : TooLarge a.magnitude b.magnitude ((a.scale : Int) - b.scale)) :
    ((limit - 1 : Nat) : Int) * b.units < a.units := by
  obtain ⟨hstart, hlarge⟩ := h
  have hb28 := b.scale_le
  have hunits := Nat.mul_lt_mul_of_pos_right hlarge (tenTo_pos (28 - b.scale))
  rw [Nat.mul_assoc, Nat.mul_assoc, ← tenTo_add, ← natAbs_units,
    show (-((a.scale : Int) - b.scale)).toNat + (28 - b.scale) = 28 - a.scale by omega,
    ← natAbs_units] at hunits
  rw [← Int.natAbs_of_nonneg ha, ← Int.natAbs_of_nonneg hb]
  exact_mod_cast hunits

/-- A quotient without some of its zeros is the same number. -/
theorem Division.EndsIn.ofParts? {a b m : Nat} {start s : Int} (h : EndsIn a b start m s)
    {r : Nat × Int} (hr : Stripped m s r) : ∃ d : Decimal,
      ofParts? false r.1 r.2.toNat = some d ∧ d.units = m * tenTo (28 - s.toNat) := by
  obtain ⟨hnonneg, j, hm, hs⟩ := hr
  have hscale := h.scale_le
  have hlt : r.1 < limit :=
    Nat.lt_of_le_of_lt (hm ▸ Nat.le_mul_of_pos_right _ (tenTo_pos j)) h.lt_limit
  obtain ⟨d, hd, hunits⟩ := ofParts?_of_lt false hlt (show r.2.toNat ≤ 28 by omega)
  refine ⟨d, hd, ?_⟩
  rw [hunits, if_neg (by decide), hm,
    show 28 - r.2.toNat = j + (28 - s.toNat) by omega, tenTo_add]
  push_cast
  ring

theorem not_negative {a : Decimal} (h : 0 ≤ a.units) : a.negative = false := by
  have hpos : (0 : Int) < tenTo (28 - a.scale) := by exact_mod_cast tenTo_pos _
  have := Int.nonneg_of_mul_nonneg_left h hpos
  simpa [negative] using this

theorem magnitude_pos {a : Decimal} (h : 0 < a.units) : 0 < a.magnitude := by
  refine Nat.pos_of_ne_zero fun h0 => ?_
  have := a.natAbs_units
  rw [h0, Nat.zero_mul] at this
  omega

/-- The division of two magnitudes, before its first round. -/
theorem Division.stands_start {a b : Decimal} (hb : 0 < b.magnitude) :
    Stands a.magnitude b.magnitude ((a.scale : Int) - b.scale)
      ⟨a.magnitude / b.magnitude, a.magnitude % b.magnitude, (a.scale : Int) - b.scale, false⟩
      0 where
  exact := by rw [tenTo_zero, Nat.mul_one, Nat.mul_comm, Nat.div_add_mod]
  remainder_lt := Nat.mod_lt _ hb
  quotient_lt := Nat.lt_of_le_of_lt (Nat.div_le_self _ _) a.mantissa_lt
  scale_eq := by simp
  scale_le := by
    have := a.scale_le
    show (a.scale : Int) - b.scale ≤ 28
    omega

/-- **A quotient is found, and rounded once, unless it is too large for any decimal.** -/
theorem div_cases {a b : Decimal} (ha : 0 ≤ a.units) (hb : 0 < b.units) :
    (∃ d m places, a.div b = some d ∧ Rounded a.units.natAbs b.units.natAbs m places ∧
      d.units = m * tenTo (28 - places)) ∨
    a.div b = none ∧ ((limit - 1 : Nat) : Int) * b.units < a.units := by
  have hbzero : ¬ b.isZero = true := fun h => by rw [isZero_iff] at h; omega
  unfold div
  rw [if_neg hbzero]
  by_cases hazero : a.isZero = true
  · rw [if_pos hazero, isZero_iff.mp hazero]
    have hzero : divHalfEven 0 b.units.natAbs = 0 := by
      simpa using divHalfEven_mul (d := b.units.natAbs) (by omega) 0
    exact Or.inl ⟨zero, 0, 0, rfl, ⟨by decide, by decide, by simpa using hzero.symm, by simp⟩,
      by simp⟩
  · rw [if_neg hazero]
    have hrounds : 28 < (a.scale : Int) - b.scale + (Division.maxRounds : Nat) := by
      have := b.scale_le
      unfold Division.maxRounds
      omega
    have hends := Division.run_ends (Division.stands_start (a := a) (magnitude_pos hb))
      a.mantissa_lt hrounds
    simp only [Option.bind_eq_bind, not_negative ha, not_negative hb.le]
    generalize Division.run _ _ _ = result at hends ⊢
    cases result with
    | none => exact Or.inr ⟨rfl, hends.units ha hb.le⟩
    | some r =>
        obtain ⟨m, s, strip⟩ := r
        have hstripped : Stripped m s (if strip then stripZeros m s else (m, s)) := by
          split
          · exact stripZeros_stripped hends.nonneg
          · exact .refl hends.nonneg
        obtain ⟨d, hd, hunits⟩ := hends.ofParts? hstripped
        exact Or.inl ⟨d, m, s.toNat, hd, hends.rounded_units, hunits⟩

/-! ### Rounding a quotient never passes a decimal -/

namespace Rounded

variable {value amount m places : Nat}

/-- A decimal with more places than a quotient was left with is below the tenth of the limit. -/
theorem lt_of_not_dvd {d : Decimal} (h : ¬ tenTo (28 - places) ∣ d.units.natAbs) :
    places < 28 ∧ d.units.natAbs ≤ (limit - 1) * tenTo (28 - (places + 1)) := by
  rw [natAbs_units] at h ⊢
  have hscale : places < d.scale := by
    by_contra hc
    exact h (Dvd.dvd.mul_left (tenTo_dvd (by omega)) _)
  have := d.scale_le
  refine ⟨by omega, Nat.mul_le_mul (Nat.le_sub_one_of_lt d.mantissa_lt) (tenTo_le (by omega))⟩

theorem tenTo_split (hp : places ≤ 28) : tenTo 28 = tenTo places * tenTo (28 - places) := by
  rw [← tenTo_add]
  congr 1
  omega

/-- A quotient that is exact and one that is not, at the finest place a decimal could add. -/
theorem exact_or_full (h : Rounded value amount m places) (hp : places < 28) :
    value * tenTo 28 = m * tenTo (28 - places) * amount ∨
      limit ≤ divHalfEven (value * tenTo (places + 1)) amount := by
  rcases h.most with hexact | hlast | hfull
  · left
    rw [tenTo_split h.places_le, ← Nat.mul_assoc, hexact, Nat.mul_right_comm]
  · omega
  · exact Or.inr hfull

/-- What bounds a quotient from above at its last place bounds it once it is rounded. -/
theorem le_of_dvd (h : Rounded value amount m places) (hamount : 0 < amount) {u : Nat}
    (hdvd : tenTo (28 - places) ∣ u) (hu : value * tenTo 28 ≤ u * amount) :
    m * tenTo (28 - places) ≤ u := by
  obtain ⟨l, rfl⟩ := hdvd
  rw [Nat.mul_comm _ l] at hu ⊢
  rw [tenTo_split h.places_le, ← Nat.mul_assoc, Nat.mul_right_comm l] at hu
  have hle := Nat.le_of_mul_le_mul_right hu (tenTo_pos _)
  rw [h.rounded]
  exact Nat.mul_le_mul_right _ (divHalfEven_le_of_le hamount hle)

/-- What bounds a quotient from below at its last place bounds it once it is rounded. -/
theorem ge_of_dvd (h : Rounded value amount m places) (hamount : 0 < amount) {u : Nat}
    (hdvd : tenTo (28 - places) ∣ u) (hu : u * amount ≤ value * tenTo 28) :
    u ≤ m * tenTo (28 - places) := by
  obtain ⟨l, rfl⟩ := hdvd
  rw [Nat.mul_comm _ l] at hu ⊢
  rw [tenTo_split h.places_le, ← Nat.mul_assoc, Nat.mul_right_comm l] at hu
  have hle := Nat.le_of_mul_le_mul_right hu (tenTo_pos _)
  rw [h.rounded]
  exact Nat.mul_le_mul_right _ (le_divHalfEven_of_le hamount hle)

/-- **A quotient that a decimal bounds from above is still so once it is rounded.** -/
theorem le_of_le (h : Rounded value amount m places) (hamount : 0 < amount) {d : Decimal}
    (hd : value * tenTo 28 ≤ d.units.natAbs * amount) :
    m * tenTo (28 - places) ≤ d.units.natAbs := by
  by_cases hdvd : tenTo (28 - places) ∣ d.units.natAbs
  · exact h.le_of_dvd hamount hdvd hd
  · obtain ⟨hp, hsmall⟩ := lt_of_not_dvd hdvd
    rcases h.exact_or_full hp with hexact | hfull
    · rw [hexact] at hd
      exact Nat.le_of_mul_le_mul_right hd hamount
    · exfalso
      have hle : value * tenTo 28 ≤ (limit - 1) * tenTo (28 - (places + 1)) * amount :=
        Nat.le_trans hd (Nat.mul_le_mul_right _ hsmall)
      rw [tenTo_split (show places + 1 ≤ 28 from hp), ← Nat.mul_assoc,
        Nat.mul_right_comm (limit - 1)] at hle
      have hle' := Nat.le_of_mul_le_mul_right hle (tenTo_pos _)
      have := divHalfEven_le_of_le hamount hle'
      rw [limit_eq] at *
      omega

/-- **A quotient that a decimal bounds from below is still so once it is rounded.** -/
theorem ge_of_ge (h : Rounded value amount m places) (hamount : 0 < amount) {d : Decimal}
    (hd : d.units.natAbs * amount ≤ value * tenTo 28) :
    d.units.natAbs ≤ m * tenTo (28 - places) := by
  by_cases hdvd : tenTo (28 - places) ∣ d.units.natAbs
  · exact h.ge_of_dvd hamount hdvd hd
  · obtain ⟨hp, hsmall⟩ := lt_of_not_dvd hdvd
    rcases h.exact_or_full hp with hexact | hfull
    · rw [hexact] at hd
      exact Nat.le_of_mul_le_mul_right hd hamount
    · -- The mantissa is as large as it can be, so that its tenfold reaches beyond the limit.
      have hten : limit - 1 ≤ m * 10 := by
        have hnear := (divHalfEven_near (value * tenTo places) hamount).2
        have hnext := (divHalfEven_near (value * tenTo (places + 1)) hamount).1
        rw [← h.rounded] at hnear
        have hlarge := Nat.mul_le_mul_right amount hfull
        have hstep : value * tenTo (places + 1) = value * tenTo places * 10 := by
          rw [tenTo_succ, Nat.mul_assoc]
        have hbound : 2 * limit * amount ≤ (20 * m + 11) * amount := by
          rw [Nat.add_mul, Nat.mul_assoc, Nat.mul_assoc]
          omega
        have := Nat.le_of_mul_le_mul_right hbound hamount
        rw [limit_eq] at *
        omega
      calc d.units.natAbs ≤ (limit - 1) * tenTo (28 - (places + 1)) := hsmall
        _ ≤ m * 10 * tenTo (28 - (places + 1)) := Nat.mul_le_mul_right _ hten
        _ = m * tenTo (28 - places) := by
            rw [show 28 - places = 28 - (places + 1) + 1 by omega, tenTo_succ]
            ring

end Rounded

end Bourse.Decimal
