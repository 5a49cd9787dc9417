/-
Decimal numbers that remember how many places they were written with.

A decimal is an integer mantissa of at most 96 bits over a power of ten of at most
28.  The number of places is part of the value, because it is printed: `1.50` and
`1.5` are different decimals.  Order and sameness are numeric all the same.

Every decimal is a whole number of units of 10⁻²⁸, and `units` is that number.  It
is the one view through which decimals are compared, so two decimals of any scales
are ordered exactly, without rounding.
-/
import Bourse.Power

namespace Bourse

/-- The least magnitude that a mantissa cannot have, 2⁹⁶. -/
def Decimal.limit : Nat := 79228162514264337593543950336

/-- A mantissa and a number of places: the value is `mantissa / 10 ^ scale`. -/
structure Decimal where
  mantissa : Int
  scale : Nat
  mantissa_lt : mantissa.natAbs < Decimal.limit
  scale_le : scale ≤ 28
deriving DecidableEq

namespace Decimal

/-- The most places a decimal can have. -/
def maxScale : Nat := 28

/-- The decimal with this sign, magnitude and scale, if it is in range. -/
def ofParts? (negative : Bool) (magnitude scale : Nat) : Option Decimal :=
  if h : magnitude < limit ∧ scale ≤ 28 then
    some ⟨if negative then -(magnitude : Int) else magnitude, scale, by split <;> omega, h.2⟩
  else none

/-- Zero without places. -/
def zero : Decimal := ⟨0, 0, by decide, by decide⟩

instance : Inhabited Decimal := ⟨zero⟩

/-- The largest magnitude, without places. -/
def greatest : Decimal := ⟨79228162514264337593543950335, 0, by decide, by decide⟩

/-- Distance from zero, in units of the decimal's own last place. -/
def magnitude (a : Decimal) : Nat := a.mantissa.natAbs

/-- Is the decimal below zero? -/
def negative (a : Decimal) : Bool := a.mantissa < 0

/-- Is the decimal zero, of whatever scale? -/
def isZero (a : Decimal) : Bool := a.mantissa == 0

/-- The same magnitude on the other side of zero. -/
def neg (a : Decimal) : Decimal := ⟨-a.mantissa, a.scale, by simpa using a.mantissa_lt, a.scale_le⟩

/-- The value as a whole number of 10⁻²⁸. -/
def units (a : Decimal) : Int := a.mantissa * tenTo (28 - a.scale)

/-! ### Numeric order -/

instance : LE Decimal := ⟨fun a b => a.units ≤ b.units⟩
instance : LT Decimal := ⟨fun a b => a.units < b.units⟩
instance (a b : Decimal) : Decidable (a ≤ b) := inferInstanceAs (Decidable (a.units ≤ b.units))
instance (a b : Decimal) : Decidable (a < b) := inferInstanceAs (Decidable (a.units < b.units))

/-- Numeric comparison; it answers `eq` for the same value at two scales. -/
def cmp (a b : Decimal) : Ordering := compare a.units b.units

/-- Are the two numerically equal? -/
def same (a b : Decimal) : Bool := a.units == b.units

/-- Is the decimal above zero? -/
def positive (a : Decimal) : Bool := decide (0 < a.mantissa)

/-- The smaller of two; of two equal ones, the first. -/
def least (a b : Decimal) : Decimal := if b < a then b else a

theorem le_iff {a b : Decimal} : a ≤ b ↔ a.units ≤ b.units := Iff.rfl

theorem lt_iff {a b : Decimal} : a < b ↔ a.units < b.units := Iff.rfl

@[simp] theorem units_zero : zero.units = 0 := by decide

theorem units_neg (a : Decimal) : a.neg.units = -a.units := Int.neg_mul _ _

theorem units_eq_zero_iff (a : Decimal) : a.units = 0 ↔ a.mantissa = 0 := by
  have h : (tenTo (28 - a.scale) : Int) ≠ 0 := by
    have := tenTo_pos (28 - a.scale)
    omega
  exact Int.mul_eq_zero.trans (or_iff_left h)

end Decimal

end Bourse
