/-
Binary floating-point numbers of 64 bits, as exact values.

A finite number is `m * 2 ^ q` with a significand `m` below 2⁵³ and a power `q` from
-1074 to 971, and `m` is at least 2⁵² unless `q` is -1074.  A number that is written with
decimal digits stands for the nearest of these, of two equally near ones for the one with
the even significand; from halfway past the greatest on it stands for infinity.
-/
import Bourse.Decimal.Arith
import Bourse.Text.Digits

namespace Bourse

/-- A binary floating-point number of 64 bits. -/
inductive Binary64
  | nan
  | infinite (negative : Bool)
  /-- The number `m * 2 ^ q` or its opposite. -/
  | finite (negative : Bool) (m : Nat) (q : Int)
deriving DecidableEq, Inhabited

namespace Binary64

/-- The least power of two that a significand is multiplied with. -/
def minPower : Int := -1074

/-- The greatest power of two that a significand is multiplied with. -/
def maxPower : Int := 971

/-- The fraction `n / d` divided by a power of two, as a fraction. -/
def scaleDown (n d : Nat) (q : Int) : Nat × Nat :=
  if 0 ≤ q then (n, d * twoTo q.toNat) else (n * twoTo (-q).toNat, d)

/-- The greatest power of two that is at most the fraction `n / d`, as its exponent. -/
def binaryOrder (n d : Nat) : Int :=
  let e : Int := (n.log2 : Int) - d.log2
  let (a, b) := scaleDown n d e
  if b ≤ a then e else e - 1

/-- The number nearest to the fraction `n / d`. -/
def nearest (negative : Bool) (n d : Nat) : Binary64 :=
  let q := max minPower (binaryOrder n d - 52)
  let (a, b) := scaleDown n d q
  let m := Decimal.divHalfEven a b
  let (m, q) := if m = twoTo 53 then (twoTo 52, q + 1) else (m, q)
  if maxPower < q then .infinite negative else .finite negative m q

/-- Zero. -/
def zero (negative : Bool) : Binary64 := .finite negative 0 minPower

/--
The number nearest to `n * 10 ^ e`.  Far outside the range the answer is known without
the power.
-/
def ofScientific (negative : Bool) (n : Nat) (e : Int) : Binary64 :=
  let order : Int := (Nat.toDigits 10 n).length + e
  if n = 0 ∨ order < -330 then zero negative
  else if 310 < order then .infinite negative
  else if 0 ≤ e then nearest negative (n * tenTo e.toNat) 1
  else nearest negative n (tenTo (-e).toNat)

/-- Is the number infinite? -/
def isInfinite : Binary64 → Bool
  | infinite _ => true
  | _ => false

/-- Is the number zero? -/
def isZero : Binary64 → Bool
  | finite _ m _ => m == 0
  | _ => false

/--
The nearest whole number between two bounds, a half away from zero; what is not a number
gives zero.
-/
def toIntWithin (lo hi : Int) : Binary64 → Int
  | nan => 0
  | infinite true => lo
  | infinite false => hi
  | finite negative m q =>
    let (a, b) := scaleDown m 1 (-q)
    let n : Int := (2 * a + b) / (2 * b)
    max lo (min hi (if negative then -n else n))

end Binary64

end Bourse
