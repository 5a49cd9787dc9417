/-
Products and quotients of binary floating-point numbers.

Each is the number nearest to the exact product or quotient, of two equally near ones
the one with the even significand.
-/
import Bourse.Binary64.Basic

namespace Bourse.Binary64

/-- The number nearest to the fraction `n / d` times `2 ^ q`. -/
def nearestScaled (negative : Bool) (n d : Nat) (q : Int) : Binary64 :=
  if n = 0 then zero negative
  else
    let (a, b) := scaleDown n d (-q)
    nearest negative a b

/-- The product. -/
def mul : Binary64 → Binary64 → Binary64
  | nan, _ => nan
  | _, nan => nan
  | finite s m q, finite t n r => nearestScaled (s != t) (m * n) 1 (q + r)
  | infinite s, infinite t => infinite (s != t)
  | infinite s, finite t n _ => if n = 0 then nan else infinite (s != t)
  | finite s m _, infinite t => if m = 0 then nan else infinite (s != t)

/-- The quotient. -/
def div : Binary64 → Binary64 → Binary64
  | nan, _ => nan
  | _, nan => nan
  | finite s m q, finite t n r =>
    if n ≠ 0 then nearestScaled (s != t) m n (q - r)
    else if m = 0 then nan else infinite (s != t)
  | infinite _, infinite _ => nan
  | infinite s, finite t _ _ => infinite (s != t)
  | finite s _ _, infinite t => zero (s != t)

end Bourse.Binary64
