/-
Reading a number step by step, with a rounding at each of them.

The digits are put into a word of 64 bits as long as they fit, those that do not fit only
count as powers of ten, and the number in the word is then multiplied with or divided by a
power of ten.  The result is near the number that is written, but not always the nearest.
-/
import Bourse.Binary64.Arith
import Bourse.Text.Parts

namespace Bourse.Binary64

open Bourse.Text

/-- The greatest power of ten that one step multiplies with or divides by. -/
def maxStep : Nat := 308

/-- Puts digits behind a number as long as it fits into a word, and gives back the others. -/
def gather (n : Nat) : List Char → Nat × List Char
  | [] => (n, [])
  | c :: cs =>
    if twoTo 64 ≤ n * 10 + digitValue c then (n, c :: cs) else gather (n * 10 + digitValue c) cs

/-- Ten to a power. -/
def power (e : Nat) : Binary64 := ofScientific false 1 e

/-- The number `x * 10 ^ e`, step by step, unless it is too great. -/
def shift? (x : Binary64) (e : Int) : Option Binary64 :=
  if e.natAbs ≤ maxStep then
    let y := if 0 ≤ e then x.mul (power e.toNat) else x.div (power (-e).toNat)
    if y.isInfinite then none else some y
  else if x.isZero then some x
  else if 0 < e then none
  else shift? (x.div (power maxStep)) (e + maxStep)
termination_by e.natAbs
decreasing_by simp only [maxStep] at *; omega

/-- The number that digits before and after a point and a power of ten stand for. -/
def ofParts? (whole places : List Char) (e : Int) : Option Binary64 :=
  let (n, rest) := gather 0 whole
  let (n, dropped) := gather n places
  shift? (ofScientific false n 0) (e + rest.length - (places.length - dropped.length : Nat))

/-- The opposite number. -/
def neg : Binary64 → Binary64
  | nan => nan
  | infinite s => infinite !s
  | finite s m q => finite (!s) m q

/--
The number that a spelling stands for: digits, perhaps with a minus in front, a point
inside and a power of ten behind an `e`.
-/
def ofSpelling? (spelling : List Char) : Option Binary64 :=
  let (negative, cs) := match spelling with
    | '-' :: cs => (true, cs)
    | cs => (false, cs)
  let (digits, exponent) := cutAt 'e' (cs.map Char.toLower)
  let (whole, places) := cutAt '.' digits
  let (descending, ds) := match exponent.getD [] with
    | '-' :: ds => (true, ds)
    | '+' :: ds => (false, ds)
    | ds => (false, ds)
  let e : Int := ofDigits ds
  let x := ofParts? whole (places.getD []) (if descending then -e else e)
  if negative then x.map neg else x

end Bourse.Binary64
