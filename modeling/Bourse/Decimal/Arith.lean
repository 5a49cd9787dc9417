/-
Arithmetic on decimals, with its roundings.

An exact result may need more digits than a mantissa holds or more places than a
scale allows.  `fit` is the one rule for that: it drops as few digits as make the
number fit and rounds the rest half to even.  Sums and products are exact integers
handed to `fit`; quotients are found digit by digit and rounded where the digits run
out.  A result that fits at no scale is `none`.
-/
import Bourse.Decimal.Basic

namespace Bourse.Decimal

/-! ### Rounding a quotient of naturals -/

/-- `n / d` to the nearest natural, a tie to the even one. -/
def divHalfEven (n d : Nat) : Nat :=
  let q := n / d
  let r := n % d
  if 2 * r < d then q
  else if d < 2 * r then q + 1
  else if q % 2 = 0 then q else q + 1

/-- `n / d` to the nearest natural, a tie to the larger one. -/
def divHalfUp (n d : Nat) : Nat :=
  if 2 * (n % d) < d then n / d else n / d + 1

/-! ### Fitting an exact result into a decimal -/

/-- The least number of final digits whose removal brings `n` below the mantissa limit. -/
def surplusDigits (n : Nat) : Nat :=
  if n < limit then 0 else surplusDigits (n / 10) + 1
termination_by n
decreasing_by
  have : limit = 79228162514264337593543950336 := rfl
  omega

/--
The magnitude and scale of the decimal nearest to `n / 10 ^ scale`, dropping as few
digits as possible; `none` when even a scale of zero leaves it too large.
-/
def fit (n scale : Nat) : Option (Nat × Nat) :=
  let excess := scale - maxScale
  let drop := excess + surplusDigits (n / tenTo excess)
  if scale < drop then none
  else
    let m := divHalfEven n (tenTo drop)
    if m < limit then some (m, scale - drop)
    else if scale - drop = 0 then none
    else some (divHalfEven m 10, scale - drop - 1)

/-- `fit` for a signed number. -/
def fitted (n : Int) (scale : Nat) : Option Decimal := do
  let (m, s) ← fit n.natAbs scale
  ofParts? (decide (n < 0)) m s

/-! ### Sums -/

/-- A sum; a zero operand gives the other one back unchanged. -/
def add (a b : Decimal) : Option Decimal :=
  if a.isZero then some b
  else if b.isZero then some a
  else
    let s := max a.scale b.scale
    fitted (a.mantissa * tenTo (s - a.scale) + b.mantissa * tenTo (s - b.scale)) s

/-- A difference, as the sum with the opposite. -/
def sub (a b : Decimal) : Option Decimal := add a b.neg

/-- A sum that stops at the largest magnitude, on the side of the number added. -/
def saturatingAdd (a b : Decimal) : Decimal :=
  (add a b).getD (if b.negative then greatest.neg else greatest)

/-- The sum of a list, taken from the left and starting at zero. -/
def sum? : List Decimal → Option Decimal :=
  List.foldlM add zero

/-! ### Products -/

/--
A product.  Two mantissas below 2³² with more than 47 places between them give zero
without looking further.
-/
def mul (a b : Decimal) : Option Decimal :=
  if a.isZero || b.isZero then some zero
  else if a.magnitude < twoTo 32 ∧ b.magnitude < twoTo 32 ∧ 47 < a.scale + b.scale then some zero
  else fitted (a.mantissa * b.mantissa) (a.scale + b.scale)

/-! ### Quotients

A division in progress has a quotient `q` at scale `s` and a remainder `r`, and shifts in
up to nine digits a round.  The scale starts between -28 and 28 and every round that goes
on raises it, so there are at most 56 rounds.
-/

/-- A division in progress. -/
structure Division where
  quotient : Nat
  remainder : Nat
  scale : Int
  /-- Have digits been shifted in for a remainder? -/
  strip : Bool
deriving DecidableEq, Inhabited

/-- What a round of a division leads to. -/
inductive DivisionRound
  | overflow
  | ended (quotient : Nat) (scale : Int) (strip : Bool)
  | goesOn (d : Division)
deriving DecidableEq, Inhabited

/-- The most digits, at most nine, that can be shifted into `q` at scale `s`. -/
def roomFor (q : Nat) (s : Int) : Nat :=
  ([9, 8, 7, 6, 5, 4, 3, 2, 1].find? fun x : Nat => s + x ≤ 28 && q * tenTo x < limit).getD 0

/-- Removes the zeros that end `q`, eight, four, two and one at a time, while the scale lasts. -/
def stripZeros (q : Nat) (s : Int) : Nat × Int :=
  let (q, s) := stripEights q s 4
  let (q, s) := strip 4 q s
  let (q, s) := strip 2 q s
  strip 1 q s
where
  /-- Removes `k` zeros if there are that many. -/
  strip (k q : Nat) (s : Int) : Nat × Int :=
    if (k : Int) ≤ s ∧ q % tenTo k = 0 then (q / tenTo k, s - k) else (q, s)
  /-- Removes zeros by eights; a scale of at most 28 has room for three rounds. -/
  stripEights (q : Nat) (s : Int) : Nat → Nat × Int
    | 0 => (q, s)
    | n + 1 =>
      if q % twoTo 32 = 0 ∧ 8 ≤ s ∧ q % tenTo 8 = 0 then stripEights (q / tenTo 8) (s - 8) n
      else (q, s)

/-- A quotient that has grown to the mantissa limit gives up its last digit. -/
def dropDigit (q : Nat) (s : Int) (inexact : Bool) : Option (Nat × Int) :=
  if s ≤ 0 then none
  else
    let e := q % 10
    let q := q / 10
    let up := 5 < e || (e == 5 && (inexact || q % 2 == 1))
    some (if up then q + 1 else q, s - 1)

namespace Division

/-- The end of a division whose last digit may have to be given up. -/
def endWith (result : Option (Nat × Int)) (strip : Bool) : DivisionRound :=
  match result with
  | some (q, s) => .ended q s strip
  | none => .overflow

/-- Shifts in `x` digits of the remainder over `b`. -/
def shift (b : Nat) (d : Division) (x : Nat) : DivisionRound :=
  let s := d.scale + x
  let q := d.quotient * tenTo x
  if limit ≤ q then .overflow
  else
    let q := q + d.remainder * tenTo x / b
    let r := d.remainder * tenTo x % b
    if limit ≤ q then endWith (dropDigit q s (r != 0)) d.strip
    else .goesOn ⟨q, r, s, d.strip⟩

/-- Rounds the quotient by what remains over `b`, a half to the even neighbour. -/
def roundOff (b : Nat) (d : Division) : DivisionRound :=
  let up := b < 2 * d.remainder ∨ (2 * d.remainder = b ∧ d.quotient % 2 = 1)
  let q := if up then d.quotient + 1 else d.quotient
  if q < limit then .ended q d.scale true else endWith (dropDigit q d.scale false) true

/-- One round of a division by `b`. -/
def round (b : Nat) (d : Division) : DivisionRound :=
  if d.remainder = 0 then
    if 0 ≤ d.scale then .ended d.quotient d.scale d.strip
    else d.shift b (min 9 (-d.scale).toNat)
  else
    let x := roomFor d.quotient d.scale
    if x < 9 ∧ d.scale + x < 0 then .overflow
    else if x = 0 then d.roundOff b
    else { d with strip := true }.shift b x

/--
The quotient and scale of a division by `b`, and whether its zeros are to be stripped;
`none` if it overflows.
-/
def run (b : Nat) : Nat → Division → Option (Nat × Int × Bool)
  | 0, _ => none
  | rounds + 1, d =>
    match d.round b with
    | .overflow => none
    | .ended q s strip => some (q, s, strip)
    | .goesOn d => run b rounds d

/-- Enough rounds for any division. -/
def maxRounds : Nat := 58

end Division

/-- A quotient; `none` for a zero divisor or a result out of range. -/
def div (a b : Decimal) : Option Decimal :=
  if b.isZero then none
  else if a.isZero then some zero
  else do
    let start : Division := {
      quotient := a.magnitude / b.magnitude
      remainder := a.magnitude % b.magnitude
      scale := (a.scale : Int) - b.scale
      strip := false }
    let (q, s, strip) ← start.run b.magnitude Division.maxRounds
    let (q, s) := if strip then stripZeros q s else (q, s)
    ofParts? (a.negative != b.negative) q s.toNat

/-! ### Fewer places -/

/-- Rounds to at most `places` places, a half away from zero. -/
def roundAway (a : Decimal) (places : Nat) : Decimal :=
  if a.scale ≤ places then a
  else
    (ofParts? a.negative (divHalfUp a.magnitude (tenTo (a.scale - places))) places).getD zero

end Bourse.Decimal
