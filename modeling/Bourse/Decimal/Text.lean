/-
The text of a decimal.

A decimal is written with exactly its scale's number of places, so its text gives
back the same decimal.  Reading takes more than is ever written: a plus sign, a bare
leading or trailing point, underscores between digits, more digits than fit (the rest
is rounded away), and an exponent.
-/
import Bourse.Decimal.Arith
import Bourse.Text.Digits

namespace Bourse.Decimal

open Bourse.Text

/-! ### Reading -/

/-- Rounds `m` by the digit `d` that follows it, a half away from zero. -/
def roundIn (m s d : Nat) : Option (Nat × Nat) :=
  let m := if 5 ≤ d then m + 1 else m
  if m < limit then some (m, s)
  else if s = 0 then none
  else some ((m + 4) / 10, s - 1)

/--
A mantissa below this is read as a short one: it and any digit after it fit into 64 bits
with room to spare.
-/
def shortLimit : Nat := (twoTo 64 - 1) / 10 - 255

/--
Ends a reading that has no room for more: the digit that comes next rounds it, and those
after it count for nothing.  All that comes has to be digits or underscores.  An
underscore is a zero at the end of a short mantissa; at the end of a long one it is passed
over.
-/
def settle (m s : Nat) (short : Bool) (cs : List Char) : Option (Nat × Nat) :=
  match if short then cs else cs.dropWhile (· == '_') with
  | [] => some (m, s)
  | c :: cs =>
    if (c :: cs).all fun c => c.isDigit || c == '_' then
      roundIn m s (if c = '_' then 0 else digitValue c)
    else none

/--
Reads digits onto `m` at scale `s`.  `point` says whether the point has been read,
`seen` whether a digit has.
-/
def readDigits (m s : Nat) (point seen : Bool) : List Char → Option (Nat × Nat)
  | [] => if seen then some (m, s) else none
  | c :: cs =>
    if c = '.' then
      if point then none else readDigits m s true seen cs
    else if c = '_' then
      if seen then readDigits m s point seen cs else none
    else if c.isDigit then
      let d := digitValue c
      if limit ≤ m * 10 + d then
        if point then settle m s false (c :: cs) else none
      else if !point then readDigits (m * 10 + d) s point true cs
      else if s + 1 = maxScale then settle (m * 10 + d) (s + 1) (m < shortLimit) cs
      else readDigits (m * 10 + d) (s + 1) point true cs
    else none

/-- Reads a decimal without an exponent. -/
def readPlain (cs : List Char) : Option Decimal :=
  let (negative, cs) := match cs with
    | '-' :: r => (true, r)
    | '+' :: r => (false, r)
    | r => (false, r)
  (readDigits 0 0 false false cs).bind fun (m, s) => ofParts? negative m s

/-- Reads a natural below 2³², with or without a plus sign. -/
def readExponent (cs : List Char) : Option Nat :=
  let ds := match cs with
    | '+' :: r => r
    | r => r
  (natOfText? ds).filter (· < twoTo 32)

/-- Removes the zeros that end the places. -/
def stripPlaces (m : Int) : Nat → Int × Nat
  | 0 => (m, 0)
  | s + 1 => if m % 10 = 0 then stripPlaces (m / 10) s else (m, s + 1)

/-- The decimal with no zero at the end of its places. -/
def normalized (a : Decimal) : Decimal :=
  let (m, s) := stripPlaces a.mantissa a.scale
  (ofParts? (decide (m < 0)) m.natAbs s).getD zero

/-- Moves the point of `a` to the left by `n` places. -/
def shiftLeft (a : Decimal) (n : Nat) : Option Decimal :=
  if maxScale < n then none
  else
    let a := if maxScale < a.scale + n then a.roundAway (maxScale - n) else a
    ofParts? a.negative a.magnitude (a.scale + n)

/-- Moves the point of `a` to the right by `n` places. -/
def shiftRight (a : Decimal) (n : Nat) : Option Decimal :=
  if n ≤ a.scale then ofParts? a.negative a.magnitude (a.scale - n)
  else if maxScale < n then none
  else do
    let power ← ofParts? false (tenTo n) 0
    let product ← mul a power
    return product.normalized

/-- Reads a decimal with an exponent after the first `e` or `E`. -/
def readScientific (cs : List Char) : Option Decimal :=
  let mark : Char → Bool := fun c => c == 'e' || c == 'E'
  match cs.dropWhile (!mark ·) with
  | [] => none
  | _ :: exponent => do
    let base ← readPlain (cs.takeWhile (!mark ·))
    match exponent with
    | '-' :: r => shiftLeft base (← readExponent r)
    | r => shiftRight base (← readExponent r)

/-- The decimal a text stands for. -/
def ofText? (text : String) : Option Decimal :=
  (readPlain text.toList).or (readScientific text.toList)

/-! ### Writing -/

/-- The characters of a magnitude at a scale. -/
def writeMagnitude (m scale : Nat) : List Char :=
  let ds := paddedDigits (scale + 1) m
  let whole := ds.take (ds.length - scale)
  if scale = 0 then whole else whole ++ '.' :: ds.drop (ds.length - scale)

/-- The text of a decimal, with all its places. -/
def text (a : Decimal) : String :=
  let cs := writeMagnitude a.magnitude a.scale
  String.ofList (if a.negative then '-' :: cs else cs)

end Bourse.Decimal
