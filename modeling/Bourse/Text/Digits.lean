/-
Decimal digits: the number a run of them stands for, and the run a number is written as.
-/
import Bourse.Power

namespace Bourse.Text

/-- The value of a decimal digit. -/
def digitValue (c : Char) : Nat := c.toNat - '0'.toNat

/-- The number that a run of digits stands for. -/
def ofDigits (ds : List Char) : Nat := ds.foldl (fun n c => n * 10 + digitValue c) 0

/-- The digits of a number, with zeros in front to make at least `width` of them. -/
def paddedDigits (width n : Nat) : List Char :=
  let ds := Nat.toDigits 10 n
  List.replicate (width - ds.length) '0' ++ ds

/-- The number that a whole text of digits stands for; `none` if it has anything else or nothing. -/
def natOfText? (cs : List Char) : Option Nat :=
  if cs.isEmpty || cs.any (!·.isDigit) then none else some (ofDigits cs)

/-- The value of a digit to base sixteen. -/
def hexValue? (c : Char) : Option Nat :=
  if c.isDigit then some (digitValue c)
  else if 'a' ≤ c ∧ c ≤ 'f' then some (c.toNat - 87)
  else if 'A' ≤ c ∧ c ≤ 'F' then some (c.toNat - 55)
  else none

/-- The number that digits to base sixteen stand for; no digits stand for zero. -/
def natOfHex? (cs : List Char) : Option Nat :=
  cs.foldlM (fun n c => (hexValue? c).map (n * 16 + ·)) 0

/--
The integer below 2⁶³ on either side of zero that a text stands for, with or without a
sign.
-/
def int64OfText? (cs : List Char) : Option Int := do
  let (negative, ds) := match cs with
    | '-' :: r => (true, r)
    | '+' :: r => (false, r)
    | r => (false, r)
  let n ← natOfText? ds
  let n : Int := if negative then -(n : Int) else n
  if inSignedWord 64 n then some n else none

/--
At most `most` digits from the front, and what follows them; `none` if there is not even
one.
-/
def readDigits (most : Nat) (cs : List Char) : Option (Nat × List Char) :=
  let ds := (cs.take most).takeWhile Char.isDigit
  if ds.isEmpty then none else some (ofDigits ds, cs.drop ds.length)

end Bourse.Text
