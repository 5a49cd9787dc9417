/-
The text of a binary floating-point number.

A number is written with the fewest digits that read back as it, of those with the
nearest and of two equally near ones with the greater, and always by place, without an
exponent.
-/
import Bourse.Binary64.Basic

namespace Bourse.Binary64

open Bourse.Text

/-! ### Reading -/

/-- The digits, places and power of a number written in digits, read up to its end. -/
def readDecimal (cs : List Char) : Option (Nat × Int) := do
  let whole := cs.takeWhile Char.isDigit
  let cs := cs.dropWhile Char.isDigit
  let (places, cs) := match cs with
    | '.' :: r => (r.takeWhile Char.isDigit, r.dropWhile Char.isDigit)
    | r => ([], r)
  if whole.isEmpty && places.isEmpty then none
  let power ← match cs with
    | [] => some (0 : Int)
    | e :: r =>
      if e = 'e' ∨ e = 'E' then match r with
        | '-' :: ds => (natOfText? ds).map fun n => -(n : Int)
        | '+' :: ds => (natOfText? ds).map fun n => (n : Int)
        | ds => (natOfText? ds).map fun n => (n : Int)
      else none
  return (ofDigits (whole ++ places), power - places.length)

/-- The names of the numbers that are not written in digits, in small letters. -/
def named (negative : Bool) : List (String × Binary64) :=
  [("nan", .nan), ("inf", .infinite negative), ("infinity", .infinite negative)]

/-- The number that a text stands for. -/
def ofText? (cs : List Char) : Option Binary64 :=
  let (negative, cs) := match cs with
    | '-' :: r => (true, r)
    | '+' :: r => (false, r)
    | r => (false, r)
  ((named negative).lookup (String.ofList (cs.map Char.toLower))).or
    ((readDecimal cs).map fun (n, e) => ofScientific negative n e)

/-! ### Writing -/

/-- The integers `c` for which `c * 10 ^ p` reads back as `m * 2 ^ q`, nearest first. -/
def candidates (m : Nat) (q p : Int) : List Nat :=
  -- Everything is counted in quarters of `2 ^ q`, and then in units of `a / b` of `10 ^ p`.
  let a := twoTo (q - 2).toNat * tenTo (-p).toNat
  let b := twoTo (2 - q).toNat * tenTo p.toNat
  let low := if m = twoTo 52 ∧ minPower < q then 4 * m - 1 else 4 * m - 2
  let high := 4 * m + 2
  let readsBack := fun c =>
    if m % 2 = 0 then low * a ≤ c * b ∧ c * b ≤ high * a else low * a < c * b ∧ c * b < high * a
  let below := 4 * m * a / b
  let order := if 2 * (4 * m * a - below * b) < b then [below, below + 1] else [below + 1, below]
  order.filter fun c => readsBack c

/-- The fewest digits that read back, as an integer and a power of ten, from `10 ^ p` down. -/
def fewest (m : Nat) (q : Int) : Nat → Int → Nat × Int
  | 0, p => (0, p)
  | fuel + 1, p =>
    match candidates m q p with
    | c :: _ => (c, p)
    | [] => fewest m q fuel (p - 1)

/-- The number `c * 10 ^ p`, written by place. -/
def writePlaces (c : Nat) (p : Int) : List Char :=
  if 0 ≤ p then Nat.toDigits 10 c ++ List.replicate p.toNat '0'
  else
    let places := (-p).toNat
    let ds := paddedDigits (places + 1) c
    ds.take (ds.length - places) ++ '.' :: ds.drop (ds.length - places)

/--
The characters of a number.  Ten to the power the search begins with is greater than the
number, and forty digits further down it is less than any gap between two numbers there.
-/
def write : Binary64 → List Char
  | nan => "NaN".toList
  | infinite negative => (if negative then ['-'] else []) ++ "inf".toList
  | finite negative m q =>
    (if negative then ['-'] else []) ++
      if m = 0 then ['0']
      else
        let (c, p) := fewest m q 40 ((q + 53) * 30103 / 100000 + 1)
        writePlaces c p

/-- The text of a number. -/
def text (x : Binary64) : String := String.ofList x.write

end Bourse.Binary64
