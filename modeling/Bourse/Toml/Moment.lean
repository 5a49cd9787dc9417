/-
Dates and times of day in documents.

A date has four, two and two digits; a time of day has two digits three times and perhaps
a fraction, of which nine places count.  Where both are there, the hours and minutes by
which the clock runs ahead of UTC may follow.  All are written back in one spelling.
-/
import Bourse.Time.Instant

namespace Bourse.Toml

open Bourse.Text

/-- Reads a fixed number of digits. -/
def readWidth (width : Nat) (cs : List Char) : Option (Nat × List Char) :=
  if cs.length < width ∨ (cs.take width).any (!·.isDigit) then none
  else some (ofDigits (cs.take width), cs.drop width)

/-- Reads two digits up to a bound. -/
def readPair (greatest : Nat) (cs : List Char) : Option (Nat × List Char) :=
  (readWidth 2 cs).filter (·.1 ≤ greatest)

/-- Reads a mark. -/
def readMark (mark : Char) : List Char → Option (List Char)
  | [] => none
  | c :: cs => if c = mark then some cs else none

/-- Reads a date. -/
def readDate (cs : List Char) : Option (Date × List Char) := do
  let (year, cs) ← readWidth 4 cs
  let (month, cs) ← readWidth 2 (← readMark '-' cs)
  let (day, cs) ← readWidth 2 (← readMark '-' cs)
  return (← Date.ofParts? year month day, cs)

/-- A fraction of a second without its final zeros, behind a point unless it is nothing. -/
def writePlaces (digits : List Char) : List Char :=
  let kept := (((digits.take 9).reverse.dropWhile (· == '0')).reverse)
  if kept.isEmpty then [] else '.' :: kept

/-- Reads a time of day, in the spelling in which it is written. -/
def readTime (cs : List Char) : Option (List Char × List Char) := do
  let (hour, cs) ← readPair 23 cs
  let (minute, cs) ← readPair 59 (← readMark ':' cs)
  let (second, cs) ← readPair 60 (← readMark ':' cs)
  let whole := paddedDigits 2 hour ++ ':' :: paddedDigits 2 minute ++ ':' :: paddedDigits 2 second
  match cs with
  | '.' :: cs =>
    let digits := cs.takeWhile Char.isDigit
    if digits.isEmpty then none
    else some (whole ++ writePlaces digits, cs.dropWhile Char.isDigit)
  | cs => some (whole, cs)

/-- The whole of an offset from UTC, in the spelling in which it is written. -/
def offset? (cs : List Char) : Option (List Char) :=
  match cs with
  | [] => some []
  | ['Z'] => some ['Z']
  | ['z'] => some ['Z']
  | sign :: cs =>
    if sign = '+' ∨ sign = '-' then do
      let (hour, cs) ← readPair 23 cs
      let (minute, cs) ← readPair 59 (← readMark ':' cs)
      if !cs.isEmpty then none
      let sign := if hour = 0 ∧ minute = 0 then '+' else sign
      return sign :: paddedDigits 2 hour ++ ':' :: paddedDigits 2 minute
    else none

/-- The whole of a time of day and perhaps an offset. -/
def timeAndOffset? (cs : List Char) : Option (List Char) := do
  let (time, cs) ← readTime cs
  return time ++ (← offset? cs)

/-- The whole of a date, a time of day or both with a `T` between them. -/
def moment? (cs : List Char) : Option (List Char) :=
  match readDate cs with
  | some (date, []) => some date.write
  | some (date, mark :: cs) =>
    if mark = 'T' ∨ mark = 't' then
      (timeAndOffset? cs).map fun time => date.write ++ 'T' :: time
    else none
  | none =>
    match readTime cs with
    | some (time, []) => some time
    | _ => none

end Bourse.Toml
