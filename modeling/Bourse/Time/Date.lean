/-
Days, counted and named.

A day is counted from 1970-01-01 and named by its Gregorian year, month and day of
month, far into the past and the future by the same leap-year rule.  `dayNumber` counts
a named day, `ofDayNumber` names a counted one, and `dayNumber_ofDayNumber` says that
counting undoes naming.

Both work with years that begin in March, so that the leap day comes last, and with
eras of 400 such years, which all have 146097 days.
-/
import Bourse.Text.Blank
import Bourse.Time.Fault

namespace Bourse

/-- A Gregorian calendar date. -/
structure Date where
  year : Int
  month : Nat
  day : Nat
deriving DecidableEq, Inhabited

/-- The days of the week. -/
inductive Weekday
  | monday | tuesday | wednesday | thursday | friday | saturday | sunday
deriving DecidableEq, Inhabited

namespace Date

/-- Years divisible by four are leap years, of the hundreds only those divisible by 400. -/
def isLeap (year : Int) : Bool := year % 4 == 0 && (year % 100 != 0 || year % 400 == 0)

/-- The length of a month. -/
def daysInMonth (year : Int) (month : Nat) : Nat :=
  if month = 2 then (if isLeap year then 29 else 28)
  else if month = 4 ∨ month = 6 ∨ month = 9 ∨ month = 11 then 30 else 31

/-- The first year that can be told. -/
def minYear : Int := -262143

/-- The last year that can be told. -/
def maxYear : Int := 262142

/-- The date of these parts, if there is such a day within the years that can be told. -/
def ofParts? (year : Int) (month day : Nat) : Option Date :=
  if minYear ≤ year ∧ year ≤ maxYear ∧ 1 ≤ month ∧ month ≤ 12 ∧ 1 ≤ day ∧
      day ≤ daysInMonth year month then
    some ⟨year, month, day⟩
  else none

/-- The day's number, counted from 1970-01-01. -/
def dayNumber (d : Date) : Int :=
  let year := if d.month ≤ 2 then d.year - 1 else d.year
  let yearOfEra := year % 400
  let month : Int := (d.month + 9) % 12
  let dayOfYear := (153 * month + 2) / 5 + d.day - 1
  let dayOfEra := yearOfEra * 365 + yearOfEra / 4 - yearOfEra / 100 + dayOfYear
  year / 400 * 146097 + dayOfEra - 719468

/-- The date of a day of a year that begins in March, the months counted from zero. -/
def ofMarchYear (year month day : Int) : Date where
  year := if month < 10 then year else year + 1
  month := if month < 10 then (month + 3).toNat else (month - 9).toNat
  day := day.toNat

/--
The date of a day's number.  The day of the era is divided into centuries, cycles of four
years and years; the last century of an era and the last year of a cycle take the day
that is left over.
-/
def ofDayNumber (n : Int) : Date :=
  let dayOfEra := (n + 719468) % 146097
  let century := min (dayOfEra / 36524) 3
  let dayOfCentury := dayOfEra - 36524 * century
  let cycle := dayOfCentury / 1461
  let dayOfCycle := dayOfCentury % 1461
  let year := min (dayOfCycle / 365) 3
  let dayOfYear := dayOfCycle - 365 * year
  let month := (5 * dayOfYear + 2) / 153
  ofMarchYear ((n + 719468) / 146097 * 400 + 100 * century + 4 * cycle + year) month
    (dayOfYear - (153 * month + 2) / 5 + 1)

theorem dayNumber_ofMarchYear {year month day : Int} (hm : 0 ≤ month ∧ month ≤ 11)
    (hd : 0 ≤ day) :
    (ofMarchYear year month day).dayNumber = year / 400 * 146097 + (year % 400 * 365 +
      year % 400 / 4 - year % 400 / 100 + ((153 * month + 2) / 5 + day - 1)) - 719468 := by
  unfold ofMarchYear dayNumber
  by_cases h : month < 10
  · have h2 : ¬ (month + 3).toNat ≤ 2 := by omega
    have h3 : (((month + 3).toNat : Int) + 9) % 12 = month := by omega
    simp only [h, if_true, h2, if_false, h3]
    omega
  · have h2 : (month - 9).toNat ≤ 2 := by omega
    have h3 : (((month - 9).toNat : Int) + 9) % 12 = month := by omega
    simp only [h, if_true, h2, if_false, h3]
    omega

/-- Counting the name of a day gives back its number. -/
theorem dayNumber_ofDayNumber (n : Int) : (ofDayNumber n).dayNumber = n := by
  simp only [ofDayNumber]
  generalize hz : n + 719468 = z
  generalize hc : min (z % 146097 / 36524) 3 = c
  generalize hq : (z % 146097 - 36524 * c) / 1461 = q
  generalize hy : min ((z % 146097 - 36524 * c) % 1461 / 365) 3 = y
  generalize hd : (z % 146097 - 36524 * c) % 1461 - 365 * y = d
  have hc' : 0 ≤ c ∧ c ≤ 3 ∧ 0 ≤ q ∧ q ≤ 24 := by omega
  have hy' : 0 ≤ y ∧ y ≤ 3 ∧ 0 ≤ d ∧ d ≤ 365 := by omega
  rw [dayNumber_ofMarchYear (by omega) (by omega)]
  have h1 : (z / 146097 * 400 + 100 * c + 4 * q + y) / 400 = z / 146097 := by omega
  have h2 : (z / 146097 * 400 + 100 * c + 4 * q + y) % 400 = 100 * c + 4 * q + y := by omega
  have h3 : (100 * c + 4 * q + y) / 4 = 25 * c + q := by omega
  have h4 : (100 * c + 4 * q + y) / 100 = c := by omega
  rw [h1, h2, h3, h4]
  omega

/-- The day of the week of a day's number; the first counted day was a Thursday. -/
def weekdayOfDayNumber (n : Int) : Weekday :=
  match ((n + 3) % 7).toNat with
  | 0 => .monday
  | 1 => .tuesday
  | 2 => .wednesday
  | 3 => .thursday
  | 4 => .friday
  | 5 => .saturday
  | _ => .sunday

/-! ### Text -/

open Bourse.Text

/-- A year has four digits, and a sign if it needs more of them or lies before year zero. -/
def writeYear (y : Int) : List Char :=
  if 0 ≤ y ∧ y ≤ 9999 then paddedDigits 4 y.toNat
  else (if y < 0 then '-' else '+') :: paddedDigits 4 y.natAbs

/-- The characters `YYYY-MM-DD`. -/
def write (d : Date) : List Char :=
  writeYear d.year ++ '-' :: paddedDigits 2 d.month ++ '-' :: paddedDigits 2 d.day

/-- The text `YYYY-MM-DD`. -/
def text (d : Date) : String := String.ofList d.write

/-- The greatest number that a year may be written with, on either side of zero. -/
def maxWrittenYear : Nat := twoTo 31 - 1

/-- Reads a year: after a sign it may have any number of digits, otherwise at most four. -/
def readYear (cs : List Char) : Except TimeFault (Int × List Char) :=
  match dropBlanks cs with
  | '-' :: r => do
    let (n, r) ← TimeFault.readNumber r.length (maxWrittenYear + 1) r
    return (-(n : Int), r)
  | '+' :: r => do
    let (n, r) ← TimeFault.readNumber r.length maxWrittenYear r
    return ((n : Int), r)
  | r => do
    let (n, r) ← TimeFault.readNumber 4 maxWrittenYear r
    return ((n : Int), r)

/-- Reads a mark, with white space allowed before it. -/
def readMark (mark : Char) (cs : List Char) : Except TimeFault (List Char) :=
  TimeFault.readMark mark (dropBlanks cs)

/-- Reads a part of one or two digits from 1 to `greatest`, with white space allowed before it. -/
def readPart (greatest : Nat) (cs : List Char) : Except TimeFault (Nat × List Char) := do
  let (n, cs) ← TimeFault.readNumber 2 greatest (dropBlanks cs)
  if n = 0 then throw .outOfRange
  return (n, cs)

/-- Reads a date at the front of a text. -/
def read (cs : List Char) : Except TimeFault ((Int × Nat × Nat) × List Char) := do
  let (year, cs) ← readYear cs
  let cs ← readMark '-' cs
  let (month, cs) ← readPart 12 cs
  let cs ← readMark '-' cs
  let (day, cs) ← readPart 31 cs
  return ((year, month, day), cs)

/-- The date that a whole text tells. -/
def parse (text : String) : Except TimeFault Date := do
  let ((year, month, day), cs) ← read text.toList
  if !(dropBlanks cs).isEmpty then throw .goesOn
  match ofParts? year month day with
  | some date => return date
  | none => throw .outOfRange

/-- The date a whole text stands for. -/
def ofText? (text : String) : Option Date := (parse text).toOption

end Date

namespace Weekday

/-- The English name. -/
def name : Weekday → String
  | monday => "Monday"
  | tuesday => "Tuesday"
  | wednesday => "Wednesday"
  | thursday => "Thursday"
  | friday => "Friday"
  | saturday => "Saturday"
  | sunday => "Sunday"

/-- All of them, in order. -/
def all : List Weekday := [monday, tuesday, wednesday, thursday, friday, saturday, sunday]

/-- The day a text names, in full or by three letters, in any mixture of cases. -/
def ofText? (text : String) : Option Weekday :=
  let lower := text.toList.map Char.toLower
  all.find? fun d =>
    let name := d.name.toList.map Char.toLower
    lower == name || lower == name.take 3

end Weekday

end Bourse
