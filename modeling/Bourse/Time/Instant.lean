/-
Points in time, in UTC.

An instant is a day, a second of that day and a number of nanoseconds.  A leap second
is kept as the second before it with a billion nanoseconds or more, so instants are
ordered by their three parts.
-/
import Bourse.Time.Date

namespace Bourse

/-- A UTC instant within the years that can be told. -/
structure Instant where
  day : Int
  second : Nat
  nanos : Nat
  day_mem : -96465292 ≤ day ∧ day ≤ 95026236
  second_lt : second < 86400
  nanos_lt : nanos < 1000000000 ∨ (second % 60 = 59 ∧ nanos < 2000000000)
deriving DecidableEq

namespace Instant

/-- The instant with these parts, if they are in range. -/
def ofParts? (day : Int) (second nanos : Nat) : Option Instant :=
  if h : (-96465292 ≤ day ∧ day ≤ 95026236) ∧ second < 86400 ∧
      (nanos < 1000000000 ∨ (second % 60 = 59 ∧ nanos < 2000000000)) then
    some ⟨day, second, nanos, h.1, h.2.1, h.2.2⟩
  else none

/-- The instant so many nanoseconds after midnight of 1970-01-01, if it can be told. -/
def ofNanoseconds? (n : Int) : Option Instant :=
  let seconds := n / 1000000000
  ofParts? (seconds / 86400) (seconds % 86400).toNat (n % 1000000000).toNat

/-- Midnight of 1970-01-01. -/
def epoch : Instant := ⟨0, 0, 0, by decide, by decide, by decide⟩

instance : Inhabited Instant := ⟨epoch⟩

/-- Earlier, later or the same, by day, second and nanoseconds. -/
def cmp (a b : Instant) : Ordering :=
  ((compare a.day b.day).then (compare a.second b.second)).then (compare a.nanos b.nanos)

/-- The day and second of day on a clock that runs `offset` seconds ahead of UTC. -/
def localTime (a : Instant) (offset : Int) : Int × Nat :=
  let seconds := a.second + offset
  (a.day + seconds / 86400, (seconds % 86400).toNat)

/-! ### Text -/

open Bourse.Text

/-- A fraction of a second with the fewest of no, three, six or nine digits. -/
def writeFraction (nanos : Nat) : List Char :=
  if nanos = 0 then []
  else if nanos % 1000000 = 0 then '.' :: paddedDigits 3 (nanos / 1000000)
  else if nanos % 1000 = 0 then '.' :: paddedDigits 6 (nanos / 1000)
  else '.' :: paddedDigits 9 nanos

/-- The characters `YYYY-MM-DDTHH:MM:SS`, a fraction and `Z`. -/
def write (a : Instant) : List Char :=
  let leap := 1000000000 ≤ a.nanos
  let second := if leap then a.second % 60 + 1 else a.second % 60
  let nanos := if leap then a.nanos - 1000000000 else a.nanos
  (Date.ofDayNumber a.day).write ++
    'T' :: paddedDigits 2 (a.second / 3600) ++
    ':' :: paddedDigits 2 (a.second / 60 % 60) ++
    ':' :: paddedDigits 2 second ++ writeFraction nanos ++ ['Z']

/-- The text of an instant. -/
def text (a : Instant) : String := String.ofList a.write

/--
Reads a fraction of a second, in nanoseconds, if a point comes next; digits after the
ninth are dropped.
-/
def readFraction : List Char → Option (Nat × List Char)
  | '.' :: cs =>
    let ds := cs.takeWhile Char.isDigit
    if ds.isEmpty then none
    else
      let kept := ds.take 9
      some (ofDigits kept * tenTo (9 - kept.length), cs.drop ds.length)
  | cs => some (0, cs)

/-- Reads two digits. -/
def readTwo : List Char → Option (Nat × List Char)
  | a :: b :: cs =>
    if a.isDigit && b.isDigit then some (digitValue a * 10 + digitValue b, cs) else none
  | _ => none

/-- Reads an offset of hours and minutes, in seconds, after its sign. -/
def readOffset (cs : List Char) : Option (Nat × List Char) := do
  let (hours, cs) ← readTwo cs
  let (minutes, cs) ← readTwo (cs.dropWhile fun c => c == ':' || isBlank c)
  if minutes < 60 ∧ hours < 24 then some (hours * 3600 + minutes * 60, cs) else none

/-- Reads a time zone: `UTC` or `Z` in either case, or a signed offset. -/
def readZone (cs : List Char) : Option (Int × List Char) :=
  if (cs.take 3).map Char.toLower == ['u', 't', 'c'] then some (0, cs.drop 3)
  else match cs with
    | [] => none
    | c :: r =>
      if c = 'Z' ∨ c = 'z' then some (0, r)
      else if c = '+' then (readOffset r).map fun (n, r) => ((n : Int), r)
      else if c = '-' ∨ c = '−' then (readOffset r).map fun (n, r) => (-(n : Int), r)
      else none

/-- Reads a part of a time of day, of one or two digits, with white space allowed before it. -/
def readPart (greatest : Nat) (cs : List Char) : Option (Nat × List Char) :=
  (TimeFault.readNumber 2 greatest (dropBlanks cs)).toOption

/-- Reads a colon, with white space allowed before it. -/
def readColon (cs : List Char) : Option (List Char) := (Date.readMark ':' cs).toOption

/-- Reads a time of day, to the second and its nanoseconds; a second of 60 is a leap second. -/
def readClock (cs : List Char) : Option ((Nat × Nat) × List Char) := do
  let (hour, cs) ← readPart 23 cs
  let (minute, cs) ← readPart 59 (← readColon cs)
  let (second, cs) ← readPart 60 (← readColon cs)
  let (nanos, cs) ← readFraction cs
  if second = 60 then return ((hour * 3600 + minute * 60 + 59, nanos + 1000000000), cs)
  else return ((hour * 3600 + minute * 60 + second, nanos), cs)

/-- The instant a text stands for: a date, a time of day and the zone they are told in. -/
def ofText? (text : String) : Option Instant := do
  let ((year, month, day), cs) ← (Date.read text.toList).toOption
  let date ← Date.ofParts? year month day
  let cs ← match cs with
    | c :: r => if c = 'T' ∨ c = 't' ∨ c = ' ' then some r else none
    | [] => none
  let ((second, nanos), cs) ← readClock cs
  let (offset, cs) ← readZone (dropBlanks cs)
  if !(dropBlanks cs).isEmpty then none
  else
    let shifted := second - offset
    ofParts? (date.dayNumber + shifted / 86400) (shifted % 86400).toNat nanos

end Instant

end Bourse
