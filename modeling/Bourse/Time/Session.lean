/-
Times of day, as a session's opening and closing are told: `HH:MM` or `HH:MM:SS`.

Second 60 is a leap second and is kept as second 59 with a billion nanoseconds, as in an
instant.
-/
import Bourse.Time.Instant

namespace Bourse

/-- A time of day. -/
structure SessionTime where
  second : Nat
  nanos : Nat
deriving DecidableEq, Inhabited

namespace SessionTime

open Bourse.Text

/-- Earlier, later or the same. -/
def cmp (a b : SessionTime) : Ordering := (compare a.second b.second).then (compare a.nanos b.nanos)

/-- Reads a part of one or two digits that is at most `greatest`, after white space. -/
def readPart (greatest : Nat) (cs : List Char) : Except TimeFault (Nat × List Char) :=
  TimeFault.readNumber 2 greatest (dropBlanks cs)

/-- Reads the seconds, if they are told. -/
def readSeconds (told : Bool) (cs : List Char) : Except TimeFault (Nat × List Char) :=
  if told then TimeFault.readMark ':' cs >>= readPart 60 else .ok (0, cs)

/-- The time of day that a whole text tells, with or without seconds. -/
def read (withSeconds : Bool) (cs : List Char) : Except TimeFault SessionTime := do
  let (hour, cs) ← readPart 23 cs
  let cs ← TimeFault.readMark ':' cs
  let (minute, cs) ← readPart 59 cs
  let (second, cs) ← readSeconds withSeconds cs
  if !cs.isEmpty then throw .goesOn
  let base := hour * 3600 + minute * 60
  return if second = 60 then ⟨base + 59, 1000000000⟩ else ⟨base + second, 0⟩

/-- The time of day that a text tells; a fault is that of reading it with seconds. -/
def parse (text : String) : Except TimeFault SessionTime :=
  match read false text.toList with
  | .ok t => .ok t
  | .error _ => read true text.toList

/-- The text `HH:MM:SS`. -/
def text (t : SessionTime) : String :=
  let second := if 1000000000 ≤ t.nanos then t.second % 60 + 1 else t.second % 60
  String.ofList (paddedDigits 2 (t.second / 3600) ++ ':' :: paddedDigits 2 (t.second / 60 % 60) ++
    ':' :: paddedDigits 2 second)

end SessionTime

end Bourse
