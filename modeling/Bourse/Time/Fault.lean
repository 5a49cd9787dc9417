/-
What can be wrong with a text that is to tell a date or a time of day.

Such texts are read part by part, numbers and marks, and the first part that does not fit
decides what is wrong.
-/
import Bourse.Text.Digits

namespace Bourse

/-- Why a text tells no date or time of day. -/
inductive TimeFault
  | endsEarly
  | badCharacter
  | outOfRange
  | goesOn
deriving DecidableEq, Inhabited

/-- The wording of a fault. -/
def TimeFault.message : TimeFault → String
  | endsEarly => "premature end of input"
  | badCharacter => "input contains invalid characters"
  | outOfRange => "input is out of range"
  | goesOn => "trailing input"

namespace TimeFault

open Bourse.Text

/-- Reads a number of at most `most` digits and no more than `greatest`. -/
def readNumber (most greatest : Nat) (cs : List Char) : Except TimeFault (Nat × List Char) :=
  if cs.isEmpty then .error .endsEarly
  else match readDigits most cs with
    | none => .error .badCharacter
    | some (n, rest) => if greatest < n then .error .outOfRange else .ok (n, rest)

/-- Reads a mark. -/
def readMark (mark : Char) : List Char → Except TimeFault (List Char)
  | [] => .error .endsEarly
  | c :: cs => if c = mark then .ok cs else .error .badCharacter

end TimeFault

end Bourse
