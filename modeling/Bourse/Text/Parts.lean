/-
The parts of a text between the places where a character stands.
-/

namespace Bourse.Text

/-- The parts between the places where `mark` stands; there is always one part at least. -/
def partsAt (mark : Char) : List Char → List (List Char)
  | [] => [[]]
  | c :: cs =>
    if c = mark then [] :: partsAt mark cs
    else match partsAt mark cs with
      | [] => [[c]]
      | part :: parts => (c :: part) :: parts

theorem partsAt_ne_nil (mark : Char) (cs : List Char) : partsAt mark cs ≠ [] := by
  fun_cases partsAt mark cs <;> simp

/-- What stands before and after the first place of `mark`; the second is `none` without one. -/
def cutAt (mark : Char) (cs : List Char) : List Char × Option (List Char) :=
  match cs.dropWhile (· != mark) with
  | [] => (cs, none)
  | _ :: after => (cs.takeWhile (· != mark), some after)

end Bourse.Text
