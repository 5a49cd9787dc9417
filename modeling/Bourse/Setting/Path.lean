/-
Paths to settings.

A path is written as a name and, after it, names behind points and places in brackets, as
in `matching.universe[0]`.
-/
import Bourse.Text.Digits

namespace Bourse.Setting

open Bourse.Text

/-- A step on a path: into a group by a name, or into a list by a place. -/
inductive Step
  | name (s : String)
  /-- The place of a member, counted from zero, or back from the end if it is negative. -/
  | place (i : Int)
deriving DecidableEq, Inhabited

namespace Step

/-- May the character stand in the name of a step? -/
def inName (c : Char) : Bool := c.isAlphanum || c == '_' || c == '-' || c == ' '

/-- Reads the name of a step. -/
def readName (cs : List Char) : Option (Step × List Char) :=
  let name := cs.takeWhile inName
  if name.isEmpty then none else some (.name (String.ofList name), cs.drop name.length)

/-- Is the character a space between a bracket and a place? -/
def isGap (c : Char) : Bool := c == ' ' || c == '\t'

/-- Reads a place after its opening bracket. -/
def readPlace (cs : List Char) : Option (Step × List Char) := do
  let (negative, cs) := match cs.dropWhile isGap with
    | '-' :: cs => (true, cs)
    | cs => (false, cs)
  let n ← natOfText? (cs.takeWhile Char.isDigit)
  let i : Int := if negative then -(n : Int) else n
  if !inSignedWord 64 i then none
  match (cs.dropWhile Char.isDigit).dropWhile isGap with
  | ']' :: cs => return (.place i, cs)
  | _ => none

/-- Reads the steps after the first, of which there are no more than characters. -/
def readMore : Nat → List Char → Option (List Step)
  | _, [] => some []
  | 0, _ => none
  | fuel + 1, c :: cs => do
    let (step, cs) ← if c = '.' then readName cs else if c = '[' then readPlace cs else none
    let steps ← readMore fuel cs
    return step :: steps

/-- The text of steps. -/
def textOf : List Step → String
  | [] => ""
  | name s :: name t :: steps => s ++ "." ++ textOf (name t :: steps)
  | name s :: steps => s ++ textOf steps
  | place i :: steps => s!"[{i}]" ++ textOf steps

end Step

/-- The path that a text stands for; a text that is none stands for a single name. -/
def path (key : String) : List Step :=
  let steps := do
    let (first, cs) ← Step.readName key.toList
    let more ← Step.readMore cs.length cs
    return first :: more
  steps.getD [.name key]

end Bourse.Setting
