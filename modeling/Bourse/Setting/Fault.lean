/-
Why settings cannot be read as what is asked for.

Where a conversion between kinds of value fails, the fault says what was found, under which
path, and where it was made.  Where there is no conversion at all it only says what was
found.
-/
import Bourse.Setting.Basic
import Bourse.Text.Quoted
import Bourse.Time.Fault

namespace Bourse.Setting

/-- What was found. -/
inductive Finding
  | nothing
  | truth (b : Bool)
  | integer (n : Int)
  | signedWord (n : Int)
  | unsignedWord (n : Int)
  | real (x : Binary64)
  | text (s : String)
  | sequence
  | mapping
deriving DecidableEq, Inhabited

/-- A number with a point in it, if it is finite. -/
def pointed (x : Binary64) : String :=
  match x with
  | .finite .. => if x.write.contains '.' then x.text else x.text ++ ".0"
  | _ => x.text

/-- How a finding is told. -/
def Finding.words : Finding → String
  | nothing => "unit value"
  | truth b => s!"boolean `{b}`"
  | integer n => s!"integer `{n}`"
  | signedWord n => s!"64-bit integer `{n}`"
  | unsignedWord n => s!"64-bit unsigned integer `{n}`"
  | real x => "floating point `" ++ pointed x ++ "`"
  | text s => "string " ++ Text.quoted s
  | sequence => "sequence"
  | mapping => "map"

/-- What is found in a setting. -/
def finding : Setting → Finding
  | absent _ => .nothing
  | bool b => .truth b
  | int _ n => .integer n
  | real x => .real x
  | text _ s => .text s
  | list .. => .sequence
  | group _ => .mapping

/-- How an origin is told. -/
def Origin.words : Origin → String
  | document path => " in " ++ path
  | environment => " in the environment"
  | nowhere => ""

/-- Why a setting cannot be read. -/
inductive Fault
  /-- There is no conversion from what was found at the end of the path. -/
  | mismatch (found : Finding) (expected : String) (steps : List Step) (origin : Origin)
  | misfit (found : Finding) (expected : String)
  | missing (name : String)
  | tooShort (length : Nat) (expected : String)
  | noDate (f : TimeFault)
deriving DecidableEq, Inhabited

namespace Fault

/-- The wording of a fault. -/
def message : Fault → String
  | mismatch found expected steps origin =>
    "invalid type: " ++ found.words ++ ", expected " ++ expected ++
      (if steps.isEmpty then "" else " for key `" ++ Step.textOf steps ++ "`") ++ origin.words
  | misfit found expected => "invalid type: " ++ found.words ++ ", expected " ++ expected
  | missing name => s!"missing field `{name}`"
  | tooShort length expected => s!"invalid length {length}, expected {expected}"
  | noDate f => f.message

/-- The same fault, met after one more step. -/
def after (step : Step) : Fault → Fault
  | mismatch found expected steps origin => mismatch found expected (step :: steps) origin
  | f => f

end Fault

/-- The fault of a setting that is of another kind than the expected one. -/
def mismatched {α : Type} (v : Setting) (expected : String) : Except Fault α :=
  .error (.mismatch v.finding expected [] v.origin)

/-- What `read` makes of a setting that is reached by a step. -/
def at? {α : Type} (step : Step) (read : Setting → Except Fault α) (v : Setting) :
    Except Fault α :=
  (read v).mapError (.after step)

end Bourse.Setting
