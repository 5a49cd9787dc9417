/-
Asking settings for a kind of value.

A value of another kind is taken for the one that is asked for where that makes sense: a
text may spell a number, a number may be a text.  The fields of a record are asked for by
name in a group and by place in a list.
-/
import Bourse.Setting.Fault

namespace Bourse.Setting

open Bourse.Text

/-! ### Single values -/

/-- The words for one and zero, or yes and no. -/
def wordValue? (s : String) : Option Bool :=
  let s := small s
  if ["true", "on", "yes"].contains s then some true
  else if ["false", "off", "no"].contains s then some false
  else none

/-- The integer of 64 bits that digits spell, with a minus only if `signed`. -/
def spelledInt? (signed : Bool) (s : String) : Option Int :=
  let n := match s.toList with
    | '-' :: ds => if signed then (natOfText? ds).map fun n => -(n : Int) else none
    | '+' :: ds => (natOfText? ds).map Int.ofNat
    | ds => (natOfText? ds).map Int.ofNat
  n.filter (if signed then inSignedWord 64 else inWord 64)

/-- The integer of 64 bits that a setting stands for. -/
def int64 (signed : Bool) : Setting → Except Fault Int
  | bool b => .ok (if b then 1 else 0)
  | int o n =>
    if signed ∨ 0 ≤ n then .ok n
    else .error (.mismatch (.signedWord n) "an unsigned 64 bit or less integer" [] o)
  | real x =>
    .ok (if signed then x.toIntWithin (-(twoTo 63 : Int)) (twoTo 63 - 1)
      else x.toIntWithin 0 (twoTo 64 - 1))
  | text o s =>
    match (wordValue? s).map fun b => if b then 1 else 0 with
    | some n => .ok n
    | none =>
      match spelledInt? signed s with
      | some n => .ok n
      | none => mismatched (text o s) "an integer"
  | v => mismatched v "an integer"

/-- The natural of 64 bits that a setting stands for. -/
def word64 (v : Setting) : Except Fault Nat := (int64 false v).map Int.toNat

/-- The natural of 32 bits that a setting stands for. -/
def word32 (v : Setting) : Except Fault Nat := do
  let n ← int64 false v
  if inWord 32 n then return n.toNat
  else throw (.mismatch (.unsignedWord n) "an unsigned 32 bit integer" [] .nowhere)

/-- The integer of 32 bits that a setting stands for. -/
def signedWord32 (v : Setting) : Except Fault Int := do
  let n ← int64 true v
  if inSignedWord 32 n then return n
  else throw (.mismatch (.signedWord n) "an signed 32 bit integer" [] .nowhere)

/-- The truth value a setting stands for. -/
def truth : Setting → Except Fault Bool
  | bool b => .ok b
  | int _ n => .ok (n != 0)
  | real x => .ok (!x.isZero)
  | text o s =>
    match if s = "1" then some true else if s = "0" then some false else wordValue? s with
    | some b => .ok b
    | none => mismatched (text o (small s)) "a boolean"
  | v => mismatched v "a boolean"

/-- The text a setting stands for. -/
def words : Setting → Except Fault String
  | bool b => .ok (if b then "true" else "false")
  | int _ n => .ok (toString n)
  | real x => .ok x.text
  | text _ s => .ok s
  | v => mismatched v "a string"

/-- What is not absent, read by `read`. -/
def unlessAbsent {α : Type} (read : Setting → Except Fault α) : Setting → Except Fault (Option α)
  | absent _ => .ok none
  | v => (read v).map some

/-- The members of a list, each read by `read`. -/
def listOf {α : Type} (read : Setting → Except Fault α) : Setting → Except Fault (List α)
  | list _ items => items.zipIdx.mapM fun (v, i) => at? (.place i) read v
  | v => .error (.misfit v.finding "a sequence")

/-! ### Records -/

/-- The fields of a record that are there, out of those it may have. -/
structure Row where
  title : String
  names : List String
  /-- Are the fields told apart by place? -/
  placed : Bool
  fields : List (String × Setting)

/-- The fields of a record, by name in a group and by place in a list. -/
def row (title : String) (names : List String) : Setting → Except Fault Row
  | group entries => .ok ⟨title, names, false, entries⟩
  | list _ items => .ok ⟨title, names, true, names.zip items⟩
  | v => .error (.misfit v.finding ("struct " ++ title))

namespace Row

/-- The step that leads to a field. -/
def step (r : Row) (name : String) : Step :=
  if r.placed then .place (r.names.idxOf name) else .name name

/-- A field, read by `read` if it is there. -/
def field? {α : Type} (r : Row) (name : String) (read : Setting → Except Fault α) :
    Except Fault (Option α) :=
  match r.fields.lookup name with
  | some v => (at? (r.step name) read v).map some
  | none => .ok none

/-- A field, read by `read`, or the value that holds when it is not there. -/
def field {α : Type} (r : Row) (name : String) (fallback : α)
    (read : Setting → Except Fault α) : Except Fault α :=
  (r.field? name read).map (·.getD fallback)

/-- The value of a field that has to be there. -/
def need {α : Type} (r : Row) (name : String) : Option α → Except Fault α
  | some a => .ok a
  | none =>
    if r.placed then
      .error (.tooShort (r.names.idxOf name) s!"struct {r.title} with {r.names.length} elements")
    else .error (.missing name)

end Row

end Bourse.Setting
