/-
Which lines are logged.

A filter is a list of rules, divided by commas.  A rule names a level, a target with a
level, or a target alone, which lets everything through; brackets may name what a line is
part of, and in braces a field that it has.  Of the rules that hold for a line the most
specific decides: that with the longest target, then one with a field, and of equally
specific ones the last.  A rule on what a line is part of, or on the value of a field,
holds for no line by itself.  A filter that says nothing at all lets errors through, and
one that cannot be read is as good as none.
-/
import Bourse.Text.Alphanumeric
import Bourse.Text.Blank
import Bourse.Text.Digits
import Bourse.Text.Parts

namespace Bourse.CommandLine

open Bourse.Text

/-- How much is logged, from nothing to everything. -/
inductive LogLevel
  | off | error | warn | info | debug | trace
deriving DecidableEq, Inhabited

namespace LogLevel

/-- The place of a level among the levels. -/
def rank : LogLevel → Nat
  | off => 0
  | error => 1
  | warn => 2
  | info => 3
  | debug => 4
  | trace => 5

/-- The levels by their names in small letters. -/
def named : List (String × LogLevel) :=
  [("off", off), ("error", error), ("warn", warn), ("info", info), ("debug", debug),
    ("trace", trace)]

/-- The level of a text: a name in any case, or a rank. -/
def ofText? (cs : List Char) : Option LogLevel :=
  let digits := if cs.head? = some '+' then cs.drop 1 else cs
  match natOfText? digits with
  | some n => (named.find? (·.2.rank == n)).map (·.2)
  | none => named.lookup (String.ofList (cs.map Char.toLower))

end LogLevel

/-- A rule on lines whose target begins with `target` and that have all of `fields`. -/
structure LogRule where
  target : List Char
  /-- The fields that are named, and whether a value is asked for. -/
  fields : List (List Char × Bool)
  /-- Is the rule about what a line is part of? -/
  nested : Bool
  level : LogLevel
deriving DecidableEq, Inhabited

/-- The rules that a filter consists of. -/
abbrev LogFilter := List LogRule

/-! ### Reading a rule -/

/-- What is being read, and the place where it began. -/
inductive LogRule.Stage
  | start
  | word (begin : Nat)
  | scope (begin : Nat)
  | field (begin : Nat)
  | fields
  | closed
  | level (begin : Nat)

/-- May a rule begin with the character, if not with a bracket? -/
def beginsRule (c : Char) : Bool := isAlphanumeric c || ['-', ':', '_'].contains c

namespace LogRule

/-- The rule that nothing has been said for. -/
def blank : LogRule := ⟨[], [], false, .trace⟩

/-- The field that a text between braces names. -/
def fieldOf? (cs : List Char) : Option (List Char × Bool) :=
  if cs.isEmpty then none
  else
    let (name, value) := cutAt '=' cs
    some (name, value.isSome)

/-- Reads on after the character at a place; `cut a b` is the text between two places. -/
def readOn (cut : Nat → Nat → List Char) (r : LogRule) (i : Nat) (c : Char) :
    Stage → Option (LogRule × Stage)
  | .start =>
    if c = '[' then some (r, .scope (i + 1))
    else if beginsRule c then some (r, .word i) else none
  | .word b =>
    if c = '=' then some ({ r with target := cut b i }, .level (i + 1))
    else if c = '[' then some ({ r with target := cut b i }, .scope (i + 1))
    else some (r, .word b)
  | .scope b =>
    if c = ']' then some ({ r with nested := true }, .closed)
    else if c = '{' then some ({ r with nested := !(cut b i).isEmpty }, .field (i + 1))
    else some (r, .scope b)
  | .field b =>
    if c = '}' then
      (fieldOf? (cut b i)).map fun f => ({ r with fields := r.fields ++ [f] }, .fields)
    else some (r, .field b)
  | .fields => if c = ']' then some (r, .closed) else none
  | .closed => if c = '=' then some (r, .level (i + 1)) else none
  | .level b => some (r, .level b)

/-- Reads to the end; `tail a` is the text from a place on. -/
def readEnd (tail : Nat → List Char) (r : LogRule) : Stage → Option LogRule
  | .word b =>
    match LogLevel.ofText? (tail b) with
    | some level => some { r with level }
    | none => some { r with target := tail b }
  | .level b =>
    if (tail b).isEmpty then some r
    else (LogLevel.ofText? (tail b)).map fun level => { r with level }
  | .closed => some r
  | _ => none

/--
The rule that a text stands for.  White space at the ends is not looked at; the parts are
cut at the places that were counted without it, but out of the text that has it.
-/
def ofText? (cs : List Char) : Option LogRule := do
  let cut := fun a b => (cs.drop a).take (b - a)
  let (r, stage) ← (trimBlanks cs).zipIdx.foldlM
    (fun (r, stage) (c, i) => readOn cut r i c stage) (blank, Stage.start)
  readEnd cs.drop r stage

/-- Does the rule hold for lines of a target that have these fields? -/
def holds (r : LogRule) (target : String) (fields : List String) : Bool :=
  !r.nested && r.target.isPrefixOf target.toList &&
    r.fields.all fun (name, valued) => !valued && fields.contains (String.ofList name)

/-- Texts in the order of a dictionary. -/
def compareTexts : List Char → List Char → Ordering
  | [], [] => .eq
  | [], _ :: _ => .lt
  | _ :: _, [] => .gt
  | c :: cs, d :: ds => (compare c.toNat d.toNat).then (compareTexts cs ds)

/-- How specific a rule is beside another one that holds for the same line. -/
def compareSpecific (r s : LogRule) : Ordering :=
  (compare r.target.length s.target.length).then
    ((compare r.fields.length s.fields.length).then
      (compareTexts (r.fields.flatMap (·.1)) (s.fields.flatMap (·.1))))

end LogRule

namespace LogFilter

/-- The filter that holds when none is given: the command's own lines from `info` on. -/
def standard (target : String) : LogFilter :=
  [{ LogRule.blank with target := target.toList, level := .info }]

/-- The filter that a text stands for. -/
def ofText? (text : String) : Option LogFilter := do
  let rules ← ((partsAt ',' text.toList).filter (!·.isEmpty)).mapM LogRule.ofText?
  return if rules.isEmpty then [{ LogRule.blank with level := .error }] else rules

/-- The rule that decides about lines of a target that have these fields. -/
def rule? (filter : LogFilter) (target : String) (fields : List String) : Option LogRule :=
  (filter.filter (·.holds target fields)).foldl (fun best r => match best with
    | some b => if b.compareSpecific r = .gt then some b else some r
    | none => some r) none

/-- Does the filter let a line through? -/
def passes (filter : LogFilter) (target : String) (fields : List String) (level : LogLevel) :
    Bool :=
  match filter.rule? target fields with
  | some r => level.rank ≤ r.level.rank
  | none => false

end LogFilter

end Bourse.CommandLine
