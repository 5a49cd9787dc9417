/-
Where settings come from: documents and the environment.

Both make entries, whose names are the texts of paths; those of the environment come after
those of a document and override them.

The variables of the environment that count have a name with the right beginning; double
underscores divide the rest of it into a path.  The text of a variable stands for a truth
value or a number if it can be read as one, and otherwise, at some paths, for the list of
what stands between its commas.
-/
import Bourse.Binary64.Stepwise
import Bourse.Json.Reader
import Bourse.Setting.Basic
import Bourse.Toml.Reader

namespace Bourse.Setting

open Bourse.Text

/-! ### Documents -/

/-- How deep lists and records may hold each other. -/
def maxLevels : Nat := 127

/-- The setting that a number with this spelling is kept as approximately. -/
def ofNumber? (spelling : String) : Option Setting :=
  (Binary64.ofSpelling? spelling.toList).map real

/-- The setting that a value stands for, which holds others at most `levels` deep. -/
def ofJson? (o : Origin) : Nat → Json → Option Setting
  | _, .null => some (absent o)
  | _, .bool b => some (bool b)
  | _, .int n => if inSignedWord 64 n then some (int o n) else ofNumber? (toString n)
  | _, .real spelling => ofNumber? spelling
  | _, .text s => some (text o s)
  | levels + 1, .list items => (items.mapM (ofJson? o levels)).map (list o)
  | levels + 1, .record fields => do
    let entries ← fields.mapM fun (name, v) => do return (name, ← ofJson? o levels v)
    return group (entries.foldl (fun all (name, v) => alter name (fun _ => v) all) [])
  | _, _ => none

mutual

/-- The setting that a value in a document stands for. -/
def ofToml (o : Origin) : Toml → Setting
  | .text s => text o s
  | .int n => int o n
  | .real x => real x
  | .bool b => bool b
  | .moment s => text o s
  | .list items => list o (ofItems o items)
  | .table _ fields => group (ofFields o fields)
  | .tables all => list o (ofTables o all)

/-- The settings that the members of a list stand for. -/
def ofItems (o : Origin) : List Toml → List Setting
  | [] => []
  | v :: items => ofToml o v :: ofItems o items

/-- The entries that the fields of a table stand for. -/
def ofFields (o : Origin) : List (String × Toml) → List (String × Setting)
  | [] => []
  | (name, v) :: fields => (name, ofToml o v) :: ofFields o fields

/-- The groups that a list of tables stands for. -/
def ofTables (o : Origin) : List (List (String × Toml)) → List Setting
  | [] => []
  | fields :: all => group (ofFields o fields) :: ofTables o all

end

/-- The formats of a document, by the endings of their files' names. -/
inductive Format
  | toml
  | json
deriving DecidableEq, Inhabited

namespace Format

/-- The ending of a file's name that tells its format. -/
def ending : Format → String
  | toml => "toml"
  | json => "json"

/-- All formats. -/
def all : List Format := [toml, json]

/-- The entries of a document in this format. -/
def read? (format : Format) (o : Origin) (document : String) : Option (List (String × Setting)) :=
  match format with
  | toml => (Toml.ofText? document).map (ofFields o)
  | json =>
    match (Json.ofText? document).bind (ofJson? o maxLevels) with
    | some (group entries) => some entries
    | _ => none

end Format

/-! ### The environment -/

/-- The beginning of the names of the variables that count, in small letters. -/
def variableStart : String := "matcher__"

/-- The paths at which a text stands for a list. -/
def listPaths : List String :=
  ["matching.universe", "market_hours.trading_days", "market_hours.holidays"]

/-- The path that the name of a variable gives, with points, if the variable counts. -/
def variablePath? (name : String) : Option String :=
  if variableStart.toList.isPrefixOf (small name).toList then
    some (".".intercalate
      ((String.ofList (name.toList.drop variableStart.length)).splitOn "__"))
  else none

/-- The setting that the text of a variable stands for at a path. -/
def ofVariable (path s : String) : Setting :=
  if small s = "true" then bool true
  else if small s = "false" then bool false
  else match int64OfText? s.toList with
    | some n => int .environment n
    | none =>
      match Binary64.ofText? s.toList with
      | some x => real x
      | none =>
        if listPaths.contains (small path) then
          list .environment ((s.splitOn ",").map (text .environment))
        else text .environment s

/-- The entries that the variables of an environment make, by the texts of their paths. -/
def ofEnvironment (environment : List (String × String)) : List (String × Setting) :=
  environment.filterMap fun (name, s) => (variablePath? name).map fun key => (key, ofVariable key s)

/-! ### Putting all together -/

/-- The greatest place on a path that there can be a member at. -/
def maxPlace : Nat := twoTo 24

/-- Does a path lead to a place that no list reaches? -/
def leadsTooFar (key : String) : Bool :=
  (path key).any fun
    | .place i => maxPlace < i.natAbs
    | .name _ => false

/-- The settings that entries make, each put over those before it at its path. -/
def ofEntries (entries : List (String × Setting)) : Setting :=
  entries.foldl (fun all (key, v) => put v (path key) (some all)) (group [])

end Bourse.Setting
