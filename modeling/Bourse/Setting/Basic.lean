/-
Settings: loosely typed values under names that ignore case.

Settings come from several sources, and a later source overrides an earlier one entry by
entry.  A setting knows where it was made as long as that may have to be told.
-/
import Bourse.Binary64.Text
import Bourse.Setting.Path

namespace Bourse

/-- Where a setting was made. -/
inductive Setting.Origin
  | document (path : String)
  | environment
  /-- Nowhere that could be told: on the way along a path, say. -/
  | nowhere
deriving DecidableEq, Inhabited

/-- A setting. -/
inductive Setting
  | absent (origin : Setting.Origin)
  | bool (b : Bool)
  | int (origin : Setting.Origin) (n : Int)
  | real (x : Binary64)
  | text (origin : Setting.Origin) (s : String)
  | list (origin : Setting.Origin) (items : List Setting)
  | group (entries : List (String × Setting))
deriving Inhabited

namespace Setting

/-- Where a setting was made, if it knows. -/
def origin : Setting → Origin
  | absent o => o
  | int o _ => o
  | text o _ => o
  | list o _ => o
  | _ => .nowhere

/-! ### Names -/

/-- The small letter of a letter; that of the Kelvin sign is the only other one in ASCII. -/
def smallLetter (c : Char) : Char := if c.toNat = 0x212A then 'k' else c.toLower

/-- A text in small letters. -/
def small (s : String) : String := String.ofList (s.toList.map smallLetter)

/-! ### Putting settings together -/

/-- Changes the entry of a name, or adds one. -/
def alter (name : String) (f : Option Setting → Setting) :
    List (String × Setting) → List (String × Setting)
  | [] => [(name, f none)]
  | (n, v) :: entries =>
    if n = name then (n, f (some v)) :: entries else (n, v) :: alter name f entries

/-- The entries of a group; anything else has none. -/
def entriesOf : Option Setting → List (String × Setting)
  | some (group entries) => entries
  | _ => []

/-- The members of a list, and where it was made; anything else has none and is made anew. -/
def itemsOf : Option Setting → Origin × List Setting
  | some (list o items) => (o, items)
  | _ => (.nowhere, [])

/--
Changes the member at a place.  Members that are missing up to it are absent, also in
front of the first if the place is too far back from the end.
-/
def alterAt (i : Int) (f : Option Setting → Setting) (items : List Setting) : List Setting :=
  let at? : Int := if 0 ≤ i then i else items.length + i
  let items := List.replicate (-at?).toNat (absent .nowhere) ++ items
  let index := at?.toNat
  items.take index ++ List.replicate (index - items.length) (absent .nowhere) ++
    f items[index]? :: items.drop (index + 1)

mutual

/--
A setting that overrides another: a group entry by entry, anything else as a whole.  A
group without entries overrides nothing.
-/
def overlay : Setting → Option Setting → Setting
  | group [], some old => old
  | group entries, old => group (overlayAll entries (entriesOf old))
  | v, _ => v

/-- Entries that override others. -/
def overlayAll : List (String × Setting) → List (String × Setting) → List (String × Setting)
  | [], old => old
  | (name, v) :: entries, old => overlayAll entries (alter (small name) (fun x => overlay v x) old)

end

/-- A setting put at the end of a path. -/
def put (v : Setting) : List Step → Option Setting → Setting
  | [], old => overlay v old
  | .name s :: steps, old => group (alter (small s) (put v steps) (entriesOf old))
  | .place i :: steps, old =>
    let (o, items) := itemsOf old
    list o (alterAt i (put v steps) items)

/-- The entry of a name, if the setting is a group that has one. -/
def entry? (name : String) : Setting → Option Setting
  | group entries => entries.lookup name
  | _ => none

end Setting

end Bourse
