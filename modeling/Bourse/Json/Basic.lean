/-
Values as they travel: null, truth values, numbers, texts, lists and records.

A record keeps its fields in the order they were written, repetitions included, so that
a reader can refuse a field given twice.  Whole numbers and other numbers are told apart
by how they were written, and a number that is not whole keeps its spelling.
-/

namespace Bourse

/-- A value as it travels. -/
inductive Json
  | null
  | bool (b : Bool)
  /-- A number written without a point or an exponent. -/
  | int (n : Int)
  /-- Any other number, as it was written. -/
  | real (spelling : String)
  | text (s : String)
  /--
  A text with half of a surrogate pair in it, which stands for no characters, or a record
  with a field of such a name.
  -/
  | garbled
  | list (items : List Json)
  | record (fields : List (String × Json))
deriving Inhabited

namespace Json

/-- The value of a record's field of this name, the last one if there are several. -/
def field? (name : String) : Json → Option Json
  | record fields => (fields.reverse.find? (·.1 == name)).map (·.2)
  | _ => none

/-- The characters of a text. -/
def text? : Json → Option String
  | text s => some s
  | _ => none

/-- A whole number. -/
def int? : Json → Option Int
  | int n => some n
  | _ => none

/-- A truth value. -/
def bool? : Json → Option Bool
  | bool b => some b
  | _ => none

/-- The members of a list, each read by `f`. -/
def listOf? {α : Type} (f : Json → Option α) : Json → Option (List α)
  | list items => items.mapM f
  | _ => none

/-! ### Rows: the fields a reader knows -/

/-- The fields of a row, by name. -/
abbrev Row := List (String × Json)

/--
The fields of these names.  A record names them, each at most once, among others that
are passed over; a list has them by place and may end early.
-/
def row? (names : List String) : Json → Option Row
  | record fields =>
    let known := fields.filter fun f => names.contains f.1
    if names.any fun n => 1 < (known.filter (·.1 == n)).length then none else some known
  | list items => if items.length ≤ names.length then some (names.zip items) else none
  | _ => none

/-- The field of a row that has to be there. -/
def Row.need {α : Type} (r : Row) (name : String) (read : Json → Option α) : Option α :=
  match r.find? (·.1 == name) with
  | some f => read f.2
  | none => none

/-- The field of a row that stands for nothing when it is missing or null. -/
def Row.optional {α : Type} (r : Row) (name : String) (read : Json → Option α) :
    Option (Option α) :=
  match r.find? (·.1 == name) with
  | some (_, .null) => some none
  | some f => (read f.2).map some
  | none => some none

/-- The field of a row that has a value of its own when it is missing. -/
def Row.orElse {α : Type} (r : Row) (name : String) (fallback : α) (read : Json → Option α) :
    Option α :=
  match r.find? (·.1 == name) with
  | some f => read f.2
  | none => some fallback

/-- A name out of a fixed choice, as a text or as the one field of a record that is null. -/
def choice? {α : Type} (options : List (String × α)) : Json → Option α
  | text s => options.lookup s
  | record [(s, .null)] => options.lookup s
  | _ => none

end Json

end Bourse
