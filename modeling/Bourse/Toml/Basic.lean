/-
Documents of tables, and the rules by which their parts may be added.

A table comes about in one of four ways: a header opens it, a header of a table inside it
implies it, the dots of a key make it, or it is written in braces.  Each is defined once.
A header may open a table that was only implied, and keys may go on with a table that
dots made, but nothing is ever added to a table in braces or to a list in brackets.  A
header in double brackets adds a table to a list of tables, and what follows goes into
the last of these.
-/
import Bourse.Binary64.Basic

namespace Bourse

/-- How a table came about. -/
inductive TableKind
  | opened
  | implied
  | dotted
  | braced
deriving DecidableEq, Inhabited

/-- A value in a document. -/
inductive Toml
  | text (s : String)
  | int (n : Int)
  | real (x : Binary64)
  | bool (b : Bool)
  /-- A date, a time of day or both, as it is written in full. -/
  | moment (s : String)
  | list (items : List Toml)
  | table (kind : TableKind) (fields : List (String × Toml))
  /-- A list of tables that headers in double brackets made. -/
  | tables (all : List (List (String × Toml)))
deriving Inhabited

namespace Toml

/-- The fields of a table. -/
abbrev Fields := List (String × Toml)

/-- Changes the field of a name, which may be missing; `f` may refuse. -/
def alter (name : String) (f : Option Toml → Option Toml) : Fields → Option Fields
  | [] => (f none).map fun v => [(name, v)]
  | (n, v) :: fields =>
    if n = name then (f (some v)).map fun v => (n, v) :: fields
    else (alter name f fields).map ((n, v) :: ·)

/-- Adds a field, unless there is one of its name. -/
def addField (name : String) (v : Toml) : Fields → Option Fields :=
  alter name fun
    | none => some v
    | some _ => none

/-- Changes the last of some tables. -/
def alterLast (f : Fields → Option Fields) : List Fields → Option (List Fields)
  | [] => none
  | [fields] => (f fields).map ([·])
  | fields :: all => (alterLast f all).map (fields :: ·)

/-- Changes the table that the names of a header lead to, and implies those on the way. -/
def underHeader (f : Fields → Option Fields) : List String → Fields → Option Fields
  | [] => f
  | name :: names =>
    alter name fun
      | none => (underHeader f names []).map (table .implied)
      | some (table kind fields) =>
        if kind = .braced then none else (underHeader f names fields).map (table kind)
      | some (tables all) => (alterLast (underHeader f names) all).map tables
      | some _ => none

/-- Changes the table that the dots of a key lead to, and makes those on the way. -/
def underDots (f : Fields → Option Fields) : List String → Fields → Option Fields
  | [] => f
  | name :: names =>
    alter name fun
      | none => (underDots f names []).map (table .dotted)
      | some (table .dotted fields) => (underDots f names fields).map (table .dotted)
      | some (table .implied fields) =>
        if names.isEmpty then none else (underDots f names fields).map (table .implied)
      | some (tables all) =>
        if names.isEmpty then none else (alterLast (underDots f names) all).map tables
      | some _ => none

/-- Adds a field by its key, which has at least one name. -/
def define (key : List String) (v : Toml) (fields : Fields) : Option Fields :=
  match key.getLast? with
  | some name => underDots (addField name v) key.dropLast fields
  | none => none

/-- Opens a table by its header. -/
def openTable (header : List String) (fields : Fields) : Option Fields :=
  match header.getLast? with
  | some name =>
    underHeader (alter name fun
      | none => some (table .opened [])
      | some (table .implied fields) => some (table .opened fields)
      | some _ => none) header.dropLast fields
  | none => none

/-- Adds a table to a list of tables by its header. -/
def appendTable (header : List String) (fields : Fields) : Option Fields :=
  match header.getLast? with
  | some name =>
    underHeader (alter name fun
      | none => some (tables [[]])
      | some (tables all) => some (tables (all ++ [[]]))
      | some _ => none) header.dropLast fields
  | none => none

end Toml

end Bourse
