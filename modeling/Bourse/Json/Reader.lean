/-
Reading a travelling value from text.

The reader is strict: white space is blank, tab and line ends only, a number has no
leading zero, a text has no bare control character, and nothing but white space may
follow the value.

Every step that goes on uses up a character, so the length of the text is fuel enough.
-/
import Bourse.Json.Basic
import Bourse.Text.Digits

namespace Bourse.Json

open Bourse.Text

/-- The white space that may stand between the parts of a value. -/
def isSpace (c : Char) : Bool := c == ' ' || c == '\n' || c == '\t' || c == '\r'

/-- What follows the white space at the front. -/
def dropSpace (cs : List Char) : List Char := cs.dropWhile isSpace

/-! ### Texts -/

/-- The character an escape letter stands for, by its code. -/
def escapeCode? (c : Char) : Option Nat :=
  [('"', 34), ('\\', 92), ('/', 47), ('b', 8), ('f', 12), ('n', 10), ('r', 13), ('t', 9)].lookup c

/--
Reads a text after its opening quote, as the codes of its characters; an escape by number
may give half of a surrogate pair.
-/
def readCodes : List Char → Option (List Nat × List Char)
  | [] => none
  | '"' :: cs => some ([], cs)
  | '\\' :: 'u' :: a :: b :: c :: d :: cs => do
    let n ← natOfHex? [a, b, c, d]
    let (codes, rest) ← readCodes cs
    return (n :: codes, rest)
  | '\\' :: e :: cs => do
    let n ← escapeCode? e
    let (codes, rest) ← readCodes cs
    return (n :: codes, rest)
  | c :: cs =>
    if c.toNat < 0x20 ∨ c = '\\' then none
    else do
      let (codes, rest) ← readCodes cs
      return (c.toNat :: codes, rest)

/-- The characters of a list of codes, surrogate pairs joined; `none` if half of a pair is left. -/
def joinCodes : List Nat → Option (List Char)
  | [] => some []
  | hi :: cs =>
    if 0xD800 ≤ hi ∧ hi ≤ 0xDBFF then
      match cs with
      | lo :: cs =>
        if 0xDC00 ≤ lo ∧ lo ≤ 0xDFFF then
          (joinCodes cs).map (Char.ofNat (0x10000 + (hi - 0xD800) * 0x400 + (lo - 0xDC00)) :: ·)
        else none
      | [] => none
    else if 0xDC00 ≤ hi ∧ hi ≤ 0xDFFF then none
    else (joinCodes cs).map (Char.ofNat hi :: ·)

/-- Reads a text after its opening quote; a half surrogate pair makes it `garbled`. -/
def readText (cs : List Char) : Option (Json × List Char) := do
  let (codes, rest) ← readCodes cs
  match joinCodes codes with
  | some s => return (.text (String.ofList s), rest)
  | none => return (.garbled, rest)

/-! ### Numbers -/

/-- The digits at the front. -/
def takeDigits (cs : List Char) : List Char × List Char :=
  (cs.takeWhile Char.isDigit, cs.dropWhile Char.isDigit)

/-- Reads a point and the digits after it, if there is a point. -/
def readPlaces : List Char → Option (List Char × List Char)
  | '.' :: cs =>
    let (ds, rest) := takeDigits cs
    if ds.isEmpty then none else some ('.' :: ds, rest)
  | cs => some ([], cs)

/-- Reads an exponent, if there is one. -/
def readPower : List Char → Option (List Char × List Char)
  | [] => some ([], [])
  | e :: cs =>
    if e = 'e' ∨ e = 'E' then
      let (sign, cs) := match cs with
        | '+' :: r => (['+'], r)
        | '-' :: r => (['-'], r)
        | r => ([], r)
      let (ds, rest) := takeDigits cs
      if ds.isEmpty then none else some (e :: sign ++ ds, rest)
    else some ([], e :: cs)

/-- Reads a number. -/
def readNumber (cs : List Char) : Option (Json × List Char) := do
  let (negative, cs) := match cs with
    | '-' :: r => (true, r)
    | r => (false, r)
  let (ds, cs) := takeDigits cs
  if ds.isEmpty ∨ (ds.head? = some '0' ∧ 1 < ds.length) then none
  let (places, cs) ← readPlaces cs
  let (power, cs) ← readPower cs
  let n : Int := ofDigits ds
  if places.isEmpty ∧ power.isEmpty ∧ ¬ (negative ∧ n = 0) then
    return (.int (if negative then -n else n), cs)
  else
    return (.real (String.ofList ((if negative then ['-'] else []) ++ ds ++ places ++ power)), cs)

/-! ### Values -/

/-- Reads one of the three words. -/
def readWord (cs : List Char) : Option (Json × List Char) :=
  if "null".toList.isPrefixOf cs then some (.null, cs.drop 4)
  else if "true".toList.isPrefixOf cs then some (.bool true, cs.drop 4)
  else if "false".toList.isPrefixOf cs then some (.bool false, cs.drop 5)
  else none

/-- The record of some fields; it is `garbled` if a name is. -/
def recordOf (fields : List (Option String × Json)) : Json :=
  match fields.mapM fun f => f.1.map (·, f.2) with
  | some fields => .record fields
  | none => .garbled

mutual

/-- Reads a value and the white space before it. -/
def readValue : Nat → List Char → Option (Json × List Char)
  | 0, _ => none
  | fuel + 1, cs =>
    match dropSpace cs with
    | '"' :: cs => readText cs
    | '[' :: cs =>
      match dropSpace cs with
      | ']' :: cs => some (.list [], cs)
      | cs => (readItems fuel cs).map fun (items, cs) => (.list items, cs)
    | '{' :: cs =>
      match dropSpace cs with
      | '}' :: cs => some (.record [], cs)
      | cs => (readFields fuel cs).map fun (fields, cs) => (recordOf fields, cs)
    | cs => (readWord cs).or (readNumber cs)

/-- Reads the members of a list, of which there is at least one, and the closing bracket. -/
def readItems : Nat → List Char → Option (List Json × List Char)
  | 0, _ => none
  | fuel + 1, cs => do
    let (item, cs) ← readValue fuel cs
    match dropSpace cs with
    | ',' :: cs =>
      let (items, cs) ← readItems fuel cs
      return (item :: items, cs)
    | ']' :: cs => return ([item], cs)
    | _ => none

/--
Reads the fields of a record, of which there is at least one, and the closing brace; a
garbled name is none.
-/
def readFields : Nat → List Char → Option (List (Option String × Json) × List Char)
  | 0, _ => none
  | fuel + 1, cs => do
    match dropSpace cs with
    | '"' :: cs =>
      let (name, cs) ← readText cs
      match dropSpace cs with
      | ':' :: cs =>
        let (value, cs) ← readValue fuel cs
        match dropSpace cs with
        | ',' :: cs =>
          let (fields, cs) ← readFields fuel cs
          return ((name.text?, value) :: fields, cs)
        | '}' :: cs => return ([(name.text?, value)], cs)
        | _ => none
      | _ => none
    | _ => none

end

/-- The value a whole text stands for. -/
def ofText? (text : String) : Option Json := do
  let cs := text.toList
  let (value, rest) ← readValue (cs.length + 1) cs
  if (dropSpace rest).isEmpty then some value else none

end Bourse.Json
