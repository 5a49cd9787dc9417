/-
Reading a document of tables.

The reader goes line by line: a line opens a table, adds one to a list of tables, or
gives one key its value.  Values may hold others, lists over several lines and tables in
braces on one, up to a depth.

Every step that goes on uses up a character, so the length of the text is fuel enough.
-/
import Bourse.Json.Reader
import Bourse.Toml.Basic
import Bourse.Toml.Moment

namespace Bourse.Toml

open Bourse.Text

/-! ### Blanks, comments and ends of lines -/

/-- May the character stand between the parts of a line? -/
def isGap (c : Char) : Bool := c == ' ' || c == '\t'

/-- What follows the gap at the front. -/
def dropGap (cs : List Char) : List Char := cs.dropWhile isGap

/-- Is the character a tab or else no control character? -/
def isPlain (c : Char) : Bool := c == '\t' || (0x20 ≤ c.toNat && c.toNat != 0x7F)

/-- What follows the end of a line. -/
def dropLineEnd? : List Char → Option (List Char)
  | '\n' :: cs => some cs
  | '\r' :: '\n' :: cs => some cs
  | _ => none

/-- What follows the end of a line or of the text, and a gap and a comment before it. -/
def endLine (cs : List Char) : Option (List Char) :=
  let cs := dropGap cs
  let cs := if cs.head? = some '#' then (cs.drop 1).dropWhile isPlain else cs
  if cs.isEmpty then some [] else dropLineEnd? cs

/-- What follows gaps, ends of lines and comments; `comment` tells whether one has begun. -/
def dropFiller (comment : Bool) : List Char → Option (List Char)
  | [] => some []
  | '\n' :: cs => dropFiller false cs
  | '\r' :: '\n' :: cs => dropFiller false cs
  | c :: cs =>
    if comment then (if isPlain c then dropFiller true cs else none)
    else if c = '#' then dropFiller true cs
    else if isGap c then dropFiller false cs
    else some (c :: cs)

/-! ### Texts -/

/-- Reads the hexadecimal digits of a character's code. -/
def readCode (width : Nat) (cs : List Char) : Option (Char × List Char) := do
  if cs.length < width then none
  let n ← natOfHex? (cs.take width)
  if n < 0xD800 ∨ (0xDFFF < n ∧ n < 0x110000) then some (Char.ofNat n, cs.drop width) else none

/-- The character an escape letter stands for, by its code. -/
def escapeCode? (c : Char) : Option Nat :=
  [('"', 34), ('\\', 92), ('b', 8), ('f', 12), ('n', 10), ('r', 13), ('t', 9)].lookup c

/-- Reads an escape after its backslash. -/
def readEscape : List Char → Option (Char × List Char)
  | 'u' :: cs => readCode 4 cs
  | 'U' :: cs => readCode 8 cs
  | c :: cs => (escapeCode? c).map fun n => (Char.ofNat n, cs)
  | [] => none

/-- What was read, with one more character in front. -/
def prepend (c : Char) : Option (List Char × List Char) → Option (List Char × List Char) :=
  Option.map fun (read, cs) => (c :: read, cs)

/-- Reads a text on one line after its opening quote; escapes count if `escapes`. -/
def readLineText (quote : Char) (escapes : Bool) : Nat → List Char → Option (List Char × List Char)
  | 0, _ => none
  | _, [] => none
  | fuel + 1, c :: cs =>
    if c = quote then some ([], cs)
    else if c = '\\' ∧ escapes then do
      let (c, cs) ← readEscape cs
      prepend c (readLineText quote escapes fuel cs)
    else if isPlain c then prepend c (readLineText quote escapes fuel cs)
    else none

/-- Is this the end of a line, after a gap? -/
def atLineEnd (cs : List Char) : Bool := (dropLineEnd? (dropGap cs)).isSome

/-- What follows gaps and ends of lines. -/
def dropLines : List Char → List Char
  | '\n' :: cs => dropLines cs
  | '\r' :: '\n' :: cs => dropLines cs
  | c :: cs => if isGap c then dropLines cs else c :: cs
  | [] => []

/--
Reads a text over several lines after its opening quotes.  Three quotes end it; of up to
five in a row those before the last three belong to the text.  A backslash at the end of a
line takes the gaps and ends of lines after it out of the text.
-/
def readLongText (quote : Char) (escapes : Bool) : Nat → List Char → Option (List Char × List Char)
  | 0, _ => none
  | _, [] => none
  | fuel + 1, c :: cs =>
    if c = quote then
      let run := 1 + (cs.takeWhile (· == quote)).length
      if 3 ≤ run then
        let kept := min (run - 3) 2
        some (List.replicate kept quote, (c :: cs).drop (kept + 3))
      else prepend c (readLongText quote escapes fuel cs)
    else if c = '\\' ∧ escapes then
      if atLineEnd cs then readLongText quote escapes fuel (dropLines cs)
      else do
        let (c, cs) ← readEscape cs
        prepend c (readLongText quote escapes fuel cs)
    else match dropLineEnd? (c :: cs) with
      | some cs => prepend '\n' (readLongText quote escapes fuel cs)
      | none => if isPlain c then prepend c (readLongText quote escapes fuel cs) else none

/-- Reads a text after the first of its quotes. -/
def readText (quote : Char) (cs : List Char) : Option (List Char × List Char) :=
  let escapes := quote == '"'
  match cs with
  | a :: b :: rest =>
    if a = quote ∧ b = quote then
      readLongText quote escapes (rest.length + 1) ((dropLineEnd? rest).getD rest)
    else readLineText quote escapes (cs.length + 1) cs
  | _ => readLineText quote escapes (cs.length + 1) cs

/-! ### Keys -/

/-- May the character stand in a name without quotes? -/
def inName (c : Char) : Bool := c.isAlphanum || c == '_' || c == '-'

/-- Reads one name. -/
def readName (cs : List Char) : Option (String × List Char) :=
  match cs with
  | '"' :: rest =>
    (readLineText '"' true (rest.length + 1) rest).map fun (name, cs) => (String.ofList name, cs)
  | '\'' :: rest =>
    (readLineText '\'' false (rest.length + 1) rest).map fun (name, cs) => (String.ofList name, cs)
  | cs =>
    let name := cs.takeWhile inName
    if name.isEmpty then none else some (String.ofList name, cs.drop name.length)

/-- How many names a key may have. -/
def maxNames : Nat := 79

/-- Reads a key: at most so many names, with dots between them. -/
def readKey : Nat → List Char → Option (List String × List Char)
  | 0, _ => none
  | fuel + 1, cs => do
    let (name, cs) ← readName (dropGap cs)
    match dropGap cs with
    | '.' :: cs =>
      let (names, cs) ← readKey fuel cs
      return (name :: names, cs)
    | cs => return ([name], cs)

/-! ### Numbers and other words -/

/-- May the character stand in a word, that is in a number, a moment or a truth value? -/
def inWord (c : Char) : Bool := inName c || c == '+' || c == '.' || c == ':'

/-- Digits of a kind without the single underscores between them. -/
def ungroup (isDigit : Char → Bool) : List Char → Option (List Char)
  | [] => none
  | [c] => if isDigit c then some [c] else none
  | c :: '_' :: cs => if isDigit c then (ungroup isDigit cs).map (c :: ·) else none
  | c :: cs => if isDigit c then (ungroup isDigit cs).map (c :: ·) else none

/-- The digits of a natural without leading zeros. -/
def plainDigits (cs : List Char) : Option (List Char) :=
  if cs.head? = some '0' ∧ 1 < cs.length then none else ungroup Char.isDigit cs

/-- The sign of a word and the rest of it. -/
def splitSign : List Char → Bool × List Char
  | '-' :: cs => (true, cs)
  | '+' :: cs => (false, cs)
  | cs => (false, cs)

/-- The integer of 64 bits, if it is one. -/
def int64 (n : Int) : Option Toml :=
  if inSignedWord 64 n then some (.int n) else none

/-- An integer in another base than ten, which has no sign. -/
def basedInt (base : Nat) (cs : List Char) : Option Toml := do
  let valid := fun c => match hexValue? c with
    | some d => decide (d < base)
    | none => false
  let ds ← ungroup valid cs
  int64 (ds.foldl (fun n c => n * base + (hexValue? c).getD 0) 0 : Nat)

/-- An integer. -/
def intOfWord? (word : List Char) : Option Toml :=
  match word with
  | '0' :: 'x' :: cs => basedInt 16 cs
  | '0' :: 'o' :: cs => basedInt 8 cs
  | '0' :: 'b' :: cs => basedInt 2 cs
  | cs => do
    let (negative, cs) := splitSign cs
    let n : Int := ofDigits (← plainDigits cs)
    int64 (if negative then -n else n)

/-- The part of a word that a digit or an underscore goes on with, and the rest. -/
def spanDigits (cs : List Char) : List Char × List Char :=
  (cs.takeWhile fun c => c.isDigit || c == '_', cs.dropWhile fun c => c.isDigit || c == '_')

/-- The places behind the point, if there is one, and the rest. -/
def splitPlaces : List Char → Option (List Char × List Char)
  | '.' :: cs =>
    let (places, cs) := spanDigits cs
    (ungroup Char.isDigit places).map fun ds => (ds, cs)
  | cs => some ([], cs)

/-- The power of ten at the end of a word. -/
def powerOfWord? : List Char → Option Int
  | [] => some 0
  | e :: cs =>
    if e = 'e' ∨ e = 'E' then do
      let (negative, cs) := splitSign cs
      let n : Int := ofDigits (← ungroup Char.isDigit cs)
      return if negative then -n else n
    else none

/-- A number with a point or a power of ten, which may not be too great. -/
def realOfWord? (word : List Char) : Option Toml := do
  let (negative, cs) := splitSign word
  if cs = "inf".toList then return .real (.infinite negative)
  if cs = "nan".toList then return .real .nan
  let (whole, cs) := spanDigits cs
  let whole ← plainDigits whole
  if cs.isEmpty then none
  let (places, cs) ← splitPlaces cs
  let power ← powerOfWord? cs
  let x := Binary64.ofScientific negative (ofDigits (whole ++ places)) (power - places.length)
  if x = .infinite false then none else some (.real x)

/-- What a word stands for. -/
def ofWord? (word : List Char) : Option Toml :=
  if word = "true".toList then some (.bool true)
  else if word = "false".toList then some (.bool false)
  else ((moment? word).map fun m => .moment (String.ofList m)).or
    ((realOfWord? word).or (intOfWord? word))

/-- Reads a word; a date and a time of day may also have a space between them. -/
def readWord (cs : List Char) : Option (Toml × List Char) :=
  let word := cs.takeWhile inWord
  let rest := cs.drop word.length
  match readDate word, rest with
  | some (date, []), ' ' :: c :: more =>
    if c.isDigit then
      let time := (c :: more).takeWhile inWord
      (timeAndOffset? time).map fun t =>
        (.moment (String.ofList (date.write ++ 'T' :: t)), (c :: more).drop time.length)
    else (ofWord? word).map (·, rest)
  | _, _ => (ofWord? word).map (·, rest)

/-! ### Values -/

/-- Reads a value that holds no others. -/
def readScalar (cs : List Char) : Option (Toml × List Char) :=
  match cs with
  | '"' :: cs => (readText '"' cs).map fun (s, cs) => (.text (String.ofList s), cs)
  | '\'' :: cs => (readText '\'' cs).map fun (s, cs) => (.text (String.ofList s), cs)
  | cs => readWord cs

/-- Reads the members of a list after its opening bracket or a comma. -/
def readItems (read : List Char → Option (Toml × List Char)) :
    Nat → List Char → Option (List Toml × List Char)
  | 0, _ => none
  | fuel + 1, cs => do
    match ← dropFiller false cs with
    | ']' :: cs => return ([], cs)
    | cs =>
      let (item, cs) ← read cs
      match ← dropFiller false cs with
      | ',' :: cs =>
        let (items, cs) ← readItems read fuel cs
        return (item :: items, cs)
      | ']' :: cs => return ([item], cs)
      | _ => none

/-- Reads the fields of a table in braces, of which there is at least one, onto `fields`. -/
def readFields (read : List Char → Option (Toml × List Char)) :
    Nat → Fields → List Char → Option (Fields × List Char)
  | 0, _, _ => none
  | fuel + 1, fields, cs => do
    let (key, cs) ← readKey maxNames cs
    match cs with
    | '=' :: cs =>
      let (v, cs) ← read (dropGap cs)
      let fields ← define key v fields
      match dropGap cs with
      | ',' :: cs => readFields read fuel fields cs
      | '}' :: cs => return (fields, cs)
      | _ => none
    | _ => none

/-- Reads a value that holds others at most `levels` deep. -/
def readValue : Nat → List Char → Option (Toml × List Char)
  | 0, cs => readScalar cs
  | levels + 1, cs =>
    match cs with
    | '[' :: cs =>
      (readItems (readValue levels) (cs.length + 1) cs).map fun (items, cs) => (.list items, cs)
    | '{' :: cs =>
      match dropGap cs with
      | '}' :: cs => some (.table .braced [], cs)
      | cs =>
        (readFields (readValue levels) (cs.length + 1) [] cs).map fun (fields, cs) =>
          (.table .braced fields, cs)
    | cs => readScalar cs

/-! ### Documents -/

/-- How deep values may hold each other. -/
def maxLevels : Nat := 79

/-- A document so far, and the header that the next keys come under. -/
structure Draft where
  fields : Fields
  header : List String

/-- Reads the lines of a document onto a draft. -/
def readLines : Nat → Draft → List Char → Option Fields
  | 0, _, _ => none
  | fuel + 1, draft, cs =>
    match dropGap cs with
    | [] => some draft.fields
    | '\n' :: cs => readLines fuel draft cs
    | '#' :: cs => do readLines fuel draft (← endLine ('#' :: cs))
    | '[' :: '[' :: cs => do
      let (header, cs) ← readKey maxNames cs
      match cs with
      | ']' :: ']' :: cs =>
        readLines fuel ⟨← appendTable header draft.fields, header⟩ (← endLine cs)
      | _ => none
    | '[' :: cs => do
      let (header, cs) ← readKey maxNames cs
      match cs with
      | ']' :: cs => readLines fuel ⟨← openTable header draft.fields, header⟩ (← endLine cs)
      | _ => none
    | '\r' :: cs => do readLines fuel draft (← dropLineEnd? ('\r' :: cs))
    | cs => do
      let (key, cs) ← readKey maxNames cs
      match cs with
      | '=' :: cs =>
        let (v, cs) ← readValue maxLevels (dropGap cs)
        let fields ← underHeader (define key v) draft.header draft.fields
        readLines fuel { draft with fields } (← endLine cs)
      | _ => none

/-- The fields of the document a text stands for. -/
def ofText? (text : String) : Option Fields :=
  let cs := text.toList
  readLines (cs.length + 1) ⟨[], []⟩ cs

end Bourse.Toml
