/-
Writing a travelling value as text, without white space.

A text is escaped as little as the reader needs: the quote, the backslash and the
control characters, the usual ones by letter and the others by number.
-/
import Bourse.Json.Basic

namespace Bourse.Json

/-- A hexadecimal digit. -/
def hexDigit (n : Nat) : Char := Char.ofNat (if n < 10 then 48 + n else 87 + n)

/-- A character inside the quotes of a text. -/
def writeChar (c : Char) : List Char :=
  if c = '"' then ['\\', '"']
  else if c = '\\' then ['\\', '\\']
  else if 0x20 ≤ c.toNat then [c]
  else if c.toNat = 8 then ['\\', 'b']
  else if c.toNat = 9 then ['\\', 't']
  else if c.toNat = 10 then ['\\', 'n']
  else if c.toNat = 12 then ['\\', 'f']
  else if c.toNat = 13 then ['\\', 'r']
  else ['\\', 'u', '0', '0', hexDigit (c.toNat / 16), hexDigit (c.toNat % 16)]

/-- A text in its quotes. -/
def writeText (s : List Char) : List Char := '"' :: s.flatMap writeChar ++ ['"']

/-- A whole number. -/
def writeInt (n : Int) : List Char :=
  if n < 0 then '-' :: Nat.toDigits 10 n.natAbs else Nat.toDigits 10 n.natAbs

mutual

/-- The characters of a value. -/
def write : Json → List Char
  | null => "null".toList
  | bool true => "true".toList
  | bool false => "false".toList
  | int n => writeInt n
  | real spelling => spelling.toList
  | text s => writeText s.toList
  | garbled => "null".toList
  | list items => '[' :: writeItems items ++ [']']
  | record fields => '{' :: writeFields fields ++ ['}']

/-- The members of a list, with commas between them. -/
def writeItems : List Json → List Char
  | [] => []
  | [item] => write item
  | item :: items => write item ++ ',' :: writeItems items

/-- The fields of a record, with commas between them. -/
def writeFields : List (String × Json) → List Char
  | [] => []
  | [(name, value)] => writeText name.toList ++ ':' :: write value
  | (name, value) :: fields =>
    writeText name.toList ++ ':' :: write value ++ ',' :: writeFields fields

end

/-- The text of a value. -/
def print (value : Json) : String := String.ofList value.write

end Bourse.Json
