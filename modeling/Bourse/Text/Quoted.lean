/-
Texts in quotation marks, as messages show them.

A quotation mark and a backslash have a backslash in front; line ends, tabs and the like
are given by a letter, and other characters that cannot be seen by their number.
-/
import Bourse.Text.Blank

namespace Bourse.Text

/-- The characters that a letter is given for. -/
def letterEscapes : List (Char × Char) :=
  [('"', '"'), ('\\', '\\'), ('\n', 'n'), ('\r', 'r'), ('\t', 't'), (Char.ofNat 0, '0')]

/-- Ranges of characters that cannot be seen by themselves: controls, joiners, accents. -/
def unseenRanges : List (Nat × Nat) :=
  [(0x00, 0x1F), (0x7F, 0x9F), (0xAD, 0xAD), (0x300, 0x36F), (0x200B, 0x200F), (0x202A, 0x202E),
    (0x2060, 0x206F), (0xE000, 0xF8FF), (0xFE00, 0xFE0F), (0xFEFF, 0xFEFF), (0xFFF0, 0xFFFB),
    (0xE0000, 0x10FFFF)]

/-- Is the character one that cannot be seen? -/
def isUnseen (c : Char) : Bool :=
  (c != ' ' && isBlank c) || unseenRanges.any fun r => r.1 ≤ c.toNat && c.toNat ≤ r.2

/-- How a character is shown. -/
def showChar (c : Char) : List Char :=
  match letterEscapes.lookup c with
  | some letter => ['\\', letter]
  | none =>
    if isUnseen c then "\\u\x7b".toList ++ Nat.toDigits 16 c.toNat ++ "\x7d".toList else [c]

/-- A text in quotation marks. -/
def quoted (s : String) : String := String.ofList ('"' :: s.toList.flatMap showChar ++ ['"'])

end Bourse.Text
