/-
The host in the address of a database.

A host in brackets is a number of the sixth version of the internet protocol.  Under a
scheme of the web any other host is a name, whose characters may be given as bytes behind
a percent sign, or a number of the fourth version if its last part is a number.  Under
another scheme it is any text without certain characters.
-/
import Bourse.Text.Digits
import Bourse.Text.Parts

namespace Bourse

/-- Why a host cannot be used. -/
inductive HostFault
  | empty
  | badCharacter
  | badName
  | badNumber
  | badLongNumber
deriving DecidableEq, Inhabited

/-- The wording of a fault. -/
def HostFault.message : HostFault → String
  | empty => "empty host"
  | badCharacter => "invalid domain character"
  | badName => "invalid international domain name"
  | badNumber => "invalid IPv4 address"
  | badLongNumber => "invalid IPv6 address"

namespace Host

open Bourse.Text

/-! ### Numbers of the fourth version -/

/-- The number of a part, written to base sixteen after `0x`, eight after `0`, or ten. -/
def numberPart? : List Char → Option Nat
  | [] => none
  | '0' :: c :: cs =>
    if c = 'x' ∨ c = 'X' then natOfHex? cs
    else if (c :: cs).all fun d => '0' ≤ d ∧ d ≤ '7' then
      some ((c :: cs).foldl (fun n d => n * 8 + digitValue d) 0)
    else none
  | cs => natOfText? cs

/-- The parts of a name, without the empty one behind a point at its end. -/
def nameParts (cs : List Char) : List (List Char) :=
  let parts := partsAt '.' cs
  if 1 < parts.length ∧ parts.getLast? = some [] then parts.dropLast else parts

/-- Is the last part of a name a number? -/
def endsInNumber (cs : List Char) : Bool :=
  match (nameParts cs).getLast? with
  | some part => (natOfText? part).isSome || (numberPart? part).isSome
  | none => false

/-- Are these at most four numbers, the last of which fills the bytes that the others leave? -/
def isNumber (cs : List Char) : Bool :=
  let parts := nameParts cs
  match parts.mapM numberPart? with
  | some ns =>
    ns.length ≤ 4 && ns.dropLast.all (· < 256) &&
      ns.getLastD 0 < twoTo (8 * (5 - ns.length))
  | none => false

/-! ### Numbers of the sixth version -/

/-- Is this a byte, written to base ten without a needless zero? -/
def isByte (cs : List Char) : Bool :=
  match natOfText? cs with
  | some n => n < 256 && (cs.length == 1 || cs.head? != some '0')
  | none => false

/-- Are these four bytes with points between them? -/
def isFourBytes (cs : List Char) : Bool :=
  let parts := partsAt '.' cs
  parts.length == 4 && parts.all isByte

/-- Is this a group of one to four digits to base sixteen? -/
def isGroup (cs : List Char) : Bool := cs.length ≤ 4 && !cs.isEmpty && (natOfHex? cs).isSome

/--
The number of groups with colons between them.  If they are the last ones, four bytes may
stand for the last two.
-/
def groups? (atEnd : Bool) (cs : List Char) : Option Nat :=
  if cs.isEmpty then some 0
  else
    let parts := partsAt ':' cs
    if parts.all isGroup then some parts.length
    else if atEnd && parts.dropLast.all isGroup && isFourBytes (parts.getLastD []) then
      some (parts.length + 1)
    else none

/-- What stands before and after the first pair of colons. -/
def cutAtGap? : List Char → Option (List Char × List Char)
  | ':' :: ':' :: cs => some ([], cs)
  | c :: cs => (cutAtGap? cs).map fun (before, after) => (c :: before, after)
  | [] => none

/-- Are these eight groups, or fewer with one gap among them? -/
def isLongNumber (cs : List Char) : Bool :=
  match cutAtGap? cs with
  | none => groups? true cs == some 8
  | some (before, after) =>
    match groups? false before, groups? true after with
    | some m, some n => m + n < 8
    | _, _ => false

/-! ### Names -/

/-- The bytes of a name, those behind percent signs put in. -/
def bytesOf : List UInt8 → List UInt8
  | [] => []
  | [a] => [a]
  | [a, b] => [a, b]
  | a :: b :: c :: bs =>
    match natOfHex? [Char.ofNat b.toNat, Char.ofNat c.toNat] with
    | some n => if a = 0x25 then UInt8.ofNat n :: bytesOf bs else a :: bytesOf (b :: c :: bs)
    | none => a :: bytesOf (b :: c :: bs)

/-- The characters of a name, those given as bytes put in, if they are characters. -/
def nameOf? (cs : List Char) : Option (List Char) :=
  (String.fromUTF8? ⟨(bytesOf (String.ofList cs).toUTF8.data.toList).toArray⟩).map String.toList

/-- May the character stand in a name? -/
def inName (c : Char) : Bool :=
  0x20 < c.toNat && !(0x7F ≤ c.toNat && c.toNat < 0xA0) && c.toNat != 0xFFFD &&
    !("%#/:<>?@[\\]^|".toList.contains c)

/-- May the character stand in a host that is just a text? -/
def inText (c : Char) : Bool :=
  c.toNat != 0 && !("\t\n\r #/:<>?@[\\]^|".toList.contains c)

/-- What is wrong with a host, if anything is. -/
def fault? (web : Bool) (cs : List Char) : Option HostFault :=
  match cs with
  | '[' :: cs =>
    if cs.getLast? = some ']' ∧ isLongNumber cs.dropLast then none else some .badLongNumber
  | cs =>
    if !web then if cs.all inText then none else some .badCharacter
    else match (nameOf? cs).filter (·.all inName) with
      | none => some .badName
      | some [] => some .empty
      | some name => if endsInNumber name && !isNumber name then some .badNumber else none

end Host

end Bourse
