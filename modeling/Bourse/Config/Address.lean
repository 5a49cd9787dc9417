/-
What can be wrong with the address of a database before anything is reached.

An address begins with a scheme and a colon.  Under a scheme of the web the host and its
port come next, whatever number of slashes stands in between, and under another scheme
they come after exactly two; who asks may stand in front of the host, before an at-sign.
An address without these parts has nothing that could be wrong.
-/
import Bourse.Config.Basic
import Bourse.Config.Host
import Bourse.Error

namespace Bourse

/-- Why an address cannot be used. -/
inductive AddressFault
  | noScheme
  | host (f : HostFault)
  | badPort
deriving DecidableEq, Inhabited

/-- The wording of a fault. -/
def AddressFault.message : AddressFault → String
  | noScheme => "relative URL without a base"
  | host f => f.message
  | badPort => "invalid port number"

/-- The wording of an address that is refused as part of a configuration. -/
def AddressFault.context (f : AddressFault) : String := "error with configuration: " ++ f.message

/-- The error of a store whose address cannot be used. -/
def AddressFault.error (f : AddressFault) : Error := .store f.context

namespace Address

open Bourse.Text

/-! ### The scheme -/

/-- May the character stand in a scheme after its first letter? -/
def inScheme (c : Char) : Bool := c.isAlphanum || c == '+' || c == '-' || c == '.'

/-- The scheme in small letters, and what follows its colon. -/
def scheme? (cs : List Char) : Option (String × List Char) :=
  match cs with
  | c :: _ =>
    if c.isAlpha then
      match cs.dropWhile inScheme with
      | ':' :: rest => some (String.ofList ((cs.takeWhile inScheme).map Char.toLower), rest)
      | _ => none
    else none
  | [] => none

/-- The schemes of the web, under which slashes may lean either way. -/
def webSchemes : List String := ["http", "https", "ws", "wss", "ftp"]

/-- Is the character a slash?  Only a scheme of the web knows those that lean back. -/
def isSlash (web : Bool) (c : Char) : Bool := c == '/' || (web && c == '\\')

/-! ### Who asks, the host and the port -/

/-- Does the character end the part of an address that the host is in? -/
def endsPart (web : Bool) (c : Char) : Bool := isSlash web c || c == '?' || c == '#'

/-- What stands before and after the last at-sign in front of the host, if there is one. -/
def cutAtLastAt? (web : Bool) (cs : List Char) : Option (List Char × List Char) :=
  let part := cs.takeWhile (!endsPart web ·)
  if part.contains '@' then
    let host := (part.reverse.takeWhile (· != '@')).reverse
    some (part.take (part.length - host.length - 1), cs.drop (part.length - host.length))
  else none

/-- The host, which a colon ends outside brackets, and what follows it. -/
def cutHost (web : Bool) (bracketed : Bool) : List Char → List Char × List Char
  | [] => ([], [])
  | c :: cs =>
    if endsPart web c || (c == ':' && !bracketed) then ([], c :: cs)
    else
      let (host, rest) := cutHost web (c == '[' || (bracketed && c != ']')) cs
      (c :: host, rest)

/-- Is what follows the host, if it is a port, a natural of 16 bits or empty? -/
def portUsable : List Char → Bool
  | ':' :: cs =>
    ofDigits (cs.takeWhile Char.isDigit) < twoTo 16 &&
      match cs.dropWhile Char.isDigit with
      | c :: _ => endsPart true c
      | [] => true
  | _ => true

/-- What is wrong with a host and its port; `asked` tells whether someone stands before it. -/
def hostFault? (web asked : Bool) (cs : List Char) : Option AddressFault :=
  let (host, rest) := cutHost web false cs
  if let some f := Host.fault? web host then some (.host f)
  else if host.isEmpty && rest.head? == some ':' then some (.host .empty)
  else if !portUsable rest then some .badPort
  else if host.isEmpty && asked then some (.host .empty)
  else none

/-- What is wrong with an address after its scheme and slashes. -/
def authorityFault? (web : Bool) (cs : List Char) : Option AddressFault :=
  match cutAtLastAt? web cs with
  | none => hostFault? web false cs
  | some (asker, rest) =>
    if asker.isEmpty && rest.head?.any (endsPart web) then some (.host .empty)
    else hostFault? web (asker != [] && asker != [':']) rest

/-- Is this a letter for a drive? -/
def isDrive : List Char → Bool
  | [c, mark] => c.isAlpha && (mark == ':' || mark == '|')
  | _ => false

/-- What is wrong with the address of a file, which has a host after two slashes. -/
def fileFault? : List Char → Option AddressFault
  | a :: b :: cs =>
    let host := cs.takeWhile (!endsPart true ·)
    if !isSlash true a || !isSlash true b || host.isEmpty || isDrive host then none
    else (Host.fault? true host).map .host
  | _ => none

/-! ### The whole -/

/-- Is the character passed over wherever it stands in an address? -/
def isPassedOver (c : Char) : Bool := c == '\t' || c == '\n' || c == '\r'

/-- Is the character passed over at the ends of an address? -/
def isMargin (c : Char) : Bool := c.toNat ≤ 32

/-- An address without the characters that are passed over. -/
def bare (text : String) : List Char :=
  (((text.toList.dropWhile isMargin).reverse.dropWhile isMargin).reverse).filter
    (!isPassedOver ·)

/-- What is wrong with an address, if anything is. -/
def fault? (text : String) : Option AddressFault :=
  match scheme? (bare text) with
  | none => some .noScheme
  | some (scheme, rest) =>
    if scheme = "file" then fileFault? rest
    else if webSchemes.contains scheme then authorityFault? true (rest.dropWhile (isSlash true))
    else match rest with
      | '/' :: '/' :: cs => authorityFault? false cs
      | _ => none

end Address

/-- What is wrong with the address of the database, if one is configured. -/
def Config.addressFault? (c : Config) : Option AddressFault := c.database.url.bind Address.fault?

end Bourse
