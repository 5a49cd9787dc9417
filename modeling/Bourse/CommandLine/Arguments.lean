/-
The arguments of the command line.

There are two options: the path of a configuration file, at most once, and a wish for
help.  The path may be an argument of its own or joined to the option.  Arguments are
read in order, and the first mistake or the first wish for help decides; but that an
option lacks its path, or is there a second time, is only noticed when the reading of
that option ends, which is at the next option or at the end.

What is said about a mistake in a long option shows how the command is used with the
options that were given before it, and with the one that may have been meant.
-/
import Bourse.Text.Parts
import Bourse.Text.Similarity

namespace Bourse.CommandLine

/-- What the arguments ask for. -/
inductive Request
  | help
  | run (path : Option String)
deriving DecidableEq, Inhabited

/-- A mistake in the arguments. -/
inductive ArgumentFault
  | unexpected (argument : String)
  /-- A long option that there is not, perhaps after one that gave the path. -/
  | unknownOption (name : String) (given : Bool)
  /-- A value joined to the wish for help, perhaps after an option that gave the path. -/
  | unneededValue (value : String) (given : Bool)
  | missingValue
  | repeated
deriving DecidableEq, Inhabited

/-- The command's name. -/
def name : String := "order-matcher"

/-- The name of the option that gives the path. -/
def pathOption : String := "config"

/-- The name of the option that asks for help. -/
def helpOption : String := "help"

/-- The option that gives the path, as it is named in messages. -/
def optionName : String := "--" ++ pathOption ++ " <CONFIG>"

/-- How the command is used with some options, on one line. -/
def usageWith (options : List String) : String :=
  "Usage: " ++ name ++ " " ++ if options.isEmpty then "[OPTIONS]" else " ".intercalate options

/-- How the command is used, on one line. -/
def usage : String := usageWith []

/-- The help. -/
def helpText : String :=
  "Price-time priority order matching service\n\n" ++ usage ++ "\n\nOptions:\n" ++
    "  -c, --config <CONFIG>  TOML configuration file; " ++
    "`MATCHER__*` environment variables override it\n" ++
    "  -h, --help             Print help\n"

namespace ArgumentFault

/-- The option that may have been meant by a long option that there is not. -/
def meant? (option : String) : Option String :=
  Text.mostSimilar? option [pathOption, helpOption]

/-- The wording of a mistake. -/
def message : ArgumentFault → String
  | unexpected argument => s!"unexpected argument '{argument}' found"
  | unknownOption option _ =>
    s!"unexpected argument '--{option}' found" ++ match meant? option with
      | some o => s!"\n\n  tip: a similar argument exists: '--{o}'"
      | none => ""
  | unneededValue value _ =>
    s!"unexpected value '{value}' for '--{helpOption}' found; no more were expected"
  | missingValue => s!"a value is required for '{optionName}' but none was supplied"
  | repeated => s!"the argument '{optionName}' cannot be used multiple times"

/-- How the command is used, as it is shown with a mistake. -/
def usageShown : ArgumentFault → Option String
  | unknownOption option given =>
    let path := if given || meant? option == some pathOption then [optionName] else []
    let help := if meant? option == some helpOption then ["--" ++ helpOption] else []
    some (usageWith (path ++ help))
  | unneededValue _ given =>
    some (usageWith (["--" ++ helpOption] ++ if given then ["<" ++ optionName ++ ">"] else []))
  | missingValue => none
  | _ => some usage

/-- All that is said about a mistake. -/
def report (f : ArgumentFault) : String :=
  "error: " ++ f.message ++ "\n\n" ++ (f.usageShown.elim "" (· ++ "\n\n")) ++
    "For more information, try '--help'.\n"

end ArgumentFault

/-! ### Reading -/

/-- The path read so far. -/
structure Reading where
  /-- The path of the option whose reading has ended. -/
  path : Option String
  /-- An option whose reading has not ended, and its path if that has been read. -/
  pending : Option (Option String)

namespace Reading

/-- Nothing read. -/
def start : Reading := ⟨none, none⟩

/-- Ends the reading of an option with a path. -/
def give (r : Reading) (path : String) : Except ArgumentFault Reading :=
  if r.path.isSome then .error .repeated else .ok ⟨some path, none⟩

/-- Ends the reading of the option that is pending, if one is. -/
def resolve (r : Reading) : Except ArgumentFault Reading :=
  match r.pending with
  | none => .ok r
  | some none => .error .missingValue
  | some (some path) => r.give path

/-- Has a path been given, once an option that is pending has ended, if it ends well? -/
def given (r : Reading) : Bool :=
  match r.resolve with
  | .ok r => r.path.isSome
  | .error .repeated => false
  | .error _ => r.path.isSome

/-- Reads an option that has its path joined to it, or is yet to get one. -/
def option (r : Reading) (joined : Option String) : Except ArgumentFault Reading := do
  let r ← r.resolve
  match joined with
  | some path => r.give path
  | none => return { r with pending := some none }

end Reading

/-- An argument by its form. -/
inductive Argument
  /-- Two dashes: no options follow. -/
  | dashes
  /-- A long option, and what follows its equals sign. -/
  | long (name : String) (joined : Option String)
  /-- A short option, and what follows its letter. -/
  | short (letter : Char) (rest : List Char)
  | plain

/-- The form of an argument. -/
def Argument.ofText (text : String) : Argument :=
  match text.toList with
  | ['-', '-'] => dashes
  | '-' :: '-' :: cs =>
    let (name, joined) := Text.cutAt '=' cs
    long (String.ofList name) (joined.map String.ofList)
  | '-' :: letter :: rest => short letter rest
  | _ => plain

/-- What is joined to a short option, without an equals sign in front. -/
def joinedTo : List Char → Option String
  | [] => none
  | '=' :: cs => some (String.ofList cs)
  | cs => some (String.ofList cs)

/-- Reads the arguments; after two dashes, as `ended` tells, none of them is an option. -/
def readArguments (ended : Bool) (r : Reading) : List String → Except ArgumentFault Request
  | [] => r.resolve.map fun r => .run r.path
  | a :: arguments =>
    if ended then .error (.unexpected a)
    else match Argument.ofText a with
      | .dashes => readArguments true r arguments
      | .long name joined =>
        if name = pathOption then do readArguments false (← r.option joined) arguments
        else if name = helpOption then
          match joined with
          | some value => .error (.unneededValue value r.path.isSome)
          | none => r.resolve.map fun _ => .help
        else .error (.unknownOption name r.given)
      | .short letter rest =>
        if letter = 'c' then do readArguments false (← r.option (joinedTo rest)) arguments
        else if letter = 'h' then r.resolve.map fun _ => .help
        else .error (.unexpected (String.ofList ['-', letter]))
      | .plain =>
        match r.pending with
        | some none => readArguments false { r with pending := some (some a) } arguments
        | _ => .error (.unexpected a)

/-- What the arguments ask for, or the first mistake in them. -/
def Request.ofArguments (arguments : List String) : Except ArgumentFault Request :=
  readArguments false .start arguments

end Bourse.CommandLine
