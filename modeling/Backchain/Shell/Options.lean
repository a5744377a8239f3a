import Backchain.Settings

/-!
# The arguments of the shell

Paths and options in any order. Arguments are read from left to right, and the first that cannot
be taken, or that asks for the version or for help, decides. No option may be given twice.
-/

namespace Backchain.Shell

structure Options where
  paths : List String := []
  maxDepth : Option Nat := none
  ignoreSymbols : Bool := false
  json : Bool := false
  verbose : Bool := false
deriving DecidableEq

inductive Rejection where
  | unknown (option : String)
  | repeated (option : String)
  | missingValue (option : String)
  | unexpectedValue (option : String)
  | invalidDepth (value : String)
  | emptyPath
deriving DecidableEq

def Rejection.message : Rejection → String
  | .unknown option => "unexpected argument '" ++ option ++ "' found"
  | .repeated option => "the argument '" ++ option ++ "' cannot be used multiple times"
  | .missingValue option => "a value is required for '" ++ option ++ "' but none was supplied"
  | .unexpectedValue option => "unexpected value for '" ++ option ++ "' found"
  | .invalidDepth value => "invalid value '" ++ value ++ "' for '--max-depth'"
  | .emptyPath => "a path must not be empty"

/-- Why there is nothing to run. -/
inductive Stop where
  | version
  | help
  | rejected (cause : Rejection)
deriving DecidableEq

-- ---------------------------------------------------------------------------
-- One argument
-- ---------------------------------------------------------------------------

inductive Argument where
  | path (path : String)
  /-- A name after two dashes, with the value after an equals sign if there is one. -/
  | long (name : String) (value : Option String)
  /-- Letters after one dash. -/
  | short (letters : List Char)
  | endOfOptions
deriving DecidableEq

/-- A dash alone is a path. -/
def Argument.ofString (argument : String) : Argument :=
  match argument.toList with
  | ['-', '-'] => .endOfOptions
  | '-' :: '-' :: body =>
    let value := match body.dropWhile (· != '=') with
      | [] => none
      | _ :: value => some (String.ofList value)
    .long (String.ofList (body.takeWhile (· != '='))) value
  | '-' :: letter :: letters => .short (letter :: letters)
  | _ => .path argument

/-- A natural number of at most 64 bits in decimal digits, after a plus sign or none. -/
def readDepth? (text : String) : Option Nat :=
  let digits : List Char := match text.toList with
    | '+' :: digits => digits
    | digits => digits
  let value : Nat := digits.foldl (fun value digit => value * 10 + (digit.toNat - '0'.toNat)) 0
  if digits ≠ [] ∧ digits.all Char.isDigit ∧ value < UInt64.size then some value else none

namespace Options

def addPath (options : Options) (path : String) : Except Stop Options :=
  if path = "" then .error (.rejected .emptyPath)
  else .ok { options with paths := options.paths ++ [path] }

def setMaxDepth (options : Options) (value : String) : Except Stop Options :=
  match readDepth? value with
  | none => .error (.rejected (.invalidDepth value))
  | some depth =>
    if options.maxDepth.isSome then .error (.rejected (.repeated "--max-depth"))
    else .ok { options with maxDepth := some depth }

def setIgnoreSymbols (options : Options) : Except Stop Options :=
  if options.ignoreSymbols then .error (.rejected (.repeated "--ignore-symbols"))
  else .ok { options with ignoreSymbols := true }

def setJson (options : Options) : Except Stop Options :=
  if options.json then .error (.rejected (.repeated "--json"))
  else .ok { options with json := true }

def setVerbose (options : Options) : Except Stop Options :=
  if options.verbose then .error (.rejected (.repeated "--verbose"))
  else .ok { options with verbose := true }

def setNamed (options : Options) (name : String) : Except Stop Options :=
  match name with
  | "ignore-symbols" => options.setIgnoreSymbols
  | "json" => options.setJson
  | "verbose" => options.setVerbose
  | "version" => .error .version
  | "help" => .error .help
  | _ => .error (.rejected (.unknown ("--" ++ name)))

def setLetter (options : Options) (letter : Char) : Except Stop Options :=
  match letter with
  | 'v' => options.setVerbose
  | 'V' => .error .version
  | 'h' => .error .help
  | _ => .error (.rejected (.unknown (String.ofList ['-', letter])))

def flagNames : List String := ["ignore-symbols", "json", "verbose", "version", "help"]

-- ---------------------------------------------------------------------------
-- All arguments
-- ---------------------------------------------------------------------------

/-- Takes further arguments. A depth may be an argument of its own, if it starts with no dash. -/
def readFrom (options : Options) : List String → Except Stop Options
  | [] => .ok options
  | argument :: rest =>
    match Argument.ofString argument with
    | .endOfOptions => rest.foldlM addPath options
    | .path path => do readFrom (← options.addPath path) rest
    | .short letters => do readFrom (← letters.foldlM setLetter options) rest
    | .long "max-depth" (some value) => do readFrom (← options.setMaxDepth value) rest
    | .long "max-depth" none =>
      match rest with
      | [] => .error (.rejected (.missingValue argument))
      | value :: rest =>
        if value.toList.head? = some '-' then .error (.rejected (.missingValue argument))
        else do readFrom (← options.setMaxDepth value) rest
    | .long name (some _) =>
      if name ∈ flagNames then .error (.rejected (.unexpectedValue argument))
      else .error (.rejected (.unknown argument))
    | .long name none => do readFrom (← options.setNamed name) rest

def read (arguments : List String) : Except Stop Options := readFrom {} arguments

def settings (options : Options) : Settings :=
  let settings : Settings := { matching := if options.ignoreSymbols then .anySymbol else .sameSymbol }
  match options.maxDepth with
  | some depth => settings.withDepth depth
  | none => settings

end Options

end Backchain.Shell
