/-!
# Command line arguments

Arguments are read from left to right.  Asking for the version or for help ends the
reading at once; a mistake before that counts.
-/

namespace PlatformOverlay.CommandLine

/-- Options that take a value. -/
inductive ValueOption where
  | config
  | module
deriving DecidableEq, Repr

/-- What one argument says by itself. -/
inductive Argument where
  /-- An option, with its value if that is attached. -/
  | option (which : ValueOption) (attached : Option String)
  | generateCode
  | version
  | help
  | endOfOptions
  | unknown
deriving DecidableEq, Repr

inductive UsageError where
  | unexpected (argument : String)
  | missingValue (which : ValueOption)
  | repeated (option : String)
  | emptyConfig
deriving DecidableEq, Repr

/-- The options given so far. -/
structure Selection where
  config : Option String
  modules : List String
  generateCode : Bool
deriving DecidableEq, Repr

inductive Request where
  | run (selection : Selection)
  | version
  | help
deriving DecidableEq, Repr

namespace ValueOption

def usage : ValueOption → String
  | .config => "--config <CONFIG>"
  | .module => "--module <NAME>"

end ValueOption

namespace UsageError

def message : UsageError → String
  | .unexpected argument => "unexpected argument '" ++ argument ++ "' found"
  | .missingValue which => "a value is required for '" ++ which.usage ++ "' but none was supplied"
  | .repeated option => "the argument '" ++ option ++ "' cannot be used multiple times"
  | .emptyConfig => "a value is required for '" ++ ValueOption.config.usage ++
      "' but none was supplied"

end UsageError

namespace Argument

/-- An option by its long name, and what stands behind an equals sign. -/
def ofLong (name : String) (attached : Option String) : Argument :=
  match name, attached with
  | "config", v => .option .config v
  | "module", v => .option .module v
  | "generate-code", none => .generateCode
  | "version", none => .version
  | "help", none => .help
  | _, _ => .unknown

/-- An option by its letter, and what follows the letter.  An equals sign in front of a
value does not belong to it. -/
def ofLetter (letter : Char) (rest : List Char) : Argument :=
  let attached :=
    match rest with
    | [] => none
    | '=' :: value => some (String.ofList value)
    | value => some (String.ofList value)
  if letter = 'c' then .option .config attached
  else if letter = 'm' then .option .module attached
  else if letter = 'V' then .version
  else if letter = 'h' then .help
  else .unknown

def ofText (text : String) : Argument :=
  match text.toList with
  | ['-', '-'] => .endOfOptions
  | '-' :: '-' :: long =>
    match long.dropWhile (· ≠ '=') with
    | [] => ofLong (String.ofList long) none
    | _ :: value => ofLong (String.ofList (long.takeWhile (· ≠ '='))) (some (String.ofList value))
  | '-' :: letter :: rest => ofLetter letter rest
  | _ => .unknown

/-- Can the text be the value of the option before it?  A dash in front makes it an
option itself. -/
def isValue (text : String) : Bool :=
  match text.toList with
  | ['-'] => true
  | '-' :: _ => false
  | _ => true

end Argument

namespace Selection

def empty : Selection := ⟨none, [], false⟩

/-- Give an option its value. -/
def set (s : Selection) (which : ValueOption) (value : String) : Except UsageError Selection :=
  match which with
  | .module => .ok { s with modules := s.modules ++ [value] }
  | .config =>
      if value = "" then .error .emptyConfig
      else if s.config.isSome then .error (.repeated which.usage)
      else .ok { s with config := some value }

def setGenerateCode (s : Selection) : Except UsageError Selection :=
  if s.generateCode then .error (.repeated "--generate-code")
  else .ok { s with generateCode := true }

end Selection

/-- Read arguments on top of a selection. -/
def readOnto : Selection → List String → Except UsageError Request
  | s, [] => .ok (.run s)
  | s, text :: rest =>
    match Argument.ofText text with
    | .version => .ok .version
    | .help => .ok .help
    | .generateCode => do readOnto (← s.setGenerateCode) rest
    | .option which (some value) => do readOnto (← s.set which value) rest
    | .option which none =>
      match rest with
      | [] => .error (.missingValue which)
      | value :: rest =>
          if Argument.isValue value then do readOnto (← s.set which value) rest
          else .error (.missingValue which)
    | .endOfOptions =>
      match rest with
      | [] => .ok (.run s)
      | argument :: _ => .error (.unexpected argument)
    | .unknown => .error (.unexpected text)

/-- The project file that is used when none is named. -/
def defaultConfig : String := "overwrite.toml"

/-- Read all arguments.  The environment may name the project file if they do not. -/
def readArguments (arguments : List String) (environment : Option String) :
    Except UsageError Request := do
  match ← readOnto .empty arguments, environment with
  | .run s, some named =>
      if s.config.isSome then return .run s else return .run (← s.set .config named)
  | request, _ => return request

end PlatformOverlay.CommandLine
