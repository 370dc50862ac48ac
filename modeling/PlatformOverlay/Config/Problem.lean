import PlatformOverlay.Files.Cause
import PlatformOverlay.Text.Quoted
import PlatformOverlay.Toml.Value

/-!
# Problems of a project file

Why a project file was not accepted.  A problem with a key or a value names its line.
-/

namespace PlatformOverlay.Config

open Files (IoCause)

/-- What a value has to be. -/
inductive Expected where
  | boolean
  | string
  | sequence
  | path
  | module
deriving DecidableEq, Repr

/-- What a value is. -/
inductive Found where
  | scalar (s : Toml.Scalar)
  | sequence
  | map
deriving DecidableEq, Repr

inductive Problem where
  | unreadable (cause : IoCause)
  | notToml
  | unknownField (line : Nat) (field : String) (known : List String)
  | missingField (line : Nat) (field : String)
  | wrongType (line : Nat) (found : Found) (expected : Expected)
  /-- A module is written as an array that does not even hold its name. -/
  | emptyModule (line : Nat)
deriving DecidableEq, Repr

namespace Expected

def text : Expected → String
  | .boolean => "a boolean"
  | .string => "a string"
  | .sequence => "a sequence"
  | .path => "path string"
  | .module => "struct ModuleConfig"

end Expected

namespace Found

def ofValue : Toml.Value → Found
  | .scalar _ s => .scalar s
  | .array _ _ | .tables _ => .sequence
  | .table _ => .map

def backticked (text : String) : String := "\x60" ++ text ++ "\x60"

def text : Found → String
  | .scalar (.string s) => "string " ++ Text.quoted s
  | .scalar (.integer n) => "integer " ++ backticked (toString n)
  | .scalar (.float x) => "floating point " ++ backticked x.text
  | .scalar (.boolean b) => "boolean " ++ backticked (if b then "true" else "false")
  | .scalar .datetime => "map"
  | .sequence => "sequence"
  | .map => "map"

end Found

namespace Problem

open Found (backticked)

def onLine (line : Nat) (text : String) : String := "line " ++ toString line ++ ": " ++ text

def message : Problem → String
  | .unreadable cause => "could not read file: " ++ cause.message
  | .notToml => "not a TOML document"
  | .unknownField line field known =>
      onLine line ("unknown field " ++ backticked field ++ ", expected one of " ++
        String.intercalate ", " (known.map backticked))
  | .missingField line field => onLine line ("missing field " ++ backticked field)
  | .wrongType line found expected =>
      onLine line ("invalid type: " ++ found.text ++ ", expected " ++ expected.text)
  | .emptyModule line =>
      onLine line "invalid length 0, expected struct ModuleConfig with 3 elements"

end Problem

end PlatformOverlay.Config
