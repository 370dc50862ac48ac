import PlatformOverlay.Check.Report
import PlatformOverlay.Config.Problem
import PlatformOverlay.Java.Source
import PlatformOverlay.Merge.Pass

/-!
# Failures

Why a module could not be processed, and the message for each reason.
-/

namespace PlatformOverlay

open Files (IoCause)

inductive Failure where
  | merge (error : Merge.MergeError)
  /-- The common classes were asked for before they were loaded. -/
  | outOfOrder
  | invalidOverwrites (project : String) (report : Check.Report)
  | io (operation : String) (path : Path) (cause : IoCause)
  /-- A generated file has no package declaration to put imports behind. -/
  | malformedSource (path : Path)
  | load (errors : List Java.SyntaxError)
  | noMatchingRoot (path : Path)
  | config (path : Path) (problem : Config.Problem)
deriving DecidableEq, Repr

namespace Failure

def message : Failure → String
  | .merge error => error.message
  | .outOfOrder => "Plugins ran out of order"
  | .invalidOverwrites project _ => "Project '" ++ project ++ "' contains invalid overwrites"
  | .io operation path cause => operation ++ " " ++ path.text ++ ": " ++ cause.message
  | .malformedSource path => "No package declaration in Java file: " ++ path.text
  | .load errors =>
      "Failed to load " ++ toString errors.length ++ " file(s):\n  " ++
        String.intercalate "\n  " (errors.map Java.SyntaxError.message)
  | .noMatchingRoot path => "No matching source root: " ++ path.text
  | .config path problem => "Invalid configuration " ++ path.text ++ ": " ++ problem.message

end Failure

end PlatformOverlay
