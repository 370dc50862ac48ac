import PlatformOverlay.CommandLine.Arguments
import PlatformOverlay.Config.Read

/-!
# The program

What the program prints and how it ends, and what it makes of the files, as a function
of its arguments, the environment and the files.
-/

namespace PlatformOverlay.CommandLine

open Config Files Model Workspace

/-- How the program ends. -/
structure Ending where
  exitCode : UInt32
  out : String
  err : String
deriving DecidableEq, Repr

def versionText : String := "overwrite-validator 0.3.0\n"

def helpText (environment : Option String) : String :=
  "Validate and generate overwritten Java sources for every platform module of a project\n\n" ++
  "Usage: overwrite-validator [OPTIONS]\n\nOptions:\n" ++
  "  -c, --config <CONFIG>  Project file describing the common and platform modules " ++
  "[env: OVERWRITE_CONFIG=" ++ environment.getD "" ++ "] [default: " ++ defaultConfig ++ "]\n" ++
  "  -m, --module <NAME>    Only run the named module (repeatable)\n" ++
  "      --generate-code    Rewrite marked classes into the output directories\n" ++
  "  -h, --help             Print help\n" ++
  "  -V, --version          Print version\n"

namespace Ending

def success (out : String) : Ending := ⟨0, out, ""⟩

def failure (err : String) : Ending := ⟨1, "", err⟩

def usage (e : UsageError) : Ending :=
  ⟨2, "", "error: " ++ e.message ++ "\n\nUsage: overwrite-validator [OPTIONS]\n\n" ++
    "For more information, try '--help'.\n"⟩

end Ending

/-- The result of a module run with the name of the module. -/
structure ModuleResult where
  name : String
  result : Except Failure Outcome

/-- Run modules one after another.  One that fails does not keep the others from
running. -/
def runModules (p : ProjectSettings) : List ModuleSettings → StateM World (List ModuleResult)
  | [] => return []
  | m :: ms => do
      let result ← (p.runModule m).run
      return ⟨m.name, result⟩ :: (← runModules p ms)

/-- The sections of the report if the module has invalid overwrites. -/
def ModuleResult.sections (r : ModuleResult) : List String :=
  match r.result with
  | .error (.invalidOverwrites project report) => (report.render project).map Check.red
  | .error _ | .ok _ => []

def ModuleResult.failureLine? (r : ModuleResult) : Option String :=
  match r.result with
  | .error failure => some ("  " ++ r.name ++ ": " ++ failure.message)
  | .ok _ => none

def textOfLines (lines : List String) : String := String.join (lines.map (· ++ "\n"))

/-- The ending that belongs to the results of all modules. -/
def endingOf (results : List ModuleResult) : Ending :=
  let sections := results.flatMap ModuleResult.sections
  match results.filterMap ModuleResult.failureLine? with
  | [] => .success ""
  | failures =>
      .failure (textOfLines
        (sections ++ (toString failures.length ++ " module(s) failed:") :: failures))

/-- The modules to run: those that were named, or else all, in the order of the project;
or the first name that no module has. -/
def selectModules (p : ProjectSettings) (names : List String) :
    Except String (List ModuleSettings) :=
  match names.find? fun n ↦ (p.find? n).isNone with
  | some unknown => .error unknown
  | none => .ok (p.allModules.filter fun m ↦ names.isEmpty || names.contains m.name)

def projectFile (s : Selection) : Path := ⟨s.config.getD defaultConfig⟩

/-- Run the modules of a selection. -/
def runSelection (s : Selection) : StateM FileStore Ending := do
  match load (← get) (projectFile s) with
  | .error failure =>
      return .failure
        ("error: loading " ++ (projectFile s).text ++ ": " ++ failure.message ++ "\n")
  | .ok p =>
    let p := { p with generateCode := p.generateCode || s.generateCode }
    match selectModules p s.modules with
    | .error unknown => return .failure ("error: unknown module '" ++ unknown ++ "'\n")
    | .ok modules =>
        let (results, world) := runModules p modules ⟨← get, .empty⟩
        set world.files
        return endingOf results

/-- The whole program. -/
def program (arguments : List String) (environment : Option String) : StateM FileStore Ending :=
  match readArguments arguments environment with
  | .error e => return .usage e
  | .ok .version => return .success versionText
  | .ok .help => return .success (helpText environment)
  | .ok (.run s) => runSelection s

/-- The files and directories that the program looks at, as far as the files that are
there tell.  The project file is the first of them and names the others. -/
def touched (arguments : List String) (environment : Option String) (store : FileStore) :
    List Path :=
  match readArguments arguments environment with
  | .ok (.run s) =>
    match load store (projectFile s) with
    | .ok p => projectFile s :: p.directories
    | .error _ => [projectFile s]
  | .ok .version | .ok .help | .error _ => []

end PlatformOverlay.CommandLine
