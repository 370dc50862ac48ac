import PlatformOverlay.Check.Validate
import PlatformOverlay.Merge.Run
import PlatformOverlay.Model.Cache
import PlatformOverlay.Output.Tree
import PlatformOverlay.Workspace.Load

/-!
# Running a module

A module run clears the output directory of the module, loads the common classes unless they are
loaded already, then merges and writes the platform sources or only checks their marks, and
validates the result.

A run ends in one of four ways: the module is skipped, since it has no source directories; it is the
common module, of which only the classes are loaded; it has passed; or there is a failure. With
generated code, validation comes last and looks at the merged model, so a module that does not pass
it has all of its output written by then.
-/

namespace PlatformOverlay.Workspace

open Files Model

structure Module where
  name : String
  sources : List Path
deriving DecidableEq, Repr

structure Options where
  common : Module
  outputDirectory : Path
  generateCode : Bool
deriving DecidableEq, Repr

inductive Outcome where
  /-- None of the source directories exists. -/
  | skipped
  /-- The module is the common module: its classes are loaded. -/
  | commonModule
  /-- The module passed.  With generated code, the directory to compile in place of the
  sources; and the number of files that were printed. -/
  | validated (compileSources : Option Path) (emitted : Nat)
deriving DecidableEq, Repr

structure World where
  files : FileStore
  cache : CommonCache

abbrev Action := ExceptT Failure (StateM World)

/-- A computation over the files alone. -/
def onFiles (m : Output.Action α) : Action α := fun world ↦
  let (result, files) := m world.files
  (result, { world with files })

def fromResult (r : Except Failure α) : Action α := fun world ↦ (r, world)

/-- The common classes, loaded from the roots of the common module at first need. -/
def commonClasses (common : Module) : Action CommonClasses := fun world ↦
  let (result, cache) := world.cache.getOrLoad fun _ ↦
    CommonClasses.ofModel <$> load world.files (existingRoots world.files common.sources)
  (result, { world with cache })

/-- Merge a platform model and write the output tree.  Returns the merged model and the
number of printed files. -/
def generate (roots : SourceRoots) (common : CommonClasses) (model : SourceModel)
    (output : Path) : Action (SourceModel × Nat) := do
  let merged := Merge.run common model
  match merged.fault with
  | some e => throw (.merge e)
  | none =>
      let written ← onFiles (Output.writeEmitted roots merged.value merged.state output)
      let _ ← onFiles (Output.finish roots merged.value common merged.state output)
      return (merged.value, written.length)

def run (module : Module) (options : Options) : Action Outcome := do
  let roots := existingRoots (← get).files module.sources
  if roots.isEmpty then return .skipped
  else
    let output := options.outputDirectory
    onFiles (Output.tagged "Deleting files" output (clear output))
    let common ← commonClasses options.common
    if module.name = options.common.name then return .commonModule
    else
      let model ← fromResult (load (← get).files roots)
      let (model, outcome) ←
        if options.generateCode then do
          let (merged, written) ← generate roots common model output
          pure (merged, Outcome.validated (some output) written)
        else do
          fromResult ((Merge.verify common model).mapError .merge)
          pure (model, Outcome.validated none 0)
      let report := Check.validate common model
      if report.isEmpty then return outcome
      else throw (.invalidOverwrites module.name report)

end PlatformOverlay.Workspace
