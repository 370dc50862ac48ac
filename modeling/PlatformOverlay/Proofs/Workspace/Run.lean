import PlatformOverlay.Proofs.Files.Operations
import PlatformOverlay.Workspace.Run

/-!
# The stages of a module run

A run clears the output directory, loads the common classes and then the model of the module
(`run_eq`); what it does with these reads no source any more (`process`).  All output is written
in one go, `Output.deliver`.
-/

namespace PlatformOverlay

open Files Model

namespace Output

open Merge Workspace

/-- Print the files with treated classes, then complete the output. -/
def deliver (roots : SourceRoots) (model : SourceModel) (common : CommonClasses) (emit : EmitSet)
    (output : Path) : Action Nat := do
  let written ← writeEmitted roots model emit output
  let _ ← finish roots model common emit output
  return written.length

end Output

namespace Workspace

/-- The outcome, unless the model has invalid overwrites. -/
def verdict (name : String) (common : CommonClasses) (model : SourceModel) (outcome : Outcome) :
    Except Failure Outcome :=
  let report := Check.validate common model
  if report.isEmpty then .ok outcome else .error (.invalidOverwrites name report)

/-- What a run makes of the loaded model. -/
def process (module : Module) (options : Options) (roots : SourceRoots) (common : CommonClasses)
    (model : SourceModel) : Action Outcome := fun world ↦
  if options.generateCode then
    let merged := Merge.run common model
    match merged.fault with
    | some e => (.error (.merge e), world)
    | none =>
      match Output.deliver roots merged.value common merged.state options.outputDirectory
        world.files with
      | (.error e, files) => (.error e, { world with files })
      | (.ok written, files) =>
        (verdict module.name common merged.value
          (.validated (some options.outputDirectory) written),
          { world with files })
  else
    match Merge.verify common model with
    | .error e => (.error (.merge e), world)
    | .ok () => (verdict module.name common model (.validated none 0), world)

/-- The common classes for a run, and the cache behind it. -/
def commonFor (options : Options) (world : World) : Except Failure CommonClasses × CommonCache :=
  world.cache.getOrLoad fun _ ↦
    CommonClasses.ofModel <$> load world.files (existingRoots world.files options.common.sources)

/-- The world in which a run loads: the output directory is cleared. -/
def World.cleared (world : World) (options : Options) : World :=
  { world with files := (clear options.outputDirectory world.files).2 }

variable {module : Module} {options : Options} {roots : SourceRoots} {common : CommonClasses}
  {model : SourceModel} {world : World}

/-- The generation as a merge, a check of its result and a delivery. -/
theorem generate_eq (output : Path) : generate roots common model output world =
    let merged := Merge.run common model
    match merged.fault with
    | some e => (.error (.merge e), world)
    | none =>
      match Output.deliver roots merged.value common merged.state output world.files with
      | (.error e, files) => (.error e, { world with files })
      | (.ok written, files) => (.ok (merged.value, written), { world with files }) := by
  unfold generate Output.deliver
  dsimp only
  cases (Merge.run common model).fault with
  | some e => rfl
  | none =>
    dsimp only
    rw [run_bind, run_bind]
    unfold onFiles
    generalize Output.writeEmitted roots (Merge.run common model).value
      (Merge.run common model).state
      output = write
    rcases write world.files with ⟨_ | written, files⟩
    · rfl
    · dsimp only
      rw [run_bind, run_bind]
      generalize Output.finish roots (Merge.run common model).value common
        (Merge.run common model).state
        output = finish
      dsimp only
      rcases finish files with ⟨_ | _, _⟩ <;> rfl

/-- The end of a run, in the world behind loading. -/
theorem tail_eq : (do
    let (model, outcome) ←
      if options.generateCode then do
        let (merged, written) ← generate roots common model options.outputDirectory
        pure (merged, Outcome.validated (some options.outputDirectory) written)
      else do
        fromResult ((Merge.verify common model).mapError .merge)
        pure (model, Outcome.validated none 0)
    let report := Check.validate common model
    if report.isEmpty then return outcome
    else throw (.invalidOverwrites module.name report) : Action Outcome) world =
      process module options roots common model world := by
  have verdict_eq (model : SourceModel) (outcome : Outcome) (world : World) :
      (if (Check.validate common model).isEmpty then pure outcome
        else throw (.invalidOverwrites module.name (Check.validate common model)) :
          Action Outcome) world =
      (verdict module.name common model outcome, world) := by
    unfold verdict
    dsimp only
    split_ifs <;> rfl
  dsimp only
  unfold process
  split_ifs
  · rw [run_bind, generate_eq]
    dsimp only
    cases (Merge.run common model).fault with
    | some e => rfl
    | none =>
      dsimp only
      generalize Output.deliver roots (Merge.run common model).value common
        (Merge.run common model).state
        options.outputDirectory world.files = delivered
      rcases delivered with ⟨_ | written, files⟩
      · rfl
      · exact verdict_eq _ _ _
  · rw [run_bind]
    unfold fromResult
    cases Merge.verify common model with
    | error e => rfl
    | ok _ => exact verdict_eq _ _ _

/-- A run as clearing, asking for the common classes and what comes after: the sequencing is
done away with once, so that later proofs split on results. -/
theorem run_eq : run module options world =
    if (existingRoots world.files module.sources).isEmpty then (.ok .skipped, world)
    else
      let (loaded, cache) := commonFor options (world.cleared options)
      let cleared : World := ⟨(world.cleared options).files, cache⟩
      match loaded with
      | .error e => (.error e, cleared)
      | .ok common =>
        if module.name = options.common.name then (.ok .commonModule, cleared)
        else
          match load cleared.files (existingRoots world.files module.sources) with
          | .error e => (.error e, cleared)
          | .ok model =>
              process module options (existingRoots world.files module.sources) common
                model cleared := by
  have clears : onFiles (Output.tagged "Deleting files" options.outputDirectory
      (clear options.outputDirectory)) world = (.ok (), world.cleared options) := by
    have ok := result_clear options.outputDirectory world.files
    unfold onFiles Output.tagged World.cleared
    generalize clear options.outputDirectory world.files = cleared at ok
    rcases cleared with ⟨r, files⟩
    obtain rfl : r = .ok () := ok
    rfl
  have common : commonClasses options.common (world.cleared options) =
      ((commonFor options (world.cleared options)).1,
        ⟨(world.cleared options).files, (commonFor options (world.cleared options)).2⟩) := rfl
  unfold run
  rw [run_bind]
  change (if (existingRoots world.files module.sources).isEmpty then pure .skipped else _ :
    Action Outcome) world = _
  by_cases empty : (existingRoots world.files module.sources).isEmpty = true
  · rw [if_pos empty, if_pos empty]
    rfl
  rw [if_neg empty, if_neg empty]
  dsimp only
  rw [run_bind, clears]
  dsimp only
  rw [run_bind, common]
  rcases commonFor options (world.cleared options) with ⟨_ | common, cache⟩
  · rfl
  dsimp only
  by_cases same : module.name = options.common.name
  · rw [if_pos same, if_pos same]
    rfl
  rw [if_neg same, if_neg same, run_bind]
  change (fromResult
    (load (world.cleared options).files (existingRoots world.files module.sources)) >>= _)
    ⟨(world.cleared options).files, cache⟩ = _
  rw [run_bind]
  unfold fromResult
  cases load (world.cleared options).files (existingRoots world.files module.sources) with
  | error e => rfl
  | ok model =>
    dsimp only
    exact tail_eq

end Workspace

end PlatformOverlay
