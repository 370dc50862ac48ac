import PlatformOverlay.Workspace.Run

/-!
# Project settings

A project names the common module, the modules that are laid over it, and the
directories for generated sources.
-/

namespace PlatformOverlay.Config

open Workspace

structure ModuleSettings where
  name : String
  sources : List Path
  /-- The output directory, if it is not the one that the name gives. -/
  output : Option Path
deriving DecidableEq, Repr

structure ProjectSettings where
  generateCode : Bool
  /-- Where the output directories lie that are named after their modules. -/
  outputRoot : Path
  common : ModuleSettings
  modules : List ModuleSettings
deriving DecidableEq, Repr

namespace ModuleSettings

def module (m : ModuleSettings) : Module := ⟨m.name, m.sources⟩

/-- The paths seen from a directory. -/
def relativeTo (base : Path) (m : ModuleSettings) : ModuleSettings :=
  { m with sources := m.sources.map base.join, output := m.output.map base.join }

end ModuleSettings

namespace ProjectSettings

/-- The paths seen from a directory. -/
def relativeTo (base : Path) (p : ProjectSettings) : ProjectSettings :=
  { p with
    outputRoot := base.join p.outputRoot
    common := p.common.relativeTo base
    modules := p.modules.map (·.relativeTo base) }

/-- All modules in the order in which they run. -/
def allModules (p : ProjectSettings) : List ModuleSettings := p.common :: p.modules

def find? (p : ProjectSettings) (name : String) : Option ModuleSettings :=
  p.allModules.find? (·.name = name)

def options (p : ProjectSettings) (m : ModuleSettings) : Options where
  common := p.common.module
  outputDirectory := m.output.getD (p.outputRoot.join ⟨m.name⟩)
  generateCode := p.generateCode

/-- Every directory that a run of the modules may read or change. -/
def directories (p : ProjectSettings) : List Path :=
  p.allModules.flatMap fun m ↦ m.sources ++ [(p.options m).outputDirectory]

/-- Run one module. -/
def runModule (p : ProjectSettings) (m : ModuleSettings) : Action Outcome :=
  Workspace.run m.module (p.options m)

end ProjectSettings

end PlatformOverlay.Config
