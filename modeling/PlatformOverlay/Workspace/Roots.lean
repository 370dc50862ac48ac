import PlatformOverlay.Path

/-!
# Source roots

The directories in which the sources of a module lie, without repetition.  A file is
reproduced in the output at its path relative to the first root that it lies under.
-/

namespace PlatformOverlay.Workspace

structure SourceRoots where
  paths : List Path
deriving DecidableEq, Repr

namespace SourceRoots

/-- Add a root unless one with the same components is there. -/
def add (roots : SourceRoots) (p : Path) : SourceRoots :=
  if roots.paths.any (·.same p) then roots else ⟨roots.paths ++ [p]⟩

def ofList (paths : List Path) : SourceRoots := paths.foldl add ⟨[]⟩

def isEmpty (roots : SourceRoots) : Bool := roots.paths.isEmpty

def relative? (roots : SourceRoots) (file : Path) : Option Path :=
  roots.paths.findSome? file.relativeTo?

end SourceRoots

end PlatformOverlay.Workspace
