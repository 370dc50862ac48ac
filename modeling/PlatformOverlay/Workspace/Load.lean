import PlatformOverlay.Files.Store
import PlatformOverlay.Model.Source
import PlatformOverlay.Workspace.Roots

/-!
# Loading sources

The sources of a module are the Java files below its roots, root by root and in the order of their
names.  A file that cannot be read ends the loading at once; syntax errors are collected over all
files.

Roots that do not exist are left out before. A path is kept as it was found, that is as the path of
its root with the names on the way joined to it.
-/

namespace PlatformOverlay.Workspace

open Files Model

/-- The roots among the given paths: those that are existing directories. -/
def existingRoots (store : FileStore) (paths : List Path) : SourceRoots :=
  .ofList (paths.filter store.isDir)

def isJavaFile (p : Path) : Bool := p.extension? = some "java"

/-- The Java files below the roots. -/
def javaFiles (store : FileStore) (roots : SourceRoots) : Except Failure (List Path) := do
  let found ← roots.paths.mapM fun root ↦
    match store.files root with
    | .ok files => Except.ok (files.filter isJavaFile)
    | .error cause => .error (.io "Reading directory" root cause)
  return found.flatten

def readSource (store : FileStore) (p : Path) : Except Failure (Path × String) :=
  match store.readText p with
  | .ok text => .ok (p, text)
  | .error cause => .error (.io "Reading source" p cause)

def load (store : FileStore) (roots : SourceRoots) : Except Failure SourceModel := do
  let sources ← (← javaFiles store roots).mapM (readSource store)
  (SourceModel.parse sources).mapError .load

end PlatformOverlay.Workspace
