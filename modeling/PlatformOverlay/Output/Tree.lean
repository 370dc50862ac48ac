import PlatformOverlay.Files.Store
import PlatformOverlay.Imports.Repair
import PlatformOverlay.Java.Printer
import PlatformOverlay.Merge.EmitSet
import PlatformOverlay.Model.CommonClasses
import PlatformOverlay.Workspace.Roots

/-!
# The output tree

Every file of a platform model ends up in the output directory at its path relative to its source
root.  Files with treated classes are printed from the model and get their imports repaired; all
others are copied.

This is done in two rounds over the files. In the first one the touched files are printed; in the
second one each file is finished:

* a file that has been printed, and of which some type has a common counterpart, has its imports
  repaired in place;
* any other is copied from its source, to the place where a printed file may stand by then.

Each file operation is reported under a name and with a path if it fails, and what has been written
before stays.
-/

namespace PlatformOverlay.Output

open Files Model Merge Workspace

abbrev Action := ExceptT Failure (StateM FileStore)

/-- A file operation whose failure is reported with its name and a path. -/
def tagged (operation : String) (path : Path) (m : FileM α) : Action α := fun store ↦
  match m store with
  | (.ok a, store) => (.ok a, store)
  | (.error cause, store) => (.error (.io operation path cause), store)

def createParent (p : Path) : Action Unit :=
  match p.parent? with
  | some parent => tagged "Creating folder" parent (createDirs parent)
  | none => return

def copy (source target : Path) : Action Unit := do
  createParent target
  tagged "Copying file" source (copyFile source target)

/-- Where a source file goes. -/
def destination (roots : SourceRoots) (output : Path) (file : SourceFile) : Action Path :=
  match roots.relative? file.path with
  | some p => return output.join p
  | none => throw (.noMatchingRoot file.path)

def writeOne (roots : SourceRoots) (output : Path) (file : SourceFile) : Action Path := do
  let target ← destination roots output file
  createParent target
  tagged "Writing source" target (writeFile target file.unit.print.toUTF8)
  return target

/-- Print the files that declare a treated class. -/
def writeEmitted (roots : SourceRoots) (model : SourceModel) (emit : EmitSet) (output : Path) :
    Action (List Path) :=
  (model.files.filter emit.touches).mapM (writeOne roots output)

/-- The text of the common file that the first type with a counterpart corresponds to. -/
def counterpartText? (common : CommonClasses) (file : SourceFile) : Option String :=
  (file.topLevelNames.findSome? common.find?).map fun c ↦ c.file.text

def repairFile (path : Path) (common : String) (package : Option String) : Action Unit := do
  let text ← tagged "Fixing imports" path (ask (·.readText path))
  match Imports.repair text common package with
  | some repaired => tagged "Fixing imports" path (writeFile path repaired.toUTF8)
  | none => throw (.malformedSource path)

/-- How many files were repaired and how many were copied. -/
structure Summary where
  repaired : Nat
  copied : Nat
deriving DecidableEq, Repr

/-- Repair a printed file, copy any other. -/
def finishOne (roots : SourceRoots) (common : CommonClasses) (emit : EmitSet) (output : Path)
    (summary : Summary) (file : SourceFile) : Action Summary := do
  let target ← destination roots output file
  let printed := emit.touches file && (← get).isFile target
  match counterpartText? common file, printed with
  | some text, true =>
      repairFile target text file.package
      return { summary with repaired := summary.repaired + 1 }
  | _, _ =>
      copy file.path target
      return { summary with copied := summary.copied + 1 }

/-- Complete the output: repair what was printed and copy the rest. -/
def finish (roots : SourceRoots) (model : SourceModel) (common : CommonClasses) (emit : EmitSet)
    (output : Path) : Action Summary :=
  model.files.foldlM (finishOne roots common emit output) ⟨0, 0⟩

end PlatformOverlay.Output
