import PlatformOverlay.Mark
import PlatformOverlay.Model.Source

/-!
# The classes of the common module

Common classes are found by their qualified names.  Where a name is declared more than
once, the last declaration counts, at the place of the first.
-/

namespace PlatformOverlay.Model

open Java

/-- Replace the class of the same name where it stands, or add the class at the end. -/
def putClass (classes : List ClassRef) (c : ClassRef) : List ClassRef :=
  if classes.any (·.qualified = c.qualified) then
    classes.map fun d ↦ if d.qualified = c.qualified then c else d
  else classes ++ [c]

structure CommonClasses where
  /-- One class for each qualified name. -/
  all : List ClassRef
  /-- The names of the declarations marked as targets, one for each declaration. -/
  targetNames : List String

namespace CommonClasses

def empty : CommonClasses := ⟨[], []⟩

def ofModel (model : SourceModel) : CommonClasses where
  all := model.classes.foldl putClass []
  targetNames :=
    (model.classes.filter (·.decl.hasMark .overwriteTarget)).map ClassRef.qualified

def find? (common : CommonClasses) (qualified : String) : Option ClassRef :=
  common.all.find? (·.qualified = qualified)

/-- The classes that every platform must overwrite. -/
def targets (common : CommonClasses) : List ClassRef := common.targetNames.filterMap common.find?

def size (common : CommonClasses) : Nat := common.all.length

def isEmpty (common : CommonClasses) : Bool := common.all.isEmpty

def depth (common : CommonClasses) : Nat := common.all.foldl (fun d c ↦ max d c.decl.depth) 0

/-- The length of the longest qualified name. -/
def longestName (common : CommonClasses) : Nat :=
  common.all.foldl (fun n c ↦ max n c.qualified.length) 0

end CommonClasses

end PlatformOverlay.Model
