import PlatformOverlay.Check.Report
import PlatformOverlay.Java.Signature
import PlatformOverlay.Model.CommonClasses

/-!
# Validation

A platform class is compared with the common class of its name.  Every check looks at every class: a
class may come up under several kinds.

There are four checks of classes, all of them about members that are in both classes or in one:

* a public member of the common class that the platform class does not declare is missing, unless it
  is a constant;
* a public constant that the platform class declares again is hidden by it and cannot be reached;
* a member of both must not be less accessible in the platform class;
* it must be static in both or in neither.

Then every common class that is marked as a target needs a platform class of its name, whether or
not that has any marks. Classes of the platform without a common class are not checked.
-/

namespace PlatformOverlay.Check

open Java Model

/-- The public members of the common class that the platform class does not declare. -/
def missingMembers (platform common : ClassRef) : List String :=
  (common.decl.publicItems.filter fun i ↦ !platform.decl.declares common.decl i).map
    (·.describe common.relative common.decl)

/-- The public constants of the common class that the platform class hides. -/
def unreachableMembers (platform common : ClassRef) : List String :=
  (common.decl.publicConstants.filter (platform.decl.declares common.decl)).map
    (·.describe common.relative common.decl)

/-- An item of the common class with the platform item of the same signature. -/
structure Override where
  parent : Item
  child : Item

def overrides (platform common : TypeDecl) : List Override :=
  common.structuralItems.filterMap fun parent ↦
    (platform.counterpart? common parent).map (⟨parent, ·⟩)

def Override.restricts (platform common : TypeDecl) (o : Override) : Bool :=
  o.child.access platform < o.parent.access common

def Override.changesKind (platform common : TypeDecl) (o : Override) : Bool :=
  o.child.isStatic platform != o.parent.isStatic common

/-- The overriding members of the platform class that `bad` holds of. -/
def badOverrides (bad : TypeDecl → TypeDecl → Override → Bool) (platform common : ClassRef) :
    List String :=
  ((overrides platform.decl common.decl).filter (bad platform.decl common.decl)).map
    fun o ↦ o.child.describe platform.relative platform.decl

def checkClass (common : CommonClasses) (report : Report) (c : ClassRef) : Report :=
  match common.find? c.qualified with
  | none => report
  | some parent =>
      ((((report.addAll .missingMembers c.qualified (missingMembers c parent)).addAll
        .unreachableMembers c.qualified (unreachableMembers c parent)).addAll
        .moreRestrictiveAccess c.qualified (badOverrides Override.restricts c parent)).addAll
        .accessKindMismatch c.qualified (badOverrides Override.changesKind c parent))

/-- Every target needs a platform class of its name. -/
def checkTargets (common : CommonClasses) (declared : List String) (report : Report) : Report :=
  common.targets.foldl (fun report target ↦
    if declared.contains target.qualified then report
    else report.add .missingOverwrites target.qualified target.relative) report

def validate (common : CommonClasses) (model : SourceModel) : Report :=
  let classes := model.classes
  checkTargets common (classes.map ClassRef.qualified)
    (classes.foldl (checkClass common) .empty)

end PlatformOverlay.Check
