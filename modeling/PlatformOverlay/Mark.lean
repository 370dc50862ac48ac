import PlatformOverlay.Java.Decl

/-!
# Marks

The annotations that control how platform code overlays common code.  A mark is known
by the simple name of the annotation, so qualified uses count as well.
-/

namespace PlatformOverlay

open Java

inductive Mark where
  /-- The member replaces the common member with the same signature. -/
  | overwrite
  /-- The class replaces the common class as it stands. -/
  | overwriteClass
  /-- The class takes in the common class, everything it lacks included. -/
  | inherit
  /-- The class takes in missing members but not the supertypes. -/
  | inheritMissingMembers
  /-- A common class that every platform must overwrite. -/
  | overwriteTarget
deriving DecidableEq, Repr

namespace Mark

/-- The marks that platform code carries; none may survive into generated sources. -/
def platform : List Mark := [.overwrite, .overwriteClass, .inherit, .inheritMissingMembers]

/-- The platform marks that a class carries. -/
def ofClass : List Mark := [.inheritMissingMembers, .inherit, .overwriteClass]

def simpleName : Mark → String
  | .overwrite => "Overwrite"
  | .overwriteClass => "OverwriteClass"
  | .inherit => "Inherit"
  | .inheritMissingMembers => "InheritMissingMembers"
  | .overwriteTarget => "OverwriteTarget"

def isOn (mark : Mark) (a : Annotation) : Bool := a.simpleName = mark.simpleName

theorem simpleName_injective {a b : Mark} (h : a.simpleName = b.simpleName) : a = b := by
  cases a <;> cases b <;> first | rfl | exact absurd h (by decide)

def find? (mark : Mark) (annotations : List Annotation) : Option Annotation :=
  annotations.find? mark.isOn

def isAmong (mark : Mark) (annotations : List Annotation) : Bool := annotations.any mark.isOn

/-- Take away every use of the mark. -/
def removeFrom (mark : Mark) (annotations : List Annotation) : List Annotation :=
  annotations.filter fun a ↦ !mark.isOn a

@[simp] theorem isAmong_removeFrom (mark : Mark) (annotations : List Annotation) :
    mark.isAmong (mark.removeFrom annotations) = false := by
  simp [isAmong, removeFrom]

theorem isAmong_removeFrom_of_ne {a b : Mark} (h : a ≠ b) (annotations : List Annotation) :
    a.isAmong (b.removeFrom annotations) = a.isAmong annotations := by
  induction annotations with
  | nil => rfl
  | cons x xs ih =>
    by_cases hb : b.isOn x
    · have ha : a.isOn x = false := by
        simp only [isOn, decide_eq_true_eq, decide_eq_false_iff_not] at hb ⊢
        exact fun ha ↦ h (simpleName_injective (ha.symm.trans hb))
      simpa [isAmong, removeFrom, hb, ha] using ih
    · simpa [isAmong, removeFrom, hb] using congrArg (a.isOn x || ·) ih

end Mark

namespace Java

namespace Item

def hasMark (item : Item) (mark : Mark) : Bool := mark.isAmong item.annotations

def removeMark (item : Item) (mark : Mark) : Item :=
  { item with annotations := mark.removeFrom item.annotations }

end Item

namespace TypeDecl

def hasMark (decl : TypeDecl) (mark : Mark) : Bool := mark.isAmong decl.annotations

def removeMark (decl : TypeDecl) (mark : Mark) : TypeDecl :=
  { decl with annotations := mark.removeFrom decl.annotations }

/-- Does a member of its own, nested types aside, carry the mark? -/
def anyItemMarked (decl : TypeDecl) (mark : Mark) : Bool := decl.items.any (·.hasMark mark)

/-- Does the declaration ask to overlay a common class? -/
def isMarked (decl : TypeDecl) : Bool :=
  Mark.ofClass.any decl.hasMark || decl.anyItemMarked .overwrite

end TypeDecl

namespace Member

/-- The annotations of a nested type are those of its declaration. -/
def annotations : Member → List Annotation
  | .item i => i.annotations
  | .type t => t.annotations

def removeMark (mark : Mark) : Member → Member
  | .item i => .item (i.removeMark mark)
  | .type t => .type (t.removeMark mark)

end Member

end Java

end PlatformOverlay
