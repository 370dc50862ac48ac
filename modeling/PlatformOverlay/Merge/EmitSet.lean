import PlatformOverlay.Model.Source

/-!
# The set of treated classes

Which classes a merge has treated, in the order in which they were first treated,
and the top-level classes around them.  A file that declares one of the latter is
printed anew; all others are copied.
-/

namespace PlatformOverlay.Merge

open Model

/-- Add at the end what is not there yet. -/
def insertNew (names : List String) (name : String) : List String :=
  if names.contains name then names else names ++ [name]

@[simp] theorem mem_insertNew {names : List String} {name x : String} :
    x ∈ insertNew names name ↔ x ∈ names ∨ x = name := by
  unfold insertNew
  split <;> simp_all

structure EmitSet where
  classes : List String
  topLevel : List String
deriving DecidableEq, Repr

namespace EmitSet

def empty : EmitSet := ⟨[], []⟩

def record (emit : EmitSet) (scope : Scope) : EmitSet :=
  ⟨insertNew emit.classes scope.qualified, insertNew emit.topLevel scope.topLevel⟩

def contains (emit : EmitSet) (qualified : String) : Bool := emit.classes.contains qualified

/-- Was the class or a class in it treated? -/
def containsTopLevel (emit : EmitSet) (qualified : String) : Bool :=
  emit.topLevel.contains qualified

/-- Does the file declare a treated class? -/
def touches (emit : EmitSet) (file : SourceFile) : Bool :=
  file.topLevelNames.any emit.containsTopLevel

def size (emit : EmitSet) : Nat := emit.classes.length

def isEmpty (emit : EmitSet) : Bool := emit.classes.isEmpty

end EmitSet

end PlatformOverlay.Merge
