import PlatformOverlay.Merge.EmitSet
import PlatformOverlay.Merge.Graft
import PlatformOverlay.Model.CommonClasses
import PlatformOverlay.Model.Visit

/-!
# Merge passes

A pass visits the platform classes and treats those with one of the marks.  Every class that it
treats needs a common class of the same name and is recorded in the emit set.

| pass | treats | by |
| --- | --- | --- |
| `inheritMissingMembers` | types with the mark | grafting the items they lack |
| `inherit` | types with the mark | grafting items and types, and adopting parts of the head |
| `overwriteClass` | types with the mark | taking the mark off |
| `overwrite` | types with a marked item | looking for the targets, and taking the marks off items |

The first three take their own mark off the type and leave the types in it to the visit, which goes
on to them afterwards. The last one goes down by itself, as far as nested types have a common type
of their name in the counterpart (`stripOverwrites`).

A fault ends the pass at once. The class at fault is not recorded, and it stays as it was but for
nested types that the overwriting pass had stripped before it met the fault.
-/

namespace PlatformOverlay.Merge

open Java Model

inductive MergeError where
  /-- A marked class has no common class of its name. -/
  | nothingToInherit (qualified : String)
  /-- An item marked as overwriting has no match in the common class. -/
  | noTarget (qualified kind item : String)
deriving DecidableEq, Repr

namespace MergeError

def message : MergeError → String
  | .nothingToInherit qualified => "Class " ++ qualified ++ " has nothing to inherit"
  | .noTarget qualified kind item =>
      "No overwrite target for " ++ kind ++ ": " ++ item ++ " in " ++ qualified

end MergeError

/-- The common class that a platform class overlays. -/
def counterpart (common : CommonClasses) (qualified : String) : Except MergeError ClassRef :=
  match common.find? qualified with
  | some c => .ok c
  | none => .error (.nothingToInherit qualified)

inductive Pass where
  | inheritMissingMembers
  | inherit
  | overwriteClass
  | overwrite
deriving DecidableEq, Repr

namespace Pass

/-- The order in which a merge runs its passes: what is inherited has to be there when
the targets of overwriting items are looked for. -/
def all : List Pass := [.inheritMissingMembers, .inherit, .overwriteClass, .overwrite]

end Pass

/-! ## Overwriting items -/

/-- The error for the first overwriting item without a match in the common class. -/
def overwriteError? (qualified : String) (platform common : TypeDecl) : Option MergeError :=
  (platform.items.find? fun i ↦ i.hasMark .overwrite && !common.declares platform i).map fun i ↦
    .noTarget qualified i.kindName (i.describe (Text.afterLast '.' qualified) platform)

mutual

/-- Check the overwriting items and take their marks away, also in the nested types that
have a common type of the same simple name. -/
def stripOverwrites (qualified : String) (common : TypeDecl) :
    TypeDecl → Visited Unit MergeError TypeDecl
  | ⟨doc, annotations, modifiers, kind, name, typeParams, components, extending, implementing,
      permitting, enumConstants, members⟩ =>
    let platform : TypeDecl := ⟨doc, annotations, modifiers, kind, name, typeParams, components,
      extending, implementing, permitting, enumConstants, members⟩
    match overwriteError? qualified platform common with
    | some e => ⟨platform, (), some e⟩
    | none => (stripMembers qualified common members).map fun members ↦ { platform with members }

def stripMembers (qualified : String) (common : TypeDecl) :
    List Member → Visited Unit MergeError (List Member)
  | [] => ⟨[], (), none⟩
  | m :: ms =>
    let head := stripMember qualified common m
    match head.fault with
    | some e => ⟨head.value :: ms, (), some e⟩
    | none => (stripMembers qualified common ms).map (head.value :: ·)

def stripMember (qualified : String) (common : TypeDecl) :
    Member → Visited Unit MergeError Member
  | .item i => ⟨.item (i.removeMark .overwrite), (), none⟩
  | .type t =>
    match common.nestedType? t.name with
    | some inner => (stripOverwrites (nestedName qualified t.name) inner t).map .type
    | none => ⟨.type t, (), none⟩

end

/-- Stripping without the recursion: a check of the items and a visit of the members. -/
theorem stripOverwrites_eq (qualified : String) (common platform : TypeDecl) :
    stripOverwrites qualified common platform =
      match overwriteError? qualified platform common with
      | some e => ⟨platform, (), some e⟩
      | none => (stripMembers qualified common platform.members).map
          fun members ↦ { platform with members } := by
  cases platform; rfl

/-! ## Passes -/

/-- Does the pass treat this declaration? -/
def Pass.treats (decl : TypeDecl) : Pass → Bool
  | .inheritMissingMembers => decl.hasMark .inheritMissingMembers
  | .inherit => decl.hasMark .inherit
  | .overwriteClass => decl.hasMark .overwriteClass
  | .overwrite => decl.anyItemMarked .overwrite

/-- What the pass makes of a declaration, given its common counterpart. -/
def Pass.apply (scope : Scope) (common platform : TypeDecl) :
    Pass → Visited Unit MergeError TypeDecl
  | .inheritMissingMembers =>
      ⟨(graftItems platform common).removeMark .inheritMissingMembers, (), none⟩
  | .inherit =>
      ⟨(reparent (graftTypes (graftItems platform common) common) common).removeMark .inherit,
        (), none⟩
  | .overwriteClass => ⟨platform.removeMark .overwriteClass, (), none⟩
  | .overwrite => stripOverwrites scope.qualified common platform

def Pass.visit (common : CommonClasses) (pass : Pass) : Visitor EmitSet MergeError :=
  fun scope emit decl ↦
    if pass.treats decl then
      match counterpart common scope.qualified with
      | .error e => ⟨decl, emit, some e⟩
      | .ok c =>
        let r := pass.apply scope c.decl decl
        ⟨r.value, if r.fault.isSome then emit else emit.record scope, r.fault⟩
    else ⟨decl, emit, none⟩

/-- How deep types can come to lie in one another.  A pass adds types only to a class
that has a common counterpart, so not below the length of the longest common name, and
what it adds is no deeper than the common classes are. -/
def levels (common : CommonClasses) (model : SourceModel) : Nat :=
  model.depth + common.longestName + common.depth + 1

def Pass.run (common : CommonClasses) (emit : EmitSet) (model : SourceModel) (pass : Pass) :
    Visited EmitSet MergeError SourceModel :=
  model.visit (pass.visit common) (levels common model) emit

end PlatformOverlay.Merge
