import PlatformOverlay.Java.Source
import PlatformOverlay.Model.Name

/-!
# Source models

The parsed sources of a module, in the order in which they were loaded.  `classes`
lists every type with its names and an identifier, outer types before the types in
them; `class?` finds a listed type by its identifier.
-/

namespace PlatformOverlay.Model

open Java

/-- A parsed file.  Its text is kept because imports are read from it. -/
structure SourceFile where
  path : Path
  text : String
  unit : CompilationUnit

instance : Inhabited SourceFile := ⟨⟨⟨""⟩, "", .empty⟩⟩

/-- Where a type lies: its file, counted in the model, and its names. -/
structure Scope where
  file : Nat
  qualified : String
  /-- The qualified name of the outermost type around it. -/
  topLevel : String
deriving DecidableEq, Repr

namespace Scope

def top (file : Nat) (package : Option String) (name : String) : Scope :=
  ⟨file, qualify package name, qualify package name⟩

def nested (scope : Scope) (name : String) : Scope :=
  { scope with qualified := nestedName scope.qualified name }

@[simp] theorem file_nested (scope : Scope) (name : String) :
    (scope.nested name).file = scope.file := rfl
@[simp] theorem topLevel_nested (scope : Scope) (name : String) :
    (scope.nested name).topLevel = scope.topLevel := rfl

end Scope

/-- The way to a type: its file, the top-level type in it, and then the index of a
member at each level. -/
structure ClassId where
  file : Nat
  top : Nat
  members : List Nat
deriving DecidableEq, Repr

namespace ClassId

def nested (id : ClassId) (index : Nat) : ClassId :=
  { id with members := id.members ++ [index] }

end ClassId

/-- A type of a model with its identifier, its names and its file. -/
structure ClassRef where
  id : ClassId
  scope : Scope
  decl : TypeDecl
  file : SourceFile

namespace ClassRef

def qualified (c : ClassRef) : String := c.scope.qualified

def package (c : ClassRef) : Option String := c.file.unit.package

def relative (c : ClassRef) : String := relativeName c.qualified c.package

end ClassRef

mutual

/-- A type and all types in it. -/
def classesOf (file : SourceFile) (id : ClassId) (scope : Scope) : TypeDecl → List ClassRef
  | ⟨doc, annotations, modifiers, kind, name, typeParams, components, extending, implementing,
      permitting, enumConstants, members⟩ =>
    ⟨id, scope, ⟨doc, annotations, modifiers, kind, name, typeParams, components, extending,
      implementing, permitting, enumConstants, members⟩, file⟩ ::
      classesOfMembers file id scope 0 members

/-- The types among members, the first of which has the given index. -/
def classesOfMembers (file : SourceFile) (id : ClassId) (scope : Scope) (index : Nat) :
    List Member → List ClassRef
  | [] => []
  | m :: ms =>
      classesOfMember file id scope index m ++ classesOfMembers file id scope (index + 1) ms

def classesOfMember (file : SourceFile) (id : ClassId) (scope : Scope) (index : Nat) :
    Member → List ClassRef
  | .item _ => []
  | .type t => classesOf file (id.nested index) (scope.nested t.name) t

end

/-- The classes of a type are the type itself and those of its members. -/
theorem classesOf_eq (file : SourceFile) (id : ClassId) (scope : Scope) (decl : TypeDecl) :
    classesOf file id scope decl =
      ⟨id, scope, decl, file⟩ :: classesOfMembers file id scope 0 decl.members := by
  cases decl; rfl

namespace SourceFile

def package (file : SourceFile) : Option String := file.unit.package

def scope (file : SourceFile) (index : Nat) (decl : TypeDecl) : Scope :=
  .top index file.package decl.name

/-- The types of a file that has the given index in its model. -/
def classes (file : SourceFile) (index : Nat) : List ClassRef :=
  (file.unit.types.zipIdx).flatMap fun (decl, top) ↦
    classesOf file ⟨index, top, []⟩ (file.scope index decl) decl

/-- The qualified names of the top-level types. -/
def topLevelNames (file : SourceFile) : List String :=
  file.unit.types.map fun t ↦ qualify file.package t.name

end SourceFile

structure SourceModel where
  files : List SourceFile

namespace SourceModel

/-- Read every file; all syntax errors are reported together. -/
def parse (sources : List (Path × String)) : Except (List SyntaxError) SourceModel :=
  let read := sources.map fun (path, text) ↦
    (Java.parse path text).map (SourceFile.mk path text)
  let errors := read.filterMap fun
    | .error e => some e
    | .ok _ => none
  if errors.isEmpty then .ok ⟨read.filterMap Except.toOption⟩ else .error errors

/-- Every type of the model. -/
def classes (model : SourceModel) : List ClassRef :=
  model.files.zipIdx.flatMap fun (file, index) ↦ file.classes index

/-- Follow the member indices of an identifier from a type on. -/
def descend (file : SourceFile) (id : ClassId) (scope : Scope) (decl : TypeDecl) :
    List Nat → Option ClassRef
  | [] => some ⟨id, scope, decl, file⟩
  | index :: rest =>
    match decl.members[index]?.bind Member.type? with
    | some inner => descend file id (scope.nested inner.name) inner rest
    | none => none

/-- The type that an identifier leads to. -/
def class? (model : SourceModel) (id : ClassId) : Option ClassRef := do
  let file ← model.files[id.file]?
  let decl ← file.unit.types[id.top]?
  descend file id (file.scope id.file decl) decl id.members

def depth (model : SourceModel) : Nat :=
  model.files.foldl (fun d file ↦ file.unit.types.foldl (fun d t ↦ max d t.depth) d) 0

end SourceModel

end PlatformOverlay.Model
