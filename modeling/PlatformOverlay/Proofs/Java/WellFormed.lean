import PlatformOverlay.Proofs.Java.Parser.Part

/-!
# Well-formed declarations

What is known of the declarations in a file that has been read: each text that they keep is a part
of its kind, and they have no parts that could not be written where they stand.

Some of this depends on what is around a member: a compact constructor stands in a record of its
name. Only records have components, and only enums have constants. `TypeDecl.All` says something of
a type and of all types in it.
-/

open PlatformOverlay.Java.Parser

namespace PlatformOverlay.Java

/-! ## Members -/

structure Annotation.WellFormed (a : Annotation) : Prop where
  name : IsQualifiedName a.name
  arguments : ∀ s ∈ a.arguments, IsGroup .lparen .rparen s

structure Param.WellFormed (p : Param) : Prop where
  lead : ∀ s ∈ p.lead, IsLead s
  type : IsPlainType p.type
  name : IsName p.name

structure Field.WellFormed (f : Field) : Prop where
  type : IsType f.type
  name : IsName f.name
  init : ∀ s ∈ f.init, IsTextUntil endsInitializer [.punct .semi] s.text

def endsThrows (ws : List Word) : Bool :=
  isAt (.punct .lbrace) ws || isAt (.punct .semi) ws || isAt (.keyword (.modifier .default)) ws

/-- The marks behind a list of exceptions. -/
def throwsMarks : List TokenKind :=
  [.punct .lbrace, .punct .semi, .keyword (.modifier .default)]

structure Method.WellFormed (m : Method) : Prop where
  typeParams : ∀ s ∈ m.typeParams, IsGroup .lt .gt s
  result : IsType m.result
  /-- Otherwise it is read as an annotation or a record. -/
  plain : m.typeParams = none → IsPlainType m.result ∧ m.result ≠ "record"
  name : IsName m.name
  params : ∀ p ∈ m.params, p.WellFormed
  throws : ∀ s ∈ m.throws, IsTextUntil endsThrows throwsMarks s
  body : ∀ b ∈ m.body, IsGroup .lbrace .rbrace b.text
  defaultValue : ∀ s ∈ m.defaultValue, IsTextUntil (isAt (.punct .semi)) [.punct .semi] s
  abstract : m.defaultValue.isSome → m.body = none

/-- A constructor of a type of the kind and name. -/
structure Constructor.WellFormed (kind : TypeKind) (owner : String) (c : Constructor) : Prop where
  typeParams : ∀ s ∈ c.typeParams, IsGroup .lt .gt s
  name : IsName c.name
  params : ∀ p ∈ c.params, p.WellFormed
  throws : ∀ s ∈ c.throws, IsTextUntil endsThrows throwsMarks s
  body : IsGroup .lbrace .rbrace c.body.text
  compact : c.compact = true → kind = .recordType ∧ c.name = owner ∧ c.params = [] ∧ c.throws = none

def Content.WellFormed (kind : TypeKind) (name : String) : Content → Prop
  | .field f => f.WellFormed
  | .method m => m.WellFormed
  | .constructor c => c.WellFormed kind name
  | .initializer b => IsGroup .lbrace .rbrace b.text

structure Item.WellFormed (kind : TypeKind) (name : String) (i : Item) : Prop where
  doc : ∀ d ∈ i.doc, IsDoc d.text
  annotations : ∀ a ∈ i.annotations, a.WellFormed
  content : i.content.WellFormed kind name

/-! ## Types and files -/

/-- What stands before the body of a type is well-formed. -/
structure TypeDecl.HeadWellFormed (decl : TypeDecl) : Prop where
  doc : ∀ d ∈ decl.doc, IsDoc d.text
  annotations : ∀ a ∈ decl.annotations, a.WellFormed
  name : IsName decl.name
  typeParams : ∀ s ∈ decl.typeParams, IsGroup .lt .gt s
  components : ∀ p ∈ decl.components, p.WellFormed
  record : decl.components ≠ [] → decl.kind = .recordType
  extending : ∀ t ∈ decl.extending, IsType t
  implementing : ∀ t ∈ decl.implementing, IsType t
  permitting : ∀ t ∈ decl.permitting, IsType t

def endsConstants (ws : List Word) : Bool := isAt (.punct .semi) ws || isAt (.punct .rbrace) ws

/-- The type with its members, nested types aside, is well-formed. -/
structure TypeDecl.WellFormed (decl : TypeDecl) : Prop where
  head : decl.HeadWellFormed
  constants : ∀ s ∈ decl.enumConstants, IsTextUntil endsConstants [.punct .semi] s.text
  enum : decl.enumConstants ≠ none → decl.kind = .enumType
  items : ∀ i, .item i ∈ decl.members → i.WellFormed decl.kind decl.name

/-- The type and all types nested in it satisfy `p`. -/
inductive TypeDecl.All (p : TypeDecl → Prop) : TypeDecl → Prop where
  | mk {decl : TypeDecl} (here : p decl) (nested : ∀ t, .type t ∈ decl.members → All p t) :
      All p decl

/-- A member of a type of the kind and name. -/
def Member.WellFormed (kind : TypeKind) (name : String) : Member → Prop
  | .item i => i.WellFormed kind name
  | .type t => t.All TypeDecl.WellFormed

structure Import.WellFormed (i : Import) : Prop where
  path : IsQualifiedName i.path

structure CompilationUnit.WellFormed (u : CompilationUnit) : Prop where
  header : ∀ d ∈ u.header, IsDoc d.text
  headed : u.header ≠ none → u.package ≠ none ∨ u.imports ≠ []
  package : ∀ p ∈ u.package, IsQualifiedName p
  packageAnnotations : ∀ a ∈ u.packageAnnotations, a.WellFormed
  packaged : u.packageAnnotations ≠ [] → u.package ≠ none
  imports : ∀ i ∈ u.imports, i.WellFormed
  types : ∀ t ∈ u.types, t.All TypeDecl.WellFormed

end PlatformOverlay.Java
