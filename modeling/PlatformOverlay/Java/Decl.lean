import PlatformOverlay.Text.Lines
import PlatformOverlay.Java.Modifier

/-!
# Declarations

The part of a Java source file that an overlay is concerned with: package, imports,
type declarations and their members.  What lies below the members (bodies, initial
values, enum constants) is kept as source text.
-/

namespace PlatformOverlay.Java

/-- Source text as written, with the column at which the declaration that owns it
started. -/
structure Snippet where
  text : String
  column : Nat
deriving DecidableEq, Repr, Inhabited

structure Import where
  isStatic : Bool
  /-- The dotted path, without the `.*` of a wildcard. -/
  path : String
  wildcard : Bool
deriving DecidableEq, Repr, Inhabited

structure Annotation where
  /-- The name as written, possibly qualified. -/
  name : String
  /-- The argument list as written, with its parentheses. -/
  arguments : Option String
deriving DecidableEq, Repr, Inhabited

/-- The last segment of the name. -/
def Annotation.simpleName (a : Annotation) : String := Text.afterLast '.' a.name

inductive TypeKind where
  | classType
  | interfaceType
  | enumType
  | recordType
  | annotationType
deriving DecidableEq, Repr, Inhabited

namespace TypeKind

def keyword : TypeKind → String
  | .classType => "class"
  | .interfaceType => "interface"
  | .enumType => "enum"
  | .recordType => "record"
  | .annotationType => "@interface"

/-- The members of these kinds of types are public unless they say otherwise. -/
def isInterfaceLike : TypeKind → Bool
  | .interfaceType | .annotationType => true
  | .classType | .enumType | .recordType => false

end TypeKind

structure Param where
  /-- Annotations and modifiers in front of the type, as written. -/
  lead : Option String
  type : String
  varargs : Bool
  name : String
deriving DecidableEq, Repr, Inhabited

structure Field where
  type : String
  name : String
  init : Option Snippet
deriving DecidableEq, Repr, Inhabited

structure Method where
  typeParams : Option String
  result : String
  name : String
  params : List Param
  throws : Option String
  /-- Absent for abstract, interface and native methods. -/
  body : Option Snippet
  /-- The default value of an annotation element. -/
  defaultValue : Option String
deriving DecidableEq, Repr, Inhabited

structure Constructor where
  typeParams : Option String
  name : String
  params : List Param
  /-- A compact constructor of a record is written without a parameter list. -/
  compact : Bool
  throws : Option String
  body : Snippet
deriving DecidableEq, Repr, Inhabited

/-- What a member other than a nested type declares. -/
inductive Content where
  | field (field : Field)
  | method (method : Method)
  | constructor (ctor : Constructor)
  | initializer (body : Snippet)
deriving DecidableEq, Repr

/-- A field, method, constructor or initializer block with what is written in front
of it. -/
structure Item where
  doc : Option Snippet
  annotations : List Annotation
  modifiers : Modifiers
  content : Content
deriving DecidableEq, Repr

namespace Item

def isField (item : Item) : Bool := item.content matches .field _

def isInitializer (item : Item) : Bool := item.content matches .initializer _

/-- The simple name; a constructor has that of its type, an initializer none. -/
def name? (item : Item) : Option String :=
  match item.content with
  | .field f => some f.name
  | .method m => some m.name
  | .constructor c => some c.name
  | .initializer _ => none

def params? (item : Item) : Option (List Param) :=
  match item.content with
  | .method m => some m.params
  | .constructor c => some c.params
  | .field _ | .initializer _ => none

end Item

mutual

/-- A member of a type: an item of its own or a nested type. -/
inductive Member where
  | item (item : Item)
  | type (decl : TypeDecl)

structure TypeDecl where
  doc : Option Snippet
  annotations : List Annotation
  modifiers : Modifiers
  kind : TypeKind
  name : String
  /-- The type parameter list as written, with its angle brackets. -/
  typeParams : Option String
  /-- The components of a record. -/
  components : List Param
  extending : List String
  implementing : List String
  permitting : List String
  /-- The enum constants as written, without the semicolon that ends them. -/
  enumConstants : Option Snippet
  members : List Member

end

/-- One source file.  The header is the comment in front of the package declaration
or, without one, of the first import. -/
structure CompilationUnit where
  header : Option Snippet
  package : Option String
  packageAnnotations : List Annotation
  imports : List Import
  types : List TypeDecl

namespace Member

def item? : Member → Option Item
  | .item i => some i
  | .type _ => none

def type? : Member → Option TypeDecl
  | .item _ => none
  | .type t => some t

@[simp] theorem item?_item (i : Item) : (Member.item i).item? = some i := rfl
@[simp] theorem item?_type (t : TypeDecl) : (Member.type t).item? = none := rfl
@[simp] theorem type?_item (i : Item) : (Member.item i).type? = none := rfl
@[simp] theorem type?_type (t : TypeDecl) : (Member.type t).type? = some t := rfl

def name? : Member → Option String
  | .item i => i.name?
  | .type t => some t.name

end Member

namespace TypeDecl

/-- A declaration with nothing but its kind and name. -/
def bare (kind : TypeKind) (name : String) : TypeDecl where
  doc := none
  annotations := []
  modifiers := .empty
  kind := kind
  name := name
  typeParams := none
  components := []
  extending := []
  implementing := []
  permitting := []
  enumConstants := none
  members := []

instance : Inhabited TypeDecl := ⟨bare .classType ""⟩

/-- The fields, methods, constructors and initializers, in declaration order. -/
def items (decl : TypeDecl) : List Item := decl.members.filterMap Member.item?

def nestedTypes (decl : TypeDecl) : List TypeDecl := decl.members.filterMap Member.type?

def nestedType? (decl : TypeDecl) (name : String) : Option TypeDecl :=
  decl.nestedTypes.find? (·.name = name)

mutual

/-- How many types lie inside one another at most, this one included. -/
def depth : TypeDecl → Nat
  | ⟨_, _, _, _, _, _, _, _, _, _, _, members⟩ => membersDepth members + 1

def membersDepth : List Member → Nat
  | [] => 0
  | m :: ms => max (memberDepth m) (membersDepth ms)

def memberDepth : Member → Nat
  | .item _ => 0
  | .type t => depth t

end

/-- A declaration is one deeper than its members. -/
theorem depth_eq (decl : TypeDecl) : decl.depth = membersDepth decl.members + 1 := by
  cases decl; rfl

end TypeDecl

namespace CompilationUnit

def empty : CompilationUnit := ⟨none, none, [], [], []⟩

instance : Inhabited CompilationUnit := ⟨empty⟩

end CompilationUnit

end PlatformOverlay.Java
