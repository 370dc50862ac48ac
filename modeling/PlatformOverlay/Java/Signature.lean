import PlatformOverlay.Java.Erasure

/-!
# Signatures, access and description of members

Members of different sources are paired by their signatures.  What a member is, its access level and
whether it is static or final, depends on the type that declares it.

The signature of a method is its name with the erased types of its parameters, that of a constructor
the erased types alone, and that of a field its name. A compact constructor takes those of the
components of its record. Initializers have none.
-/

namespace PlatformOverlay.Java

inductive Signature where
  | field (name : String)
  | method (name : String) (params : List String)
  | constructor (params : List String)
deriving DecidableEq, Repr

namespace Item

/-- A compact constructor has the components of its record as parameters. -/
def signature? (owner : TypeDecl) (item : Item) : Option Signature :=
  match item.content with
  | .field f => some (.field f.name)
  | .method m => some (.method m.name (eraseParams m.typeParams m.params))
  | .constructor c =>
      if c.compact then some (.constructor (eraseParams none owner.components))
      else some (.constructor (eraseParams c.typeParams c.params))
  | .initializer _ => none

/-- Initializers have no signature, and nothing else has none. -/
theorem signature?_eq_none {item : Item} {owner : TypeDecl} :
    item.signature? owner = none ↔ item.isInitializer = true := by
  obtain ⟨_, _, _, content⟩ := item
  cases content with
  | constructor c => cases h : c.compact <;> simp [signature?, isInitializer, h]
  | field _ => simp [signature?, isInitializer]
  | method _ => simp [signature?, isInitializer]
  | initializer _ => simp [signature?, isInitializer]

/-- Fields, methods and constructors have a signature. -/
theorem isSome_signature? {item : Item} {owner : TypeDecl} :
    (item.signature? owner).isSome = true ↔ item.isInitializer = false := by
  rw [Option.isSome_iff_ne_none, Ne, signature?_eq_none, Bool.not_eq_true]

/-- The access level, with what the kind of the owner implies. -/
def access (owner : TypeDecl) (item : Item) : Access :=
  match item.modifiers.declaredAccess with
  | some access => access
  | none =>
    match item.content with
    | .initializer _ => .ofPackage
    | .constructor _ =>
        if owner.kind.isInterfaceLike then .pub
        else if owner.kind = .enumType then .priv
        else .ofPackage
    | .field _ | .method _ => if owner.kind.isInterfaceLike then .pub else .ofPackage

/-- The fields of interfaces are static. -/
def isStatic (owner : TypeDecl) (item : Item) : Bool :=
  item.modifiers.isStatic || (item.isField && owner.kind.isInterfaceLike)

/-- The fields of interfaces are final. -/
def isFinal (owner : TypeDecl) (item : Item) : Bool :=
  item.modifiers.isFinal || (item.isField && owner.kind.isInterfaceLike)

/-- A constant is a field that is public, static and final. -/
def isPublicConstant (owner : TypeDecl) (item : Item) : Bool :=
  item.isField && item.access owner = .pub && item.isStatic owner && item.isFinal owner

def isStructural (owner : TypeDecl) (item : Item) : Bool := (item.signature? owner).isSome

/-- The word for the item in messages. -/
def kindName (item : Item) : String :=
  match item.content with
  | .field _ => "field"
  | .method _ => "method"
  | .constructor _ => "constructor"
  | .initializer _ => "initializer"

end Item

def describeParams (ps : List Param) : String :=
  String.intercalate ", " (ps.map fun p ↦ if p.varargs then p.type ++ "..." else p.type)

/-- How reports show an item of `owner`, whose name in its package is `relative`. -/
def Item.describe (relative : String) (owner : TypeDecl) (item : Item) : String :=
  match item.content with
  | .field f => f.name
  | .method m => m.name ++ "(" ++ describeParams m.params ++ ")"
  | .constructor c =>
      relative ++ "(" ++ describeParams (if c.compact then owner.components else c.params) ++ ")"
  | .initializer _ => "<init>"

namespace Member

def signature? (owner : TypeDecl) : Member → Option Signature
  | .item i => i.signature? owner
  | .type _ => none

/-- A nested type counts by the kind of its owner alone. -/
def access (owner : TypeDecl) : Member → Access
  | .item i => i.access owner
  | .type _ => if owner.kind.isInterfaceLike then .pub else .ofPackage

/-- A nested type is static unless it is an inner class. -/
def isStatic (owner : TypeDecl) : Member → Bool
  | .item i => i.isStatic owner
  | .type t => owner.kind.isInterfaceLike || t.kind != .classType

def isFinal (owner : TypeDecl) : Member → Bool
  | .item i => i.isFinal owner
  | .type _ => false

def isPublicConstant (owner : TypeDecl) : Member → Bool
  | .item i => i.isPublicConstant owner
  | .type _ => false

def describe (relative : String) (owner : TypeDecl) : Member → String
  | .item i => i.describe relative owner
  | .type t => relative ++ "$" ++ t.name

end Member

namespace TypeDecl

/-- The fields, methods and constructors. -/
def structuralItems (decl : TypeDecl) : List Item := decl.items.filter (·.isStructural decl)

/-- The public fields, methods and constructors that are not constants. -/
def publicItems (decl : TypeDecl) : List Item :=
  decl.items.filter fun i ↦
    i.isStructural decl && i.access decl = .pub && !i.isPublicConstant decl

def publicConstants (decl : TypeDecl) : List Item :=
  decl.items.filter (·.isPublicConstant decl)

/-- The first item with the given signature. -/
def itemWith? (decl : TypeDecl) (signature : Signature) : Option Item :=
  decl.items.find? fun i ↦ i.signature? decl = some signature

/-- The item of `decl` that has the signature of an item of `owner`. -/
def counterpart? (decl owner : TypeDecl) (item : Item) : Option Item :=
  (item.signature? owner).bind decl.itemWith?

def declares (decl owner : TypeDecl) (item : Item) : Bool :=
  (decl.counterpart? owner item).isSome

end TypeDecl

end PlatformOverlay.Java
