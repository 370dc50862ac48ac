import PlatformOverlay.Java.Signature

/-!
# Grafting

What a platform class takes over from its common counterpart: the items that it has no match for,
and, where the classes are to be one, nested types and supertypes.

Fields go behind the last field of the platform class and everything else to the end, both in the
order in which they stand in the common class. An item comes with its comment, annotations and
modifiers; only a constructor changes, which gets the name of its new class.

Initializer blocks have no signature by which they could be matched. A class that has one of a
staticness takes in no others of it, and a class that has none takes in all of them.
-/

namespace PlatformOverlay.Merge

open Java

/-- A constructor moves to a class of another name with the name changed. -/
def renameConstructor (name : String) (item : Item) : Item :=
  match item.content with
  | .constructor c => { item with content := .constructor { c with name } }
  | .field _ | .method _ | .initializer _ => item

/-- Does the class have an initializer block that is static, or one that is not? -/
def hasInitializer (decl : TypeDecl) (isStatic : Bool) : Bool :=
  decl.items.any fun i ↦ i.isInitializer && i.modifiers.isStatic = isStatic

/-- Does the platform class lack an item of the common class?  Initializer blocks have
no signature: those of one staticness are lacking together. -/
def lacks (platform common : TypeDecl) (item : Item) : Bool :=
  if item.isInitializer then !hasInitializer platform item.modifiers.isStatic
  else !platform.declares common item

def missingItems (platform common : TypeDecl) : List Item :=
  common.items.filter (lacks platform common)

def isFieldMember (m : Member) : Bool := m.item?.any Item.isField

/-- Put fields after the last field, or in front if there is none. -/
def insertFields (fields : List Member) (members : List Member) : List Member :=
  let behind := (members.reverse.takeWhile fun m ↦ !isFieldMember m).reverse
  members.take (members.length - behind.length) ++ fields ++ behind

/-- Graft the missing items: fields behind the fields, all else at the end. -/
def graftItems (platform common : TypeDecl) : TypeDecl :=
  let missing := missingItems platform common
  let fields := missing.filter Item.isField
  let others := (missing.filter fun i ↦ !i.isField).map (renameConstructor platform.name)
  { platform with
    members := insertFields (fields.map .item) platform.members ++ others.map .item }

/-- Graft the nested types of which there is none of the same simple name. -/
def graftTypes (platform common : TypeDecl) : TypeDecl :=
  let missing := common.nestedTypes.filter fun t ↦ (platform.nestedType? t.name).isNone
  { platform with members := platform.members ++ missing.map .type }

/-- Add the types of which there is none with the same erased name. -/
def uniteTypes (own extra : List String) : List String :=
  extra.foldl (fun types t ↦
    if types.any (eraseType · = eraseType t) then types else types ++ [t]) own

/-- Adopt type parameters, supertypes and enum constants; what the platform class
declares itself stays. -/
def reparent (platform common : TypeDecl) : TypeDecl :=
  let typeParams := platform.typeParams <|> common.typeParams
  if platform.kind.isInterfaceLike then
    { platform with typeParams, extending := uniteTypes platform.extending common.extending }
  else
    { platform with
      typeParams
      extending := if platform.kind = .classType ∧ platform.extending.isEmpty
        then common.extending else platform.extending
      implementing := uniteTypes platform.implementing common.implementing
      enumConstants := if platform.kind = .enumType
        then platform.enumConstants <|> common.enumConstants else platform.enumConstants }

end PlatformOverlay.Merge
