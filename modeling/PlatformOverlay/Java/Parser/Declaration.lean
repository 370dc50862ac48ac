import PlatformOverlay.Java.Parser.Shape

/-!
# Declarations

The grammar of types, members and compilation units.  A type contains members and a member may be a
type; the rule `membersRule` ties the knot, and every other parser takes the parser for members of
nested types as an argument.

Only declarations are parsed. A block, an initial value, a default value and the constants of an
enum are kept as the text up to the mark that ends them, outside of all groups. Groups are counted
by parentheses, brackets and braces, and not by angle brackets. For initial values that is not quite
enough, since a comma may go on with the value or with the declaration; what stands behind it
decides (`isAtDeclarator`).
-/

namespace PlatformOverlay.Java.Parser

/-! ## Type headers -/

/-- The kind of type declared here and the number of words that say so.  `record` is a
keyword only in front of a name and what must follow it. -/
def typeKindAt : List Word → Option (TypeKind × Nat)
  | [] => none
  | w :: ws =>
    match w.kind with
    | .keyword .classWord => some (.classType, 1)
    | .keyword .interfaceWord => some (.interfaceType, 1)
    | .keyword .enumWord => some (.enumType, 1)
    | .punct .atSign =>
        if isAt (.keyword .interfaceWord) ws then some (.annotationType, 2) else none
    | .ident =>
        if w.text = "record" ∧ isAt .ident ws ∧
            (isAt (.punct .lparen) ws.tail ∨ isAt (.punct .lt) ws.tail)
        then some (.recordType, 1)
        else none
    | _ => none

def clausesRule (clauses : TypeDecl → Parser TypeDecl) (decl : TypeDecl) : Parser TypeDecl := do
  let ws ← get
  if isAt (.punct .lbrace) ws then return decl
  else if isAt (.punct .lt) ws ∧ decl.typeParams.isNone then
    let typeParams ← sourceOf (balanced .lt .gt)
    clauses { decl with typeParams := some typeParams }
  else if isAt (.punct .lparen) ws ∧ decl.kind = .recordType then
    let components ← params
    clauses { decl with components }
  else if isAt (.keyword .extendsWord) ws then
    skip 1
    let extending ← typeList ()
    clauses { decl with extending }
  else if isAt (.keyword .implementsWord) ws then
    skip 1
    let implementing ← typeList ()
    clauses { decl with implementing }
  else if isAtText .ident "permits" ws then
    skip 1
    let permitting ← typeList ()
    clauses { decl with permitting }
  else failExpecting ("'\x7b' in declaration of " ++ decl.name)

/-- What stands between the name of a type and its body.  A clause that is repeated
replaces the one before it. -/
def clauses : TypeDecl → Parser TypeDecl := fixpoint clausesRule

def startColumn (ws : List Word) : Nat := (ws.head?.map (·.start.column)).getD 0

/-- The constants of an enum, up to the semicolon or the end of the body. -/
def enumConstants : Parser (Option Snippet) := do
  let column ← lookAhead startColumn
  let text ← textUntil fun ws ↦ isAt (.punct .semi) ws || isAt (.punct .rbrace) ws
  let _ ← eat (.punct .semi)
  return text.map (⟨·, column⟩)

/-- The body of a type, whose members are read by `members` once it is open. -/
def typeBody (members : TypeDecl → Parser (List Member)) (decl : TypeDecl) : Parser TypeDecl := do
  let _ ← expect (.punct .lbrace) "'\x7b'"
  let constants ← if decl.kind = .enumType then enumConstants else pure none
  return { decl with enumConstants := constants, members := ← members decl }

def typeDecl (members : TypeDecl → Parser (List Member)) (doc : Option Snippet)
    (annotations : List Annotation) (modifiers : Modifiers) : Parser TypeDecl := do
  match ← lookAhead typeKindAt with
  | none => failExpecting "class, interface, enum or record"
  | some (kind, n) =>
      skip n
      let name ← ident "type name"
      let decl ← clauses { TypeDecl.bare kind name with doc, annotations, modifiers }
      typeBody members decl

/-! ## Members -/

def throwsClause : Parser (Option String) := do
  if ← eat (.keyword .throwsWord) then
    let text ← textUntil fun ws ↦
      isAt (.punct .lbrace) ws || isAt (.punct .semi) ws || isAt (.keyword (.modifier .default)) ws
    match text with
    | some text => return some text
    | none => fail (.absent "exception type")
  else return none

/-- A constructor is a name followed by parameters or, if it is compact, the name of
the record followed by a body. -/
def isAtConstructor (owner : TypeDecl) (ws : List Word) : Bool :=
  isAt .ident ws && (isAt (.punct .lparen) ws.tail ||
    (owner.kind = .recordType && isAtText .ident owner.name ws && isAt (.punct .lbrace) ws.tail))

def constructor (typeParams : Option String) (column : Nat) : Parser Constructor := do
  let name ← ident "constructor name"
  let compact := !(← lookAhead (isAt (.punct .lparen)))
  let params ← if compact then pure [] else params
  let throws ← throwsClause
  return ⟨typeParams, name, params, compact, throws, ← block column⟩

def methodBody (column : Nat) : Parser (Option Snippet) := do
  if ← lookAhead (isAt (.punct .lbrace)) then return some (← block column)
  else
    let _ ← expect (.punct .semi) "method body or ';'"
    return none

def method (typeParams : Option String) (type name : String) (column : Nat) : Parser Method := do
  let params ← params
  let result := type ++ (← dims)
  let throws ← throwsClause
  let defaultValue ←
    if ← eat (.keyword (.modifier .default)) then textUntil (isAt (.punct .semi)) else pure none
  return ⟨typeParams, result, name, params, throws, ← methodBody column, defaultValue⟩

/-- Behind a comma in an initial value: a name and what may follow the name of a
further field.  Other commas belong to the value. -/
def isAtDeclarator (ws : List Word) : Bool :=
  isAt .ident ws && (isAt (.punct .comma) ws.tail || isAt (.punct .semi) ws.tail ||
    isAt (.punct .lbracket) ws.tail || isAtText .operator "=" ws.tail)

def endsInitializer (ws : List Word) : Bool :=
  isAt (.punct .semi) ws || (isAt (.punct .comma) ws && isAtDeclarator ws.tail)

def fieldInit (column : Nat) : Parser (Option Snippet) := do
  if ← lookAhead (isAtText .operator "=") then
    skip 1
    match ← textUntil endsInitializer with
    | some text => return some ⟨text, column⟩
    | none => fail (.absent "initializer")
  else return none

def declaratorsRule (type : String) (column : Nat) (declarators : String → Parser (List Field))
    (name : String) : Parser (List Field) := do
  let fieldType := type ++ (← dims)
  let init ← fieldInit column
  let field : Field := ⟨fieldType, name, init⟩
  if ← eat (.punct .comma) then
    let next ← ident "field name"
    return field :: (← declarators next)
  else
    let _ ← expect (.punct .semi) "';' after field"
    return [field]

/-- The fields of one declaration, the first of which has the given name. -/
def declarators (type : String) (column : Nat) : String → Parser (List Field) :=
  fixpoint (declaratorsRule type column)

/-- What an item declares: several fields, or one constructor or method. -/
def contents (owner : TypeDecl) (column : Nat) : Parser (List Content) := do
  let typeParams ←
    if ← lookAhead (isAt (.punct .lt)) then pure (some (← sourceOf (balanced .lt .gt)))
    else pure none
  if ← lookAhead (isAtConstructor owner) then
    return [.constructor (← constructor typeParams column)]
  else
    let type ← type
    let name ← ident "member name"
    if ← lookAhead (isAt (.punct .lparen)) then
      return [.method (← method typeParams type name column)]
    else
      return (← declarators type column name).map .field

/-- One declaration in the body of `owner`. -/
def member (members : TypeDecl → Parser (List Member)) (owner : TypeDecl) :
    Parser (List Member) := do
  let doc ← lookAhead fun ws ↦ ws.head?.bind Word.doc
  let column ← lookAhead startColumn
  let (annotations, modifiers) ← modifiers
  let ws ← get
  if isAt (.punct .lbrace) ws then
    return [.item ⟨doc, annotations, modifiers, .initializer (← block column)⟩]
  else if (typeKindAt ws).isSome then
    return [.type (← typeDecl members doc annotations modifiers)]
  else
    return (← contents owner column).map fun content ↦
      .item ⟨doc, annotations, modifiers, content⟩

/-- The members of `owner` up to the end of its body. -/
def membersRule (members : TypeDecl → Parser (List Member)) (owner : TypeDecl) :
    Parser (List Member) := do
  if ← eat (.punct .semi) then members owner
  else if ← eat (.punct .rbrace) then return []
  else if ← lookAhead List.isEmpty then fail (.unclosedBody owner.name)
  else
    let first ← member members owner
    return first ++ (← members owner)

def members : TypeDecl → Parser (List Member) := fixpoint membersRule

/-! ## Compilation units -/

def importsRule (imports : Unit → Parser (List Import)) (_ : Unit) : Parser (List Import) := do
  if ← eat (.punct .semi) then imports ()
  else if ← lookAhead (isAt (.keyword .importWord)) then
    return (← importDecl) :: (← imports ())
  else return []

def imports : Unit → Parser (List Import) := fixpoint importsRule

def typesRule (types : Unit → Parser (List TypeDecl)) (_ : Unit) : Parser (List TypeDecl) := do
  if ← lookAhead List.isEmpty then return []
  else if ← eat (.punct .semi) then types ()
  else
    let doc ← lookAhead fun ws ↦ ws.head?.bind Word.doc
    let (annotations, modifiers) ← modifiers
    let first ← typeDecl members doc annotations modifiers
    return first :: (← types ())

def types : Unit → Parser (List TypeDecl) := fixpoint typesRule

/-- Annotations and modifiers in front of everything belong to the package declaration
or else to the first type, and then there are no imports.  The comment in front belongs
to the file if there is a package declaration or an import. -/
def compilationUnit : Parser CompilationUnit := do
  let doc ← lookAhead fun ws ↦ ws.head?.bind Word.doc
  let (annotations, modifiers) ← modifiers
  if ← eat (.keyword .packageWord) then
    let package ← qualifiedName "package name"
    let _ ← expect (.punct .semi) "';'"
    let imports ← imports ()
    return ⟨doc, some package, annotations, imports, ← types ()⟩
  else if annotations.isEmpty ∧ modifiers.isEmpty then
    let imports ← imports ()
    return ⟨if imports.isEmpty then none else doc, none, [], imports, ← types ()⟩
  else
    let first ← typeDecl members doc annotations modifiers
    return ⟨none, none, [], [], first :: (← types ())⟩

end PlatformOverlay.Java.Parser
