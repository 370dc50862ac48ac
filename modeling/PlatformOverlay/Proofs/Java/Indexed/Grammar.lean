import PlatformOverlay.Java.Source
import PlatformOverlay.Proofs.Java.Indexed.Reader

/-!
# The grammar read with a cursor

The rules of the grammar for a reader that goes over the tokens of a text by their indices.  Each
slice is given by the index of the token where the cursor was and that of the last one taken.

The rules are those of the parser of words, one by one and under the same names, but all data that a
word has at hand is looked up here: the text of a token, its position, and the comments in front of
it. Loops are fixpoints over the cursor as they are over words.
-/

namespace PlatformOverlay.Java.Indexed

/-! ## Groups -/

/-- Up to the end of a group that begins with the token `first`, in which `depth` are open. -/
def closeRule (opening closing : TokenKind) (first : Nat) (close : Nat → Reader Unit)
    (depth : Nat) : Reader Unit := do
  if depth = 0 then return ()
  else
    match ← kindAt 0 with
    | none => failAt first .unbalanced
    | some kind =>
        move 1
        close (if kind = opening then depth + 1 else if kind = closing then depth - 1 else depth)

def group (opening closing : Punct) : Reader Unit := do
  if ← isAtEnd then fail .unexpectedEnd
  else
    let first ← here
    move 1
    fixpoint (closeRule (.punct opening) (.punct closing) first) 1

/-- Take a group.  Returns the indices of its first and its last token. -/
def balanced (opening closing : Punct) : Reader (Nat × Nat) := bounds (group opening closing)

def balancedText (opening closing : Punct) : Reader String := sourceOf (group opening closing)

def block (column : Nat) : Reader Snippet := do
  if ← isAt (.punct .lbrace) then return ⟨← balancedText .lbrace .rbrace, column⟩
  else failExpecting "'\x7b'"

/-- Go on behind a token of the given kind. -/
def seekPast (seek : Nat → Reader Unit) (depth : Nat) (kind : TokenKind) : Reader Unit := do
  if Parser.opensGroup kind then
    move 1
    seek (depth + 1)
  else if Parser.closesGroup kind then
    if depth = 0 then fail (.unexpected (← found))
    else
      move 1
      seek (depth - 1)
  else
    move 1
    seek depth

def seekRule (stop : Reader Bool) (seek : Nat → Reader Unit) (depth : Nat) : Reader Unit := do
  match ← kindAt 0 with
  | none => fail .unexpectedEnd
  | some kind =>
    if ← (if depth = 0 then stop else pure false) then return ()
    else seekPast seek depth kind

/-- The source text up to the first place outside all groups where `stop` holds, `none` if that is
here. -/
def textUntil (stop : Reader Bool) : Reader (Option String) := do
  let (source, _) ← withSource (fixpoint (seekRule stop) 0)
  return source

/-! ## Names -/

def segmentsRule (what : String) (segments : String → Reader String) (name : String) :
    Reader String := do
  if (← isAt (.punct .dot)) && (← kindAt 1) = some .ident then
    move 1
    let segment ← ident what
    segments (name ++ "." ++ segment)
  else return name

def qualifiedName (what : String) : Reader String := do
  let first ← ident what
  fixpoint (segmentsRule what) first

def importPathRule (importPath : String → Reader (String × Bool)) (path : String) :
    Reader (String × Bool) := do
  if ← eat (.punct .dot) then
    if ← isAtText .operator "*" then
      move 1
      return (path, true)
    else
      let segment ← ident "import path"
      importPath (path ++ "." ++ segment)
  else return (path, false)

def importDecl : Reader Import := do
  let _ ← expect (.keyword .importWord) "'import'"
  let isStatic ← eat (.keyword (.modifier .static))
  let first ← ident "import path"
  let (path, wildcard) ← fixpoint importPathRule first
  let _ ← expect (.punct .semi) "';' after import"
  return ⟨isStatic, path, wildcard⟩

/-! ## Annotations and modifiers -/

def annotationUse : Reader Annotation := do
  let _ ← expect (.punct .atSign) "'@'"
  let name ← qualifiedName "annotation name"
  if ← isAt (.punct .lparen) then return ⟨name, some (← balancedText .lparen .rparen)⟩
  else return ⟨name, none⟩

def isAtAnnotation : Reader Bool := do
  return (← isAt (.punct .atSign)) && (← kindAt 1) != some (.keyword .interfaceWord)

def modifierAt : Reader (Option (Modifier × Nat)) := do
  match ← kindAt 0 with
  | some (.keyword (.modifier m)) => return some (m, 1)
  | some .ident =>
    let word ← textAt 0
    if word = "sealed" ∧ (← kindAt 1).any Parser.followsSealed then return some (.sealed, 1)
    else if word = "non" ∧ (← kindAt 1) = some .operator ∧ (← textAt 1) = "-" ∧
        (← textAt 2) = "sealed" then
      return some (.nonSealed, 3)
    else return none
  | _ => return none

def modifiersRule
    (modifiers : List Annotation × Modifiers → Reader (List Annotation × Modifiers)) :
    List Annotation × Modifiers → Reader (List Annotation × Modifiers)
  | (annotations, mods) => do
    if ← isAtAnnotation then
      let a ← annotationUse
      modifiers (annotations ++ [a], mods)
    else
      match ← modifierAt with
      | some (m, n) =>
          move n
          modifiers (annotations, mods.push m)
      | none => return (annotations, mods)

def modifiers : Reader (List Annotation × Modifiers) := fixpoint modifiersRule ([], .empty)

/-! ## Types and parameters -/

def typeAnnotationsRule (typeAnnotations : Unit → Reader Unit) (_ : Unit) : Reader Unit := do
  if ← isAt (.punct .atSign) then
    let _ ← annotationUse
    typeAnnotations ()

def isAtBrackets : Reader Bool := do
  return (← isAt (.punct .lbracket)) && (← kindAt 1) = some (.punct .rbracket)

def typeTailRule (typeTail : Unit → Reader Unit) (_ : Unit) : Reader Unit := do
  if (← isAt (.punct .dot)) && (← kindAt 1) = some .ident then
    move 2
    typeTail ()
  else if ← isAt (.punct .lt) then
    let _ ← balanced .lt .gt
    typeTail ()
  else if ← isAtBrackets then
    move 2
    typeTail ()

def typeWords : Reader Unit := do
  fixpoint typeAnnotationsRule ()
  let _ ← ident "type"
  fixpoint typeTailRule ()

def type : Reader String := sourceOf typeWords

def dimsRule (dims : String → Reader String) (taken : String) : Reader String := do
  if ← isAtBrackets then
    move 2
    dims (taken ++ "[]")
  else return taken

def dims : Reader String := fixpoint dimsRule ""

def typeListRule (typeList : Unit → Reader (List String)) (_ : Unit) : Reader (List String) := do
  let first ← type
  if ← eat (.punct .comma) then return first :: (← typeList ())
  else return [first]

def typeList : Reader (List String) := fixpoint typeListRule ()

def param : Reader Param := do
  let (lead, _) ← withSource modifiers
  let written ← type
  let varargs ← eat (.punct .ellipsis)
  let name ← ident "parameter name"
  return ⟨lead, written ++ (← dims), varargs, name⟩

def paramsRule (params : Unit → Reader (List Param)) (_ : Unit) : Reader (List Param) := do
  let first ← param
  if ← eat (.punct .comma) then return first :: (← params ())
  else
    let _ ← expect (.punct .rparen) "')'"
    return [first]

def params : Reader (List Param) := do
  let _ ← expect (.punct .lparen) "'('"
  if ← eat (.punct .rparen) then return []
  else fixpoint paramsRule ()

/-! ## Type headers -/

def typeKindAt : Reader (Option (TypeKind × Nat)) := do
  match ← kindAt 0 with
  | some (.keyword .classWord) => return some (.classType, 1)
  | some (.keyword .interfaceWord) => return some (.interfaceType, 1)
  | some (.keyword .enumWord) => return some (.enumType, 1)
  | some (.punct .atSign) =>
    if (← kindAt 1) = some (.keyword .interfaceWord) then return some (.annotationType, 2)
    else return none
  | some .ident =>
    if (← textAt 0) = "record" ∧ (← kindAt 1) = some .ident ∧
        ((← kindAt 2) = some (.punct .lparen) ∨ (← kindAt 2) = some (.punct .lt)) then
      return some (.recordType, 1)
    else return none
  | _ => return none

def clausesRule (clauses : TypeDecl → Reader TypeDecl) (decl : TypeDecl) : Reader TypeDecl := do
  if ← isAt (.punct .lbrace) then return decl
  else if (← isAt (.punct .lt)) && decl.typeParams.isNone then
    let typeParams ← balancedText .lt .gt
    clauses { decl with typeParams := some typeParams }
  else if (← isAt (.punct .lparen)) && decl.kind = .recordType then
    let components ← params
    clauses { decl with components }
  else if ← isAt (.keyword .extendsWord) then
    move 1
    let extending ← typeList
    clauses { decl with extending }
  else if ← isAt (.keyword .implementsWord) then
    move 1
    let implementing ← typeList
    clauses { decl with implementing }
  else if ← isAtText .ident "permits" then
    move 1
    let permitting ← typeList
    clauses { decl with permitting }
  else failExpecting ("'\x7b' in declaration of " ++ decl.name)

def enumConstants : Reader (Option Snippet) := do
  let column ← startColumn
  let text ← textUntil do return (← isAt (.punct .semi)) || (← isAt (.punct .rbrace))
  let _ ← eat (.punct .semi)
  return text.map (⟨·, column⟩)

def typeBody (members : TypeDecl → Reader (List Member)) (decl : TypeDecl) : Reader TypeDecl := do
  let _ ← expect (.punct .lbrace) "'\x7b'"
  let constants ← if decl.kind = .enumType then enumConstants else pure none
  return { decl with enumConstants := constants, members := ← members decl }

/-- A type whose declaration begins with the token `start`. -/
def typeDecl (members : TypeDecl → Reader (List Member)) (start : Nat)
    (annotations : List Annotation) (modifiers : Modifiers) : Reader TypeDecl := do
  match ← typeKindAt with
  | none => failExpecting "class, interface, enum or record"
  | some (kind, n) =>
      move n
      let name ← ident "type name"
      let doc ← docBefore start
      let decl ← fixpoint clausesRule { TypeDecl.bare kind name with doc, annotations, modifiers }
      typeBody members decl

/-! ## Members -/

def throwsClause : Reader (Option String) := do
  if ← eat (.keyword .throwsWord) then
    let text ← textUntil do
      return (← isAt (.punct .lbrace)) || (← isAt (.punct .semi)) ||
        (← isAt (.keyword (.modifier .default)))
    match text with
    | some text => return some text
    | none => fail (.absent "exception type")
  else return none

def isAtConstructor (owner : TypeDecl) : Reader Bool := do
  if ← isAt .ident then
    if (← kindAt 1) = some (.punct .lparen) then return true
    else return owner.kind = .recordType && (← textAt 0) = owner.name &&
      (← kindAt 1) = some (.punct .lbrace)
  else return false

def constructor (typeParams : Option String) (column : Nat) : Reader Constructor := do
  let name ← ident "constructor name"
  let compact := !(← isAt (.punct .lparen))
  let params ← if compact then pure [] else params
  let throws ← throwsClause
  return ⟨typeParams, name, params, compact, throws, ← block column⟩

def methodBody (column : Nat) : Reader (Option Snippet) := do
  if ← isAt (.punct .lbrace) then return some (← block column)
  else
    let _ ← expect (.punct .semi) "method body or ';'"
    return none

def method (typeParams : Option String) (type name : String) (column : Nat) : Reader Method := do
  let params ← params
  let result := type ++ (← dims)
  let throws ← throwsClause
  let defaultValue ←
    if ← eat (.keyword (.modifier .default)) then textUntil (isAt (.punct .semi)) else pure none
  return ⟨typeParams, result, name, params, throws, ← methodBody column, defaultValue⟩

/-- Behind the token at the cursor there is a name and what may follow the name of a further
field. -/
def declaratorFollows : Reader Bool := do
  if (← kindAt 1) = some .ident then
    match ← kindAt 2 with
    | some (.punct .comma) | some (.punct .semi) | some (.punct .lbracket) => return true
    | some .operator => return (← textAt 2) = "="
    | _ => return false
  else return false

def endsInitializer : Reader Bool := do
  if ← isAt (.punct .semi) then return true
  else if ← isAt (.punct .comma) then declaratorFollows
  else return false

def fieldInit (column : Nat) : Reader (Option Snippet) := do
  if ← isAtText .operator "=" then
    move 1
    match ← textUntil endsInitializer with
    | some text => return some ⟨text, column⟩
    | none => fail (.absent "initializer")
  else return none

def declaratorsRule (type : String) (column : Nat) (declarators : String → Reader (List Field))
    (name : String) : Reader (List Field) := do
  let fieldType := type ++ (← dims)
  let init ← fieldInit column
  let field : Field := ⟨fieldType, name, init⟩
  if ← eat (.punct .comma) then
    let next ← ident "field name"
    return field :: (← declarators next)
  else
    let _ ← expect (.punct .semi) "';' after field"
    return [field]

def contents (owner : TypeDecl) (column : Nat) : Reader (List Content) := do
  let typeParams ←
    if ← isAt (.punct .lt) then pure (some (← balancedText .lt .gt)) else pure none
  if ← isAtConstructor owner then return [.constructor (← constructor typeParams column)]
  else
    let type ← type
    let name ← ident "member name"
    if ← isAt (.punct .lparen) then return [.method (← method typeParams type name column)]
    else return (← fixpoint (declaratorsRule type column) name).map .field

def member (members : TypeDecl → Reader (List Member)) (owner : TypeDecl) :
    Reader (List Member) := do
  let start ← here
  let doc ← docBefore start
  let column ← startColumn
  let (annotations, modifiers) ← modifiers
  if ← isAt (.punct .lbrace) then
    return [.item ⟨doc, annotations, modifiers, .initializer (← block column)⟩]
  else if (← typeKindAt).isSome then
    return [.type (← typeDecl members start annotations modifiers)]
  else
    return (← contents owner column).map fun content ↦
      .item ⟨doc, annotations, modifiers, content⟩

def membersRule (members : TypeDecl → Reader (List Member)) (owner : TypeDecl) :
    Reader (List Member) := do
  if ← eat (.punct .semi) then members owner
  else if ← eat (.punct .rbrace) then return []
  else if ← isAtEnd then fail (.unclosedBody owner.name)
  else
    let first ← member members owner
    return first ++ (← members owner)

def members : TypeDecl → Reader (List Member) := fixpoint membersRule

/-! ## Compilation units -/

def importsRule (imports : Unit → Reader (List Import)) (_ : Unit) : Reader (List Import) := do
  if ← eat (.punct .semi) then imports ()
  else if ← isAt (.keyword .importWord) then return (← importDecl) :: (← imports ())
  else return []

def imports : Reader (List Import) := fixpoint importsRule ()

def typesRule (types : Unit → Reader (List TypeDecl)) (_ : Unit) : Reader (List TypeDecl) := do
  if ← isAtEnd then return []
  else if ← eat (.punct .semi) then types ()
  else
    let start ← here
    let (annotations, modifiers) ← modifiers
    let first ← typeDecl members start annotations modifiers
    return first :: (← types ())

def types : Reader (List TypeDecl) := fixpoint typesRule ()

def compilationUnit : Reader CompilationUnit := do
  let header ← docBefore 0
  let start ← here
  let (annotations, modifiers) ← modifiers
  if ← eat (.keyword .packageWord) then
    let package ← qualifiedName "package name"
    let _ ← expect (.punct .semi) "';'"
    let imports ← imports
    return ⟨header, some package, annotations, imports, ← types⟩
  else if annotations.isEmpty ∧ modifiers.isEmpty then
    let imports ← imports
    return ⟨if imports.isEmpty then none else header, none, [], imports, ← types⟩
  else
    let first ← typeDecl members start annotations modifiers
    return ⟨none, none, [], [], first :: (← types)⟩

/-! ## Source files -/

/-- What comes of reading a file, or the check that fails. -/
def parse (path : Path) (text : String) : Except Check (Except SyntaxError CompilationUnit) :=
  if isModuleInfo path then .ok (.ok .empty)
  else
    match tokenize text with
    | .error e => .ok (.error ⟨path, (Text.LineIndex.ofText text).position e.offset, .unrecognized⟩)
    | .ok lexed =>
      let input := Input.ofTokens text lexed.tokens
      match compilationUnit input 0 with
      | .done unit _ => .ok (.ok unit)
      | .failed cause cursor => .ok (.error ⟨path, input.position (offsetAt input cursor), cause⟩)
      | .broken check => .error check

end PlatformOverlay.Java.Indexed
