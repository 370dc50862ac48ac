import PlatformOverlay.Java.Parser.Basic

/-!
# Groups, names and types

The parts from which declarations are built: balanced groups, text up to a mark,
qualified names, annotations, modifiers, types and parameters.
-/

namespace PlatformOverlay.Java.Parser

/-! ## Groups -/

/-- The words after the mark that closes a group in which `depth` more are open. -/
def afterClosing (opening closing : TokenKind) : Nat → List Word → Option (List Word)
  | _, [] => none
  | depth, w :: ws =>
      if w.kind = opening then afterClosing opening closing (depth + 1) ws
      else if w.kind = closing then
        match depth with
        | 0 => some ws
        | depth + 1 => afterClosing opening closing depth ws
      else afterClosing opening closing depth ws

/-- Take a group up to the mark that closes it.  Only marks of the same kind count. -/
def balanced (opening closing : Punct) : Parser Unit := fun ws ↦
  match ws with
  | [] => fail .unexpectedEnd ws
  | _ :: rest =>
    match afterClosing (.punct opening) (.punct closing) 0 rest with
    | some left => .ok ((), left)
    | none => fail .unbalanced ws

def opensGroup : TokenKind → Bool
  | .punct .lparen | .punct .lbrace | .punct .lbracket => true
  | _ => false

def closesGroup : TokenKind → Bool
  | .punct .rparen | .punct .rbrace | .punct .rbracket => true
  | _ => false

/-- The words from the first place outside all groups where `stop` holds. -/
def seek (stop : List Word → Bool) : Nat → List Word → Except Fault (List Word)
  | _, [] => .error (faultAt .unexpectedEnd [])
  | depth, w :: ws =>
      if depth = 0 ∧ stop (w :: ws) then .ok (w :: ws)
      else if opensGroup w.kind then seek stop (depth + 1) ws
      else if closesGroup w.kind then
        match depth with
        | 0 => .error (faultAt (.unexpected (some w.text)) (w :: ws))
        | depth + 1 => seek stop depth ws
      else seek stop depth ws

/-- The source text up to the first place outside all groups where `stop` holds, `none`
if that is here. -/
def textUntil (stop : List Word → Bool) : Parser (Option String) := do
  let (source, _) ← withSource fun ws ↦ (seek stop 0 ws).map ((), ·)
  return source

/-- A block in braces, owned by a declaration that starts at the given column. -/
def block (column : Nat) : Parser Snippet := do
  if ← lookAhead (isAt (.punct .lbrace)) then
    return ⟨← sourceOf (balanced .lbrace .rbrace), column⟩
  else failExpecting "'\x7b'"

/-! ## Names -/

/-- The segments of a dotted name after the first, as written, and the words left. -/
def segments : List Word → String × List Word
  | dot :: w :: ws =>
      if dot.kind = .punct .dot ∧ w.kind = .ident then
        let rest := segments ws
        ("." ++ w.text ++ rest.1, rest.2)
      else ("", dot :: w :: ws)
  | ws => ("", ws)

def qualifiedName (what : String) : Parser String := do
  let first ← ident what
  let rest ← (fun ws ↦ .ok (segments ws) : Parser String)
  return first ++ rest

def importPathRule (importPath : String → Parser (String × Bool)) (path : String) :
    Parser (String × Bool) := do
  if ← eat (.punct .dot) then
    if ← lookAhead (isAtText .operator "*") then
      skip 1
      return (path, true)
    else
      let segment ← ident "import path"
      importPath (path ++ "." ++ segment)
  else return (path, false)

/-- The rest of an imported path, which may end in a star. -/
def importPath : String → Parser (String × Bool) := fixpoint importPathRule

def importDecl : Parser Import := do
  let _ ← expect (.keyword .importWord) "'import'"
  let isStatic ← eat (.keyword (.modifier .static))
  let first ← ident "import path"
  let (path, wildcard) ← importPath first
  let _ ← expect (.punct .semi) "';' after import"
  return ⟨isStatic, path, wildcard⟩

/-! ## Annotations and modifiers -/

def annotationUse : Parser Annotation := do
  let _ ← expect (.punct .atSign) "'@'"
  let name ← qualifiedName "annotation name"
  if ← lookAhead (isAt (.punct .lparen)) then
    return ⟨name, some (← sourceOf (balanced .lparen .rparen))⟩
  else return ⟨name, none⟩

/-- An at sign starts an annotation unless it is that of an annotation type. -/
def isAtAnnotation (ws : List Word) : Bool :=
  isAt (.punct .atSign) ws && !isAt (.keyword .interfaceWord) ws.tail

/-- The words before which `sealed` is a modifier. -/
def followsSealed (kind : TokenKind) : Bool :=
  match kind with
  | .keyword .classWord | .keyword .interfaceWord | .punct .atSign => true
  | .keyword (.modifier m) => [.pub, .prot, .priv, .static, .abstract, .strictfp].contains m
  | _ => false

/-- The modifier at the front and the number of words that spell it. -/
def modifierAt : List Word → Option (Modifier × Nat)
  | [] => none
  | w :: ws =>
    match w.kind with
    | .keyword (.modifier m) => some (m, 1)
    | .ident =>
        if w.text = "sealed" ∧ ws.head?.any (followsSealed ·.kind) then some (.sealed, 1)
        else if w.text = "non" ∧ isAtText .operator "-" ws ∧ ws.tail.head?.any (·.text = "sealed")
        then some (.nonSealed, 3)
        else none
    | _ => none

def modifiersRule
    (modifiersAfter : List Annotation × Modifiers → Parser (List Annotation × Modifiers)) :
    List Annotation × Modifiers → Parser (List Annotation × Modifiers)
  | (annotations, modifiers) => do
    if ← lookAhead isAtAnnotation then
      let a ← annotationUse
      modifiersAfter (annotations ++ [a], modifiers)
    else
      match ← lookAhead modifierAt with
      | some (m, n) =>
          skip n
          modifiersAfter (annotations, modifiers.push m)
      | none => return (annotations, modifiers)

/-- Annotations and modifiers in any order, added to those already read. -/
def modifiersAfter : List Annotation × Modifiers → Parser (List Annotation × Modifiers) :=
  fixpoint modifiersRule

def modifiers : Parser (List Annotation × Modifiers) := modifiersAfter ([], .empty)

/-! ## Types and parameters -/

def typeAnnotationsRule (typeAnnotations : Unit → Parser Unit) (_ : Unit) : Parser Unit := do
  if ← lookAhead (isAt (.punct .atSign)) then
    let _ ← annotationUse
    typeAnnotations ()

def typeAnnotations : Unit → Parser Unit := fixpoint typeAnnotationsRule

/-- Empty brackets stand here. -/
def isAtBrackets (ws : List Word) : Bool :=
  isAt (.punct .lbracket) ws && isAt (.punct .rbracket) ws.tail

def typeTailRule (typeTail : Unit → Parser Unit) (_ : Unit) : Parser Unit := do
  let ws ← get
  if isAt (.punct .dot) ws && isAt .ident ws.tail then
    skip 2
    typeTail ()
  else if isAt (.punct .lt) ws then
    balanced .lt .gt
    typeTail ()
  else if isAtBrackets ws then
    skip 2
    typeTail ()

/-- Further segments, type arguments and brackets of a type. -/
def typeTail : Unit → Parser Unit := fixpoint typeTailRule

def typeWords : Parser Unit := do
  typeAnnotations ()
  let _ ← ident "type"
  typeTail ()

/-- The text of a type. -/
def type : Parser String := sourceOf typeWords

/-- One pair of brackets for each that is written, and the words left. -/
def brackets : List Word → String × List Word
  | l :: r :: ws =>
      if l.kind = .punct .lbracket ∧ r.kind = .punct .rbracket then
        let rest := brackets ws
        ("[]" ++ rest.1, rest.2)
      else ("", l :: r :: ws)
  | ws => ("", ws)

/-- The brackets of an array type that are written behind a name. -/
def dims : Parser String := fun ws ↦ .ok (brackets ws)

def typeListRule (typeList : Unit → Parser (List String)) (_ : Unit) : Parser (List String) := do
  let first ← type
  if ← eat (.punct .comma) then return first :: (← typeList ())
  else return [first]

/-- Types with commas between them. -/
def typeList : Unit → Parser (List String) := fixpoint typeListRule

def param : Parser Param := do
  let (lead, _) ← withSource modifiers
  let written ← type
  let varargs ← eat (.punct .ellipsis)
  let name ← ident "parameter name"
  return ⟨lead, written ++ (← dims), varargs, name⟩

def paramsRule (paramsTail : Unit → Parser (List Param)) (_ : Unit) : Parser (List Param) := do
  let first ← param
  if ← eat (.punct .comma) then return first :: (← paramsTail ())
  else
    let _ ← expect (.punct .rparen) "')'"
    return [first]

def paramsTail : Unit → Parser (List Param) := fixpoint paramsRule

/-- A parameter list in parentheses. -/
def params : Parser (List Param) := do
  let _ ← expect (.punct .lparen) "'('"
  if ← eat (.punct .rparen) then return []
  else paramsTail ()

end PlatformOverlay.Java.Parser
