import PlatformOverlay.Text.Blank
import PlatformOverlay.Java.Decl

/-!
# Erased types

Two declarations of a member are compared by the erased types of their parameters: a written type
without type arguments, qualifiers, layout and annotations, in which a type variable of the member
itself stands for its bound.

All of this is done on the text of a type, by counting angle brackets and cutting at dots and
blanks. Bounds are put in for variables once: the erased bound of a variable is that of its first
type, whatever that is.
-/

namespace PlatformOverlay.Java

open Text (isBlank words)

/-- The characters outside all angle brackets; `depth` brackets are open in front. -/
def outsideBrackets : Nat → List Char → List Char
  | _, [] => []
  | depth, c :: cs =>
      if c = '<' then outsideBrackets (depth + 1) cs
      else if c = '>' then outsideBrackets (depth - 1) cs
      else if depth = 0 then c :: outsideBrackets depth cs
      else outsideBrackets depth cs

/-- A type without arguments and qualifiers: its simple name and its dimensions. -/
structure ErasedType where
  base : String
  dims : String
deriving DecidableEq, Repr

namespace ErasedType

def text (t : ErasedType) : String := t.base ++ t.dims

/-- Words that start with an at sign are annotations; the others are joined. -/
def ofText (type : String) : ErasedType :=
  let kept := (words (String.ofList (outsideBrackets 0 type.toList))).filter
    fun word ↦ !word.startsWith "@"
  let joined := (String.join kept).toList
  ⟨Text.afterLast '.' (String.ofList (joined.takeWhile (· != '['))),
    String.ofList (joined.dropWhile (· != '['))⟩

end ErasedType

def eraseType (type : String) : String := (ErasedType.ofText type).text

/-! ## Type variables -/

/-- Cut at the commas outside all brackets. -/
def splitArguments : Nat → List Char → List (List Char)
  | _, [] => [[]]
  | depth, c :: cs =>
      if c = ',' ∧ depth = 0 then [] :: splitArguments depth cs
      else
        let depth := if c = '<' ∨ c = '(' then depth + 1
          else if c = '>' ∨ c = ')' then depth - 1 else depth
        Text.extendFirst c (splitArguments depth cs)

/-- The inside of a type parameter list. -/
def insideBrackets (list : String) : List Char :=
  let opened := (Text.trim list).toList.dropWhile (· == '<')
  if opened.getLast? = some '>' then opened.dropLast else opened

/-- What a type variable is erased to, given the words behind `extends`: the first of
its bounds. -/
def erasedBound (bound : List String) : String :=
  let text := String.ofList ((String.intercalate " " bound).toList.takeWhile (· != '&'))
  if (Text.trim text).isEmpty then "Object" else eraseType text

/-- The type variable that one entry of a type parameter list declares. -/
def typeVariable? (entry : String) : Option (String × String) := do
  let parts := words entry
  let name ← (parts.takeWhile (· ≠ "extends")).getLast?
  return (name, erasedBound (parts.dropWhile (· ≠ "extends")).tail)

/-- The type variables of a list, each with its erased bound. -/
def typeVariables : Option String → List (String × String)
  | none => []
  | some list =>
      (splitArguments 0 (insideBrackets list)).filterMap fun entry ↦
        typeVariable? (String.ofList entry)

def eraseParam (bounds : List (String × String)) (p : Param) : String :=
  let erased := ErasedType.ofText p.type
  (bounds.lookup erased.base).getD erased.base ++ erased.dims ++ (if p.varargs then "[]" else "")

/-- The erased types of parameters, with the type parameters of their member. -/
def eraseParams (typeParams : Option String) (ps : List Param) : List String :=
  ps.map (eraseParam (typeVariables typeParams))

end PlatformOverlay.Java
