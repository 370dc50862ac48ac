import PlatformOverlay.Text.Blank
import PlatformOverlay.Text.Lines
import PlatformOverlay.Text.WordChar

/-!
# Import statements as lines

Generated files are repaired line by line, so here an import is what stands on one
line: the word `import`, perhaps the word `static`, at least two names (the last may be
a star) with dots between them, and a semicolon, with blanks around each of them.
Whatever follows the semicolon on the line belongs to the statement.
-/

namespace PlatformOverlay.Imports

open Text (isBlank isWordChar dropBlanks dropBlanksEnd)

def isNameChar (c : Char) : Bool := isWordChar c || c == '$'

structure ImportLine where
  /-- The line without the blanks at its ends. -/
  statement : String
  /-- The imported name, or what stands in front of the star. -/
  path : String
  /-- The simple name that comes into scope, or a star. -/
  reference : String
  isStatic : Bool
deriving DecidableEq, Repr, Inhabited

namespace ImportLine

def isWildcard (line : ImportLine) : Bool := line.reference = "*"

end ImportLine

/-- What follows a word and the blanks that must separate it from the rest. -/
def afterWord? (word : String) (cs : List Char) : Option (List Char) :=
  let rest := cs.drop word.length
  if word.toList.isPrefixOf cs && rest.head?.any isBlank then some (dropBlanks rest) else none

def isName (piece : List Char) : Bool := !piece.isEmpty && piece.all isNameChar

def trimmed (cs : List Char) : List Char := dropBlanksEnd (dropBlanks cs)

/-- The path and the last name of an imported name. -/
def qualifiedName? (cs : List Char) : Option (String × String) :=
  let pieces := (Text.splitChars '.' cs).map trimmed
  let outer := pieces.dropLast
  let last := pieces.getLastD []
  if outer.isEmpty || !outer.all isName then none
  else
    let outerPath := String.intercalate "." (outer.map String.ofList)
    if last = ['*'] then some (outerPath, "*")
    else if isName last then
      some (outerPath ++ "." ++ String.ofList last, String.ofList last)
    else none

/-- The word `static` is a modifier when a name comes next. -/
def splitStatic (cs : List Char) : Bool × List Char :=
  match afterWord? "static" cs with
  | some rest => if rest.head?.any isNameChar then (true, rest) else (false, cs)
  | none => (false, cs)

/-- The import that a line states. -/
def ImportLine.parse? (line : String) : Option ImportLine := do
  let rest ← afterWord? "import" (dropBlanks line.toList)
  let (isStatic, rest) := splitStatic rest
  match rest.dropWhile (· != ';') with
  | [] => none
  | _ :: behind =>
    if behind.contains '\n' then none
    else
      let (path, reference) ← qualifiedName? (rest.takeWhile (· != ';'))
      return ⟨Text.trim line, path, reference, isStatic⟩

/-- The imports of a text, in order. -/
def importsOf (text : String) : List ImportLine := (Text.lines text).filterMap ImportLine.parse?

end PlatformOverlay.Imports
