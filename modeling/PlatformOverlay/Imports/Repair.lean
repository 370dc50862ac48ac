import PlatformOverlay.Imports.Shorten
import PlatformOverlay.Imports.Union

/-!
# Repairing the imports of a generated file

Members taken over from a common class use names that the platform file never imported. The repaired
file has the package declaration, an empty line, the imports of both files in order, an empty line,
and then the rest of its text with the names shortened.

A repair works on text and does not read it as source. Its steps are:

1. the imports of both texts are read line by line and united;
2. the lines that state no import are the body, and names are shortened in all of it;
3. the body is split behind the line of its first package declaration;
4. the import block is put between the two parts, without the blanks in front of the second.

So names are shortened in comments and literals as well, and whatever looks like a package
declaration at the start of a line is taken for one.
-/

namespace PlatformOverlay.Imports

open Text (isBlank dropBlanks)

/-- A package declaration at the start of a line, split behind the line that it is on.
The blank after the word may be the end of a line. -/
def packageLine? (cs : List Char) : Option (List Char × List Char) :=
  let word := "package".toList
  let lead := cs.takeWhile isBlank
  let rest := cs.dropWhile isBlank
  if word.isPrefixOf rest then
    match rest.drop word.length with
    | b :: behind =>
        if isBlank b then
          some (lead ++ word ++ b :: behind.takeWhile (· != '\n'), behind.dropWhile (· != '\n'))
        else none
    | [] => none
  else none

/-- A text split behind the first line with a package declaration; `lineStart` says
whether a line starts here. -/
def splitAtPackage : Bool → List Char → Option (List Char × List Char)
  | _, [] => none
  | lineStart, c :: cs =>
    match if lineStart then packageLine? (c :: cs) else none with
    | some split => some split
    | none => (splitAtPackage (c == '\n') cs).map fun (head, rest) ↦ (c :: head, rest)

/-- The lines that state no import, joined again. -/
def bodyOf (text : String) : String :=
  String.intercalate "\n" ((Text.lines text).filter fun l ↦ (ImportLine.parse? l).isNone)

/-- End the text with a line feed. -/
def endLine (cs : List Char) : List Char := if cs.getLast? = some '\n' then cs else cs ++ ['\n']

def importBlock (imports : List ImportLine) : String :=
  if imports.isEmpty then "" else String.join (imports.map (·.statement ++ "\n")) ++ "\n"

/-- The generated text with its imports repaired, given the text of the common file.
There is nothing to repair without a package declaration. -/
def repair (generated common : String) (package : Option String) : Option String :=
  let imports := union (importsOf generated) (importsOf common)
  let body := shortenNames imports package (bodyOf generated).toList
  (splitAtPackage true body).map fun (head, rest) ↦
    String.ofList (endLine
      (head ++ '\n' :: '\n' :: (importBlock imports).toList ++ dropBlanks rest))

end PlatformOverlay.Imports
