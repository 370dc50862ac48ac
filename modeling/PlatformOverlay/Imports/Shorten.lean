import PlatformOverlay.Imports.Statement

/-!
# Shortening names

A qualified name may be written shorter when it is imported, or when it lies in the package of the
file or in `java.lang`.  A name is only looked for where one can start: at the start of a line, or
behind a character that is no part of a name and no dot.

There are two passes, each from left to right. The first one writes the simple name for the path of
an import, the longest path that is found there; it has to end at a word boundary. The second one
leaves out the name of a package in front of an upper case letter, and does not look at what the
name goes on with. What one pass has replaced is not looked at again by the same pass.
-/

namespace PlatformOverlay.Imports

/-- What replaces some characters at the front of a text, and how many they are. -/
structure Replacement where
  text : List Char
  length : Nat
deriving DecidableEq, Repr

/-- Replace what `find` finds wherever a name can start, from left to right; `lineStart`
says whether a line starts here, and `skip` characters in front are already replaced. -/
def replaceNames (find : List Char → Option Replacement) :
    Nat → Bool → List Char → List Char
  | _, _, [] => []
  | skip + 1, _, c :: cs => replaceNames find skip (c == '\n') cs
  | 0, lineStart, c :: cs =>
    match if lineStart then find (c :: cs) else none with
    | some r => r.text ++ replaceNames find (r.length - 1) (c == '\n') cs
    | none =>
      match if isNameChar c || c == '.' then none else find cs with
      | some r => c :: r.text ++ replaceNames find r.length (c == '\n') cs
      | none => c :: replaceNames find 0 (c == '\n') cs

def isWordBoundary (before after : Option Char) : Bool :=
  before.any Text.isWordChar != after.any Text.isWordChar

/-- Does the text start with a path that ends at a word boundary? -/
def startsWithPath (path : List Char) (cs : List Char) : Bool :=
  path.isPrefixOf cs && isWordBoundary path.getLast? (cs.drop path.length).head?

/-- The paths of the imports that can be shortened: longer ones first, those of equal
length in order. -/
def shortenable (imports : List ImportLine) : List ImportLine :=
  (imports.filter fun i ↦ !i.isWildcard).mergeSort fun a b ↦
    if a.path.utf8ByteSize = b.path.utf8ByteSize then !decide (b.path < a.path)
    else decide (b.path.utf8ByteSize < a.path.utf8ByteSize)

/-- The simple name of the first import whose path stands in front. -/
def findImported (imports : List ImportLine) (cs : List Char) : Option Replacement :=
  (imports.find? fun i ↦ startsWithPath i.path.toList cs).map fun i ↦
    ⟨i.reference.toList, i.path.length⟩

/-- An upper case letter behind one of the packages and a dot. -/
def findImplicit (packages : List String) (cs : List Char) : Option Replacement :=
  packages.findSome? fun package ↦
    if (package.toList ++ ['.']).isPrefixOf cs then
      match cs.drop (package.length + 1) with
      | c :: _ => if 'A' ≤ c ∧ c ≤ 'Z' then some ⟨[c], package.length + 2⟩ else none
      | [] => none
    else none

/-- Shorten imported names, then those of `java.lang` and of the package. -/
def shortenNames (imports : List ImportLine) (package : Option String) (text : List Char) :
    List Char :=
  let imported := replaceNames (findImported (shortenable imports)) 0 true text
  replaceNames (findImplicit ("java.lang" :: package.toList)) 0 true imported

end PlatformOverlay.Imports
