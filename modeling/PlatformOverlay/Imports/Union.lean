import PlatformOverlay.Imports.Statement

/-!
# The union of import lists

At most one import brings a simple name into scope, and a wildcard is imported once.
Static imports are kept apart from the others.  Where two imports have the same key the
first one stays.
-/

namespace PlatformOverlay.Imports

/-- What an import occupies: a simple name, or the path of a wildcard. -/
structure ImportKey where
  isStatic : Bool
  isWildcard : Bool
  name : String
deriving DecidableEq, Repr

namespace ImportLine

def key (line : ImportLine) : ImportKey :=
  ⟨line.isStatic, line.isWildcard, if line.isWildcard then line.path else line.reference⟩

/-- Imports are ordered by their statements, static ones last. -/
def isAtMost (a b : ImportLine) : Bool :=
  if a.isStatic = b.isStatic then !decide (b.statement < a.statement) else b.isStatic

end ImportLine

/-- The first import with each key. -/
def firstOfEachKey : List ImportLine → List ImportLine
  | [] => []
  | line :: lines => line :: (firstOfEachKey lines).filter (·.key ≠ line.key)

/-- The imports of both lists in order; the first list wins a conflict. -/
def union (primary secondary : List ImportLine) : List ImportLine :=
  (firstOfEachKey (primary ++ secondary)).mergeSort ImportLine.isAtMost

end PlatformOverlay.Imports
