import PlatformOverlay.Text.Lines

/-!
# Paths

A path is kept as it was written.  What it denotes depends on its components alone:
repeated and trailing slashes do not matter, nor does a `.` unless it comes first.
-/

namespace PlatformOverlay

open Text (splitOn)

structure Path where
  text : String
deriving DecidableEq, Repr, Inhabited

namespace Path

inductive Component where
  | root
  | here
  | up
  | name (text : String)
deriving DecidableEq, Repr

namespace Component

/-- The component that a piece between slashes stands for, the first piece aside. -/
def ofPiece? (piece : String) : Option Component :=
  if piece = "" ∨ piece = "." then none
  else if piece = ".." then some .up
  else some (.name piece)

def name? : Component → Option String
  | .name text => some text
  | .root | .here | .up => none

end Component

/-- A piece of a path between two slashes, with the component that it stands for. -/
structure Piece where
  text : String
  component : Option Component
deriving DecidableEq, Repr

def isAbsolute (p : Path) : Bool := p.text.startsWith "/"

/-- The first piece is the root when a slash follows nothing. -/
def firstPiece (text : String) (alone : Bool) : Piece :=
  if text = "" then ⟨text, if alone then none else some .root⟩
  else if text = "." then ⟨text, some .here⟩
  else ⟨text, Component.ofPiece? text⟩

def pieces (p : Path) : List Piece :=
  match splitOn '/' p.text with
  | [] => []
  | first :: rest =>
      firstPiece first rest.isEmpty :: rest.map fun t ↦ ⟨t, Component.ofPiece? t⟩

def components (p : Path) : List Component := p.pieces.filterMap Piece.component

/-- Do two paths have the same components? -/
def same (p q : Path) : Bool := p.components = q.components

/-- Drop the pieces at the end that stand for nothing. -/
def dropIdleEnd (ps : List Piece) : List Piece :=
  (ps.reverse.dropWhile fun p ↦ p.component.isNone).reverse

def ofPieces (ps : List Piece) : Path :=
  match ps with
  | [⟨_, some .root⟩] => ⟨"/"⟩
  | _ => ⟨String.intercalate "/" (ps.map Piece.text)⟩

/-- `b` seen from `a`: an absolute `b` stands for itself. -/
def join (a b : Path) : Path :=
  if b.isAbsolute || a.text.isEmpty then b
  else if a.text.endsWith "/" then ⟨a.text ++ b.text⟩
  else ⟨a.text ++ "/" ++ b.text⟩

def parent? (p : Path) : Option Path :=
  match (dropIdleEnd p.pieces).reverse with
  | [] => none
  | last :: before =>
      if last.component = some .root then none else some (ofPieces (dropIdleEnd before.reverse))

/-- The last component, if it is a name. -/
def fileName? (p : Path) : Option String := p.components.getLast?.bind Component.name?

/-- What follows the last dot of the file name; a dot in front does not count. -/
def extension? (p : Path) : Option String := do
  let name ← p.fileName?
  match splitOn '.' name with
  | [_] => none
  | ["", _] => none
  | parts => parts.getLast?

/-- The pieces after the first `n` components and what is idle behind these. -/
def dropComponents : Nat → List Piece → List Piece
  | 0, ps => ps
  | _, [] => []
  | n + 1, p :: ps =>
      if p.component.isNone then dropComponents (n + 1) ps
      else if n = 0 then ps.dropWhile fun q ↦ q.component.isNone
      else dropComponents n ps

/-- The path of `p` seen from `base`, if `p` lies at or below it. -/
def relativeTo? (p base : Path) : Option Path :=
  let base := base.components
  if base.isPrefixOf p.components then
    some (ofPieces (dropIdleEnd (dropComponents base.length p.pieces)))
  else none

end Path

end PlatformOverlay
