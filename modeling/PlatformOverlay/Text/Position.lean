/-!
# Positions in a text

A position is a line and a column, both counted from zero; the column counts the
UTF-8 bytes since the last line feed.  `Position.advance` moves a position over a
piece of text, and `LineIndex` answers the same question for a byte offset, also one
that lies past the end of the text.
-/

namespace PlatformOverlay.Text

structure Position where
  line : Nat
  column : Nat
deriving DecidableEq, Repr, Inhabited

namespace Position

def origin : Position := ⟨0, 0⟩

def step (p : Position) (c : Char) : Position :=
  if c = '\n' then ⟨p.line + 1, 0⟩ else ⟨p.line, p.column + c.utf8Size⟩

/-- The position after a piece of text that starts at `p`. -/
def advance (p : Position) (text : String) : Position := text.toList.foldl step p

/-- Positions are shown with both parts counted from one. -/
def render (p : Position) : String := s!"{p.line + 1}:{p.column + 1}"

@[simp] theorem step_lineFeed (p : Position) : p.step '\n' = ⟨p.line + 1, 0⟩ := rfl

/-- A character other than a line feed moves the column on by the bytes of its encoding. -/
theorem step_of_ne (p : Position) {c : Char} (h : c ≠ '\n') :
    p.step c = ⟨p.line, p.column + c.utf8Size⟩ := if_neg h

@[simp] theorem advance_empty (p : Position) : p.advance "" = p := rfl

/-- Walking over two texts is walking over the first and from there over the second. -/
@[simp] theorem advance_append (p : Position) (a b : String) :
    p.advance (a ++ b) = (p.advance a).advance b := by
  simp [advance, String.toList_append]

end Position

/-- Where the lines of a text start.  The first line starts at zero and is not
stored, so there is always at least one line. -/
structure LineIndex where
  /-- Byte offsets of the starts of all lines but the first, ascending. -/
  later : List Nat
deriving DecidableEq, Repr

namespace LineIndex

/-- The offsets just after each line feed of `cs`, a text whose first byte has
the given offset. -/
def startsAfter : Nat → List Char → List Nat
  | _, [] => []
  | offset, c :: cs =>
      if c = '\n' then (offset + 1) :: startsAfter (offset + 1) cs
      else startsAfter (offset + c.utf8Size) cs

def ofText (text : String) : LineIndex := ⟨startsAfter 0 text.toList⟩

def starts (index : LineIndex) : List Nat := 0 :: index.later

def lineCount (index : LineIndex) : Nat := index.starts.length

/-- The line of an offset is the last one that starts at or before it. -/
def position (index : LineIndex) (offset : Nat) : Position :=
  let passed := index.later.takeWhile (· ≤ offset)
  ⟨passed.length, offset - passed.getLastD 0⟩

end LineIndex

end PlatformOverlay.Text
