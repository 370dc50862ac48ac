/-!
# Splitting a text

`splitOn` cuts at every occurrence of one character and keeps the empty pieces, so
that joining the pieces with the character gives the text back.  `lines` reads a text
as lines: a line feed ends a line, a carriage return directly before it belongs to the
line end, and nothing follows a final line feed.
-/

namespace PlatformOverlay.Text

/-- Put a character in front of the first piece. -/
def extendFirst (c : Char) : List (List Char) → List (List Char)
  | [] => [[c]]
  | piece :: pieces => (c :: piece) :: pieces

def splitChars (sep : Char) (cs : List Char) : List (List Char) :=
  cs.foldr (fun c pieces ↦ if c = sep then [] :: pieces else extendFirst c pieces) [[]]

@[simp] theorem splitChars_nil (sep : Char) : splitChars sep [] = [[]] := rfl

theorem splitChars_cons (sep c : Char) (cs : List Char) :
    splitChars sep (c :: cs) =
      if c = sep then [] :: splitChars sep cs else extendFirst c (splitChars sep cs) := rfl

theorem splitChars_ne_nil (sep : Char) (cs : List Char) : splitChars sep cs ≠ [] := by
  cases cs with
  | nil => simp
  | cons c cs =>
    rw [splitChars_cons]
    split
    · simp
    · cases splitChars sep cs <;> simp [extendFirst]

def splitOn (sep : Char) (text : String) : List String :=
  (splitChars sep text.toList).map String.ofList

/-- The piece after the last occurrence of `sep`, or the whole text. -/
def afterLast (sep : Char) (text : String) : String := (splitOn sep text).getLastD text

/-- Drop one carriage return at the end. -/
def dropReturn (line : List Char) : List Char :=
  if line.getLast? = some '\r' then line.dropLast else line

/-- The lines of the pieces between line feeds: the last piece was not ended by a line
feed, so it keeps its carriage return, and is no line at all when it is empty. -/
def linesOfPieces : List (List Char) → List (List Char)
  | [] => []
  | [last] => if last.isEmpty then [] else [last]
  | piece :: pieces => dropReturn piece :: linesOfPieces pieces

def lines (text : String) : List String :=
  (linesOfPieces (splitChars '\n' text.toList)).map String.ofList

end PlatformOverlay.Text
