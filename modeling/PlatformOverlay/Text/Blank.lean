/-!
# Blank characters

The characters with the `White_Space` property, and what can be said of a text in
terms of them: trimming its ends and taking it apart into words.
-/

namespace PlatformOverlay.Text

/-- The twenty-five characters with the `White_Space` property. -/
def isBlank (c : Char) : Bool :=
  ('\t' ≤ c && c ≤ '\r') || c == ' ' || c == '\x85' || c == '\xa0' || c == '\u1680' ||
    ('\u2000' ≤ c && c ≤ '\u200a') || c == '\u2028' || c == '\u2029' || c == '\u202f' ||
    c == '\u205f' || c == '\u3000'

def dropBlanks (cs : List Char) : List Char := cs.dropWhile isBlank

def dropBlanksEnd (cs : List Char) : List Char := (cs.reverse.dropWhile isBlank).reverse

def trim (text : String) : String := String.ofList (dropBlanksEnd (dropBlanks text.toList))

/-- The maximal runs of characters that satisfy `keep`. -/
def runs (keep : Char → Bool) (cs : List Char) : List (List Char) :=
  let opened := cs.foldr
    (fun c (open_, done) ↦ if keep c then (c :: open_, done)
      else ([], if open_.isEmpty then done else open_ :: done))
    (([], []) : List Char × List (List Char))
  if opened.1.isEmpty then opened.2 else opened.1 :: opened.2

/-- The words of a text: its maximal runs of characters that are not blank. -/
def words (text : String) : List String :=
  (runs (fun c ↦ !isBlank c) text.toList).map String.ofList

end PlatformOverlay.Text
