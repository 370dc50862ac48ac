import PlatformOverlay.Text.Lines

/-!
# Re-indenting source text

Text that started at one column is moved to another: the first line stays as it is,
and every later line loses the indentation that it shared with the start of the text
and gains the new one.
-/

namespace PlatformOverlay.Java

def isIndent (c : Char) : Bool := c == ' ' || c == '\t'

/-- Without the carriage returns at the end of the line. -/
def dropReturns (line : List Char) : List Char := (line.reverse.dropWhile (· == '\r')).reverse

/-- Without the blanks and tabs at the start, of which at most `column` go. -/
def unindent : Nat → List Char → List Char
  | column + 1, c :: cs => if isIndent c then unindent column cs else c :: cs
  | _, cs => cs

/-- A line after the first.  A line with nothing on it gets no indentation. -/
def reindentLine (column : Nat) (indent line : List Char) : List Char :=
  match unindent column (dropReturns line) with
  | [] => []
  | c :: cs => indent ++ c :: cs

def reindent (text : String) (column : Nat) (indent : String) : String :=
  match Text.splitChars '\n' text.toList with
  | [] => ""
  | first :: rest =>
      String.ofList (first ++ rest.flatMap fun line ↦
        '\n' :: reindentLine column indent.toList line)

end PlatformOverlay.Java
