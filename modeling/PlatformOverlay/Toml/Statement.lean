import PlatformOverlay.Toml.Lexeme

/-!
# TOML statements

A document is a sequence of lines that open a table or give a key its value.  Arrays
and inline tables may be nested to a fixed depth, and keys have a fixed number of
segments at most; the readers recurse on what is left of these bounds.
-/

namespace PlatformOverlay.Toml

inductive Statement where
  | entry (path : List Key) (key : Key) (value : Value)
  /-- A header in single brackets opens a table. -/
  | tableHeader (path : List Key) (key : Key) (line : Nat)
  /-- A header in double brackets opens the next table of an array. -/
  | arrayHeader (path : List Key) (key : Key) (line : Nat)

/-- Arrays and inline tables that may stand inside each other. -/
def maxDepth : Nat := 79

def maxSegments : Nat := 79

/-- The line on which the rest of a document with so many line ends starts. -/
def lineOf (newlines : Nat) (rest : List Char) : Nat := newlines - rest.count '\n' + 1

def dropSpace (cs : List Char) : List Char := cs.dropWhile isSpace

/-- What follows blanks, line ends and comments.  A comment has to end with its line;
the flag says that one is open. -/
def dropFiller : Bool → List Char → Option (List Char)
  | false, [] => some []
  | true, [] => none
  | _, '\n' :: cs => dropFiller false cs
  | _, '\r' :: '\n' :: cs => dropFiller false cs
  | false, c :: cs =>
      if isSpace c then dropFiller false cs
      else if c = '#' then dropFiller true cs
      else some (c :: cs)
  | true, c :: cs => if isPrintable c then dropFiller true cs else none

/-- A key of segments with points between them: the segments before the last one, and
the last one. -/
def key? (newlines : Nat) : Nat → List Char → Option ((List Key × Key) × List Char)
  | 0, _ => none
  | more + 1, cs => do
      let start := dropSpace cs
      let (text, rest) ← simpleKey? start
      let key : Key := ⟨text, lineOf newlines start⟩
      match dropSpace rest with
      | '.' :: rest => do
          let ((path, last), rest) ← key? newlines more rest
          return ((key :: path, last), rest)
      | rest => return (([], key), rest)

/-! ## Values -/

/-- A reader of values. -/
abbrev ValueReader := List Char → Option (Value × List Char)

/-- The rest of an array of so many values at most. -/
def arrayItems (value? : ValueReader) : Nat → List Char → Option (List Value × List Char)
  | 0, _ => none
  | more + 1, cs => do
    match ← dropFiller false cs with
    | ']' :: rest => return ([], rest)
    | start => do
      let (v, rest) ← value? start
      match ← dropFiller false rest with
      | ']' :: rest => return ([v], rest)
      | ',' :: rest => do
          let (vs, rest) ← arrayItems value? more rest
          return (v :: vs, rest)
      | _ => none

/-- A key, an equals sign and a value. -/
def keyValue? (newlines : Nat) (value? : ValueReader) (cs : List Char) :
    Option ((List Key × Key × Value) × List Char) := do
  let ((path, key), rest) ← key? newlines maxSegments cs
  let (v, rest) ← value? (dropSpace (← char? '=' rest))
  return ((path, key, v), rest)

/-- The rest of an inline table of so many entries at most. -/
def inlineEntries (newlines : Nat) (value? : ValueReader) :
    Nat → Table → List Char → Option (Table × List Char)
  | 0, _, _ => none
  | more + 1, t, cs => do
      let ((path, key, v), rest) ← keyValue? newlines value? cs
      let t ← t.insert path key v
      match dropSpace rest with
      | '}' :: rest => return (t, rest)
      | ',' :: rest => inlineEntries newlines value? more t rest
      | _ => none

/-- A value in which arrays and inline tables are nested so deep at most. -/
def value? (newlines : Nat) : Nat → ValueReader
  | depth + 1, '[' :: rest => do
      let (vs, after) ← arrayItems (value? newlines depth) (rest.length + 1) rest
      return (.array (lineOf newlines rest) vs, after)
  | depth + 1, '{' :: rest => do
      let t := Table.empty .inline (some (lineOf newlines rest))
      match dropSpace rest with
      | '}' :: after => return (.table t, after)
      | _ => do
          let (t, after) ← inlineEntries newlines (value? newlines depth) (rest.length + 1) t rest
          return (.table t, after)
  | _, cs => (scalar? cs).map fun (s, rest) ↦ (.scalar (lineOf newlines cs) s, rest)

/-! ## Lines -/

/-- What follows the line, of which only blanks and a comment are left. -/
def endLine? (cs : List Char) : Option (List Char) :=
  match dropComment (dropSpace cs) with
  | [] => some []
  | rest => newline? rest

/-- The statement at the front of a line, and what follows it on the line. -/
def statement? (newlines : Nat) (cs : List Char) : Option (Statement × List Char) :=
  match cs with
  | '[' :: '[' :: rest => do
      let ((path, key), rest) ← key? newlines maxSegments rest
      return (.arrayHeader path key (lineOf newlines cs), ← char? ']' (← char? ']' rest))
  | '[' :: rest => do
      let ((path, key), rest) ← key? newlines maxSegments rest
      return (.tableHeader path key (lineOf newlines cs), ← char? ']' rest)
  | _ => do
      let ((path, key, v), rest) ← keyValue? newlines (value? newlines maxDepth) cs
      return (.entry path key v, rest)

/-- The statements of so many lines at most. -/
def statementLines (newlines : Nat) : Nat → List Char → Option (List Statement)
  | 0, cs => if cs.isEmpty then some [] else none
  | more + 1, cs =>
    match dropSpace cs with
    | [] => some []
    | start =>
      match endLine? start with
      | some rest => statementLines newlines more rest
      | none => do
          let (s, rest) ← statement? newlines start
          return s :: (← statementLines newlines more (← endLine? rest))

/-- A byte order mark in front of the text does not count. -/
def dropByteOrderMark : List Char → List Char
  | '\ufeff' :: cs => cs
  | cs => cs

def statements? (text : String) : Option (List Statement) :=
  let cs := dropByteOrderMark text.toList
  let newlines := cs.count '\n'
  statementLines newlines (newlines + 1) cs

end PlatformOverlay.Toml
