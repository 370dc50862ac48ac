import PlatformOverlay.Toml.Value

/-!
# The lexical forms of TOML

Each form takes characters from the front of a text and returns what they denote with
the characters left, or nothing if the text does not start with that form.
-/

namespace PlatformOverlay.Toml

def isDigit (c : Char) : Bool := '0' ≤ c && c ≤ '9'

def isHexDigit (c : Char) : Bool :=
  isDigit c || ('a' ≤ c && c ≤ 'f') || ('A' ≤ c && c ≤ 'F')

def isOctalDigit (c : Char) : Bool := '0' ≤ c && c ≤ '7'

def isBinaryDigit (c : Char) : Bool := c == '0' || c == '1'

def isSpace (c : Char) : Bool := c == ' ' || c == '\t'

/-- What may stand in comments and, quotes and backslashes aside, in strings. -/
def isPrintable (c : Char) : Bool := c == '\t' || (' ' ≤ c && c != '\x7f')

def isBareKey (c : Char) : Bool :=
  isDigit c || ('a' ≤ c && c ≤ 'z') || ('A' ≤ c && c ≤ 'Z') || c == '-' || c == '_'

def digitValue (c : Char) : Nat :=
  if isDigit c then c.toNat - '0'.toNat
  else if 'a' ≤ c then c.toNat - 'a'.toNat + 10
  else c.toNat - 'A'.toNat + 10

def natOfDigits (base : Nat) (digits : List Char) : Nat :=
  digits.foldl (fun n d ↦ n * base + digitValue d) 0

/-! ## Line ends and comments -/

/-- The characters behind a line end. -/
def newline? : List Char → Option (List Char)
  | '\n' :: cs => some cs
  | '\r' :: '\n' :: cs => some cs
  | _ => none

/-- The characters behind a comment, if one stands here. -/
def dropComment : List Char → List Char
  | '#' :: cs => cs.dropWhile isPrintable
  | cs => cs

/-! ## Strings -/

/-- The character with a code point in hexadecimal digits. -/
def codePoint? (digits : List Char) : Option Char :=
  let n := natOfDigits 16 digits
  if digits.all isHexDigit ∧ n.isValidChar then some (Char.ofNat n) else none

/-- The character that a letter behind a backslash stands for. -/
def simpleEscape? (c : Char) : Option Char :=
  if c = 'b' then some '\x08'
  else if c = 't' then some '\t'
  else if c = 'n' then some '\n'
  else if c = 'f' then some '\x0c'
  else if c = 'r' then some '\r'
  else if c = '"' then some '"'
  else if c = '\\' then some '\\'
  else none

def consing (c : Char) : Option (List Char × List Char) → Option (List Char × List Char) :=
  Option.map fun (text, rest) ↦ (c :: text, rest)

/-- The rest of a string in double quotes on one line. -/
def basicString : List Char → Option (List Char × List Char)
  | [] => none
  | '"' :: cs => some ([], cs)
  | '\\' :: 'u' :: a :: b :: c :: d :: cs => do
      consing (← codePoint? [a, b, c, d]) (basicString cs)
  | '\\' :: 'U' :: a :: b :: c :: d :: e :: f :: g :: h :: cs => do
      consing (← codePoint? [a, b, c, d, e, f, g, h]) (basicString cs)
  | '\\' :: c :: cs => do consing (← simpleEscape? c) (basicString cs)
  | c :: cs => if isPrintable c ∧ c ≠ '\\' then consing c (basicString cs) else none

/-- The rest of a string in single quotes on one line. -/
def literalString : List Char → Option (List Char × List Char)
  | [] => none
  | c :: cs =>
      if c = '\'' then some ([], cs)
      else if isPrintable c then consing c (literalString cs)
      else none

/-- The quotes behind three closing ones: up to two of them belong to the text. -/
def closingQuotes (quote : Char) (cs : List Char) : Option (List Char × List Char) :=
  let extra := cs.takeWhile (· == quote)
  if extra.length ≤ 2 then some (extra, cs.dropWhile (· == quote)) else none

/-- Only blanks stand between here and the end of the line. -/
def endsLine (cs : List Char) : Bool := (newline? (cs.dropWhile isSpace)).isSome

/-- The rest of a string in three double quotes.  A backslash at the end of a line takes
all blanks and line ends behind it with it; `trimming` says that this goes on here. -/
def multiBasic : Bool → List Char → Option (List Char × List Char)
  | _, [] => none
  | trimming, '\n' :: cs =>
      if trimming then multiBasic true cs else consing '\n' (multiBasic false cs)
  | trimming, '\r' :: '\n' :: cs =>
      if trimming then multiBasic true cs else consing '\n' (multiBasic false cs)
  | _, '"' :: '"' :: '"' :: cs => closingQuotes '"' cs
  | _, '\\' :: 'u' :: a :: b :: c :: d :: cs => do
      consing (← codePoint? [a, b, c, d]) (multiBasic false cs)
  | _, '\\' :: 'U' :: a :: b :: c :: d :: e :: f :: g :: h :: cs => do
      consing (← codePoint? [a, b, c, d, e, f, g, h]) (multiBasic false cs)
  | _, '\\' :: c :: cs =>
      if endsLine (c :: cs) then multiBasic true (c :: cs)
      else do consing (← simpleEscape? c) (multiBasic false cs)
  | trimming, c :: cs =>
      if trimming ∧ isSpace c then multiBasic true cs
      else if isPrintable c ∧ c ≠ '\\' then consing c (multiBasic false cs)
      else none

/-- The rest of a string in three single quotes. -/
def multiLiteral : List Char → Option (List Char × List Char)
  | [] => none
  | '\'' :: '\'' :: '\'' :: cs => closingQuotes '\'' cs
  | '\r' :: '\n' :: cs => consing '\n' (multiLiteral cs)
  | c :: cs => if c = '\n' ∨ isPrintable c then consing c (multiLiteral cs) else none

/-- A line end directly behind the opening quotes does not count. -/
def dropFirstNewline (cs : List Char) : List Char := (newline? cs).getD cs

def string? : List Char → Option (String × List Char)
  | '"' :: '"' :: '"' :: cs =>
      (multiBasic false (dropFirstNewline cs)).map fun (t, r) ↦ (String.ofList t, r)
  | '"' :: cs => (basicString cs).map fun (t, r) ↦ (String.ofList t, r)
  | '\'' :: '\'' :: '\'' :: cs =>
      (multiLiteral (dropFirstNewline cs)).map fun (t, r) ↦ (String.ofList t, r)
  | '\'' :: cs => (literalString cs).map fun (t, r) ↦ (String.ofList t, r)
  | _ => none

/-- One segment of a key: bare, or a string on one line. -/
def simpleKey? (cs : List Char) : Option (String × List Char) :=
  match cs with
  | '"' :: rest => (basicString rest).map fun (t, r) ↦ (String.ofList t, r)
  | '\'' :: rest => (literalString rest).map fun (t, r) ↦ (String.ofList t, r)
  | _ =>
      let bare := cs.takeWhile isBareKey
      if bare.isEmpty then none else some (String.ofList bare, cs.dropWhile isBareKey)

/-! ## Dates and times -/

/-- A fixed number of digits whose value lies in a range. -/
def digitsIn? (count low high : Nat) (cs : List Char) : Option (Nat × List Char) :=
  let ds := cs.take count
  let n := natOfDigits 10 ds
  if ds.length = count ∧ ds.all isDigit ∧ low ≤ n ∧ n ≤ high then some (n, cs.drop count)
  else none

def char? (c : Char) : List Char → Option (List Char)
  | d :: cs => if d = c then some cs else none
  | [] => none

def daysIn (year month : Nat) : Nat :=
  if month = 2 then if year % 4 = 0 ∧ (year % 100 ≠ 0 ∨ year % 400 = 0) then 29 else 28
  else if [4, 6, 9, 11].contains month then 30
  else 31

/-- The month and the day behind the year. -/
def monthDay? (year : Nat) (cs : List Char) : Option (List Char) := do
  let (month, cs) ← digitsIn? 2 1 12 cs
  let (_, cs) ← digitsIn? 2 1 (daysIn year month) (← char? '-' cs)
  return cs

/-- A point with digits behind it. -/
def dropFraction : List Char → List Char
  | '.' :: d :: cs => if isDigit d then cs.dropWhile isDigit else '.' :: d :: cs
  | cs => cs

/-- The minutes and seconds behind the hour. -/
def minuteSecond? (cs : List Char) : Option (List Char) := do
  let (_, cs) ← digitsIn? 2 0 59 cs
  let (_, cs) ← digitsIn? 2 0 60 (← char? ':' cs)
  return dropFraction cs

/-- The hour with its colon, where a time stands. -/
def hour? (cs : List Char) : Option (List Char) := do
  let (_, cs) ← digitsIn? 2 0 23 cs
  char? ':' cs

def offset? : List Char → Option (List Char)
  | [] => some []
  | c :: cs =>
      if c = 'Z' ∨ c = 'z' then some cs
      else if c = '+' ∨ c = '-' then do
        let (_, cs) ← digitsIn? 2 0 59 (← hour? cs)
        return cs
      else some (c :: cs)

/-- A time and an offset behind a date, if they stand there. -/
def timeOfDate? : List Char → Option (List Char)
  | [] => some []
  | c :: cs =>
      if c = 'T' ∨ c = 't' ∨ c = ' ' then
        match hour? cs with
        | some rest => do offset? (← minuteSecond? rest)
        | none => some (c :: cs)
      else some (c :: cs)

/-- The year with its dash, where a date stands. -/
def year? (cs : List Char) : Option (Nat × List Char) := do
  let (year, cs) ← digitsIn? 4 0 9999 cs
  return (year, ← char? '-' cs)

/-! ## Numbers -/

/-- Digits behind the first one; an underscore needs a digit on either side. -/
def moreDigits (digit : Char → Bool) : List Char → Option (List Char × List Char)
  | [] => some ([], [])
  | '_' :: d :: cs => if digit d then consing d (moreDigits digit cs) else none
  | d :: cs =>
      if d = '_' then none
      else if digit d then consing d (moreDigits digit cs)
      else some ([], d :: cs)

/-- One or more digits. -/
def digitRun (digit : Char → Bool) : List Char → Option (List Char × List Char)
  | [] => none
  | d :: cs => if digit d then consing d (moreDigits digit cs) else none

/-- A whole number in decimal digits: no zero in front of other digits. -/
def wholeDigits : List Char → Option (List Char × List Char)
  | '0' :: cs => some (['0'], cs)
  | cs => digitRun isDigit cs

/-- Whether a sign is negative, and what follows it. -/
def sign : List Char → Bool × List Char
  | '-' :: cs => (true, cs)
  | '+' :: cs => (false, cs)
  | cs => (false, cs)

/-- Digits behind a point, if there is one. -/
def fraction? : List Char → Option (List Char × List Char)
  | '.' :: cs => digitRun isDigit cs
  | cs => some ([], cs)

/-- A power of ten, if there is one. -/
def power? : List Char → Option (Int × List Char)
  | c :: cs =>
      if c = 'e' ∨ c = 'E' then do
        let (negative, cs) := sign cs
        let (ds, cs) ← digitRun isDigit cs
        let n : Int := natOfDigits 10 ds
        return (if negative then -n else n, cs)
      else some (0, c :: cs)
  | [] => some (0, [])

/-- The number of a sign, digits before and behind the point, and a power of ten.  A
number that is too large is only accepted with a minus sign. -/
def floatOf? (negative : Bool) (whole fraction : List Char) (power : Int) : Option Number :=
  let d : Decimal := ⟨natOfDigits 10 (whole ++ fraction), power - fraction.length⟩
  match d.toBinary? with
  | some b => some (.finite negative b)
  | none => if negative then some (.infinite true) else none

/-- Integers are those of 64 bits. -/
def integerOf? (negative : Bool) (magnitude : Nat) : Option Int :=
  if magnitude < Nat.pow 2 63 ∨ (negative ∧ magnitude = Nat.pow 2 63) then
    some (if negative then -(magnitude : Int) else magnitude)
  else none

/-- An integer in the digits of another base. -/
def radixInteger? (base : Nat) (digit : Char → Bool) (cs : List Char) :
    Option (Scalar × List Char) := do
  let (ds, rest) ← digitRun digit cs
  return (.integer (← integerOf? false (natOfDigits base ds)), rest)

def decimalNumber? (cs : List Char) : Option (Scalar × List Char) := do
  let (negative, cs) := sign cs
  let (whole, cs) ← wholeDigits cs
  let isFloat := cs.head?.any fun c ↦ c == '.' || c == 'e' || c == 'E'
  if isFloat then
    let (fraction, cs) ← fraction? cs
    let (power, cs) ← power? cs
    return (.float (← floatOf? negative whole fraction power), cs)
  else return (.integer (← integerOf? negative (natOfDigits 10 whole)), cs)

/-- What follows a word at the front. -/
def dropWord? (word : String) (cs : List Char) : Option (List Char) :=
  if word.toList.isPrefixOf cs then some (cs.drop word.length) else none

def specialFloat? (cs : List Char) : Option (Scalar × List Char) :=
  let (negative, rest) := sign cs
  match dropWord? "inf" rest, dropWord? "nan" rest with
  | some rest, _ => some (.float (.infinite negative), rest)
  | none, some rest => some (.float .notANumber, rest)
  | none, none => none

/-- A date or time, or a number.  What starts like one of them has to be one. -/
def number? (cs : List Char) : Option (Scalar × List Char) :=
  match year? cs, hour? cs, cs with
  | some (year, rest), _, _ => do
      return (.datetime, ← timeOfDate? (← monthDay? year rest))
  | none, some rest, _ => do return (.datetime, ← minuteSecond? rest)
  | none, none, '0' :: 'x' :: rest => radixInteger? 16 isHexDigit rest
  | none, none, '0' :: 'o' :: rest => radixInteger? 8 isOctalDigit rest
  | none, none, '0' :: 'b' :: rest => radixInteger? 2 isBinaryDigit rest
  | none, none, _ => specialFloat? cs <|> decimalNumber? cs

/-- A value that is neither an array nor a table. -/
def scalar? (cs : List Char) : Option (Scalar × List Char) :=
  match cs.head? with
  | none => none
  | some c =>
      if c = '"' ∨ c = '\'' then (string? cs).map fun (t, r) ↦ (.string t, r)
      else if c = '+' ∨ c = '-' ∨ isDigit c ∨ c = 'i' ∨ c = 'n' then number? cs
      else if c = 't' then (dropWord? "true" cs).map (Scalar.boolean true, ·)
      else if c = 'f' then (dropWord? "false" cs).map (Scalar.boolean false, ·)
      else none

end PlatformOverlay.Toml
