import PlatformOverlay.Java.Token

/-!
# Reading tokens

`scan` reads the longest token at the front of a text and `tokenize` a whole text. The scanners
return the characters taken and the characters left; put together they are the text again
(`scan_append`), and at least one is taken (`length_lt_of_scan`), which bounds the loop.

Operators are read one character at a time and are not put together. Comments are tokens, so that
nothing but blanks is skipped, and each token has the blanks in front of it. A text that ends within
a comment or a literal has no tokens: the error is where it begins.
-/

namespace PlatformOverlay.Java.Lexer

/-- The blanks between tokens. -/
def isSkipped (c : Char) : Bool :=
  c == ' ' || c == '\t' || c == '\r' || c == '\n' || c == '\x0c'

def isDigit (c : Char) : Bool := '0' ≤ c && c ≤ '9'

def isLetter (c : Char) : Bool := ('a' ≤ c && c ≤ 'z') || ('A' ≤ c && c ≤ 'Z')

/-- Every character beyond ASCII may stand in a name. -/
def isIdentStart (c : Char) : Bool := isLetter c || c == '_' || c == '$' || '\x80' ≤ c

def isIdentPart (c : Char) : Bool := isIdentStart c || isDigit c

def isNumberPart (c : Char) : Bool := isDigit c || isLetter c || c == '_'

def isOperator (c : Char) : Bool :=
  ['+', '-', '*', '/', '%', '!', '~', '|', '^', '&', '=', '?', ':'].contains c

/-- Characters taken and characters left. -/
abbrev Split := List Char × List Char

/-- Put characters in front of the taken ones. -/
def taking (taken : List Char) (s : Split) : Split := (taken ++ s.1, s.2)

def spanWhile (keep : Char → Bool) (cs : List Char) : Split :=
  (cs.takeWhile keep, cs.dropWhile keep)

/-- Up to the first end of a block comment. -/
def closeComment : List Char → Option Split
  | '*' :: '/' :: cs => some (['*', '/'], cs)
  | c :: cs => (closeComment cs).map (taking [c])
  | [] => none

/-- Up to the first `quote`, on one line.  A backslash takes the next character with
it. -/
def closeQuote (quote : Char) : List Char → Option Split
  | [] => none
  | '\\' :: c :: cs =>
      if c = '\n' then none else (closeQuote quote cs).map (taking ['\\', c])
  | c :: cs =>
      if c = quote then some ([c], cs)
      else if c = '\n' ∨ c = '\\' then none
      else (closeQuote quote cs).map (taking [c])

/-- Up to the first three quotes that no backslash escapes. -/
def closeTextBlock : List Char → Option Split
  | [] => none
  | '\\' :: c :: cs => (closeTextBlock cs).map (taking ['\\', c])
  | '"' :: '"' :: '"' :: cs => some (['"', '"', '"'], cs)
  | c :: cs => (closeTextBlock cs).map (taking [c])

/-- A point with a digit behind it and what belongs to that digit, or nothing. -/
def fraction : List Char → Split
  | '.' :: d :: cs =>
      if isDigit d then taking ['.', d] (spanWhile isNumberPart cs) else ([], '.' :: d :: cs)
  | cs => ([], cs)

/-- The part of a number after its first digit. -/
def numberTail (cs : List Char) : Split :=
  taking (cs.takeWhile isNumberPart) (fraction (cs.dropWhile isNumberPart))

/-- The kind of a token that is spelled like a name. -/
def wordKind (word : List Char) : TokenKind :=
  match Keyword.ofText? (String.ofList word) with
  | some k => .keyword k
  | none => .ident

/-- The token that starts with `c`, in the cases where one character decides. -/
def scanFrom (c : Char) (cs : List Char) : Option (TokenKind × Split) :=
  if isIdentStart c then
    let s := taking [c] (spanWhile isIdentPart cs)
    some (wordKind s.1, s)
  else if isDigit c then some (.number, taking [c] (numberTail cs))
  else if isOperator c then some (.operator, [c], cs)
  else (Punct.ofChar? c).map fun p ↦ (.punct p, [c], cs)

/-- The longest token at the front of a text. -/
def scan : List Char → Option (TokenKind × Split)
  | '/' :: '/' :: cs => some (.lineComment, taking ['/', '/'] (spanWhile (· != '\n') cs))
  | '/' :: '*' :: cs => (closeComment cs).map fun s ↦ (.blockComment, taking ['/', '*'] s)
  | '"' :: '"' :: '"' :: cs =>
      (closeTextBlock cs).map fun s ↦ (.textBlock, taking ['"', '"', '"'] s)
  | '"' :: cs => (closeQuote '"' cs).map fun s ↦ (.stringLiteral, taking ['"'] s)
  | '\'' :: cs => (closeQuote '\'' cs).map fun s ↦ (.charLiteral, taking ['\''] s)
  | '.' :: '.' :: '.' :: cs => some (.punct .ellipsis, ['.', '.', '.'], cs)
  | c :: cs => scanFrom c cs
  | [] => none

/-! ## What is taken and what is left make up the text -/

theorem spanWhile_append (keep : Char → Bool) (cs : List Char) :
    (spanWhile keep cs).1 ++ (spanWhile keep cs).2 = cs := List.takeWhile_append_dropWhile

@[simp] theorem taking_append (taken : List Char) (s : Split) :
    (taking taken s).1 ++ (taking taken s).2 = taken ++ (s.1 ++ s.2) := by simp [taking]

theorem closeComment_append {cs : List Char} {s : Split} (h : closeComment cs = some s) :
    s.1 ++ s.2 = cs := by
  fun_induction closeComment cs generalizing s with
  | case1 cs => simp_all [← Option.some.inj h]
  | case2 c cs _ ih =>
    obtain ⟨t, ht, rfl⟩ := Option.map_eq_some_iff.1 h
    simp [ih ht]
  | case3 => simp at h

theorem closeQuote_append {quote : Char} {cs : List Char} {s : Split}
    (h : closeQuote quote cs = some s) : s.1 ++ s.2 = cs := by
  fun_induction closeQuote quote cs generalizing s with
  | case1 => simp at h
  | case2 => simp at h
  | case3 c cs _ ih =>
    obtain ⟨t, ht, rfl⟩ := Option.map_eq_some_iff.1 h
    simp [ih ht]
  | case4 => simp [← Option.some.inj h]
  | case5 => simp at h
  | case6 c cs _ _ _ ih =>
    obtain ⟨t, ht, rfl⟩ := Option.map_eq_some_iff.1 h
    simp [ih ht]

theorem closeTextBlock_append {cs : List Char} {s : Split} (h : closeTextBlock cs = some s) :
    s.1 ++ s.2 = cs := by
  fun_induction closeTextBlock cs generalizing s with
  | case1 => simp at h
  | case2 c cs ih =>
    obtain ⟨t, ht, rfl⟩ := Option.map_eq_some_iff.1 h
    simp [ih ht]
  | case3 => simp [← Option.some.inj h]
  | case4 c cs _ _ ih =>
    obtain ⟨t, ht, rfl⟩ := Option.map_eq_some_iff.1 h
    simp [ih ht]

theorem fraction_append (cs : List Char) : (fraction cs).1 ++ (fraction cs).2 = cs := by
  unfold fraction
  split
  · split
    · simp [spanWhile_append]
    · rfl
  · rfl

theorem numberTail_append (cs : List Char) : (numberTail cs).1 ++ (numberTail cs).2 = cs := by
  simp [numberTail, fraction_append]

/-- A token and what is left of the text make up the text, and no token is empty. -/
theorem scanFrom_append {c : Char} {cs : List Char} {k : TokenKind} {s : Split}
    (h : scanFrom c cs = some (k, s)) : s.1 ++ s.2 = c :: cs ∧ s.1 ≠ [] := by
  unfold scanFrom at h
  split at h
  · obtain ⟨-, rfl⟩ := Prod.mk.inj (Option.some.inj h)
    exact ⟨by simp [spanWhile_append], by simp [taking]⟩
  split at h
  · obtain ⟨-, rfl⟩ := Prod.mk.inj (Option.some.inj h)
    exact ⟨by simp [numberTail_append], by simp [taking]⟩
  split at h
  · obtain ⟨-, rfl⟩ := Prod.mk.inj (Option.some.inj h)
    exact ⟨rfl, by simp⟩
  · obtain ⟨p, -, hp⟩ := Option.map_eq_some_iff.1 h
    obtain ⟨-, rfl⟩ := Prod.mk.inj hp
    exact ⟨rfl, by simp⟩

theorem scan_append {cs : List Char} {k : TokenKind} {s : Split} (h : scan cs = some (k, s)) :
    s.1 ++ s.2 = cs ∧ s.1 ≠ [] := by
  unfold scan at h
  split at h
  · obtain ⟨-, rfl⟩ := Prod.mk.inj (Option.some.inj h)
    exact ⟨by simp [spanWhile_append], by simp [taking]⟩
  · obtain ⟨t, ht, e⟩ := Option.map_eq_some_iff.1 h
    obtain ⟨-, rfl⟩ := Prod.mk.inj e
    exact ⟨by simp [closeComment_append ht], by simp [taking]⟩
  · obtain ⟨t, ht, e⟩ := Option.map_eq_some_iff.1 h
    obtain ⟨-, rfl⟩ := Prod.mk.inj e
    exact ⟨by simp [closeTextBlock_append ht], by simp [taking]⟩
  · obtain ⟨t, ht, e⟩ := Option.map_eq_some_iff.1 h
    obtain ⟨-, rfl⟩ := Prod.mk.inj e
    exact ⟨by simp [closeQuote_append ht], by simp [taking]⟩
  · obtain ⟨t, ht, e⟩ := Option.map_eq_some_iff.1 h
    obtain ⟨-, rfl⟩ := Prod.mk.inj e
    exact ⟨by simp [closeQuote_append ht], by simp [taking]⟩
  · obtain ⟨-, rfl⟩ := Prod.mk.inj (Option.some.inj h)
    exact ⟨rfl, by simp⟩
  · exact scanFrom_append h
  · simp at h

/-- A scan leaves less than it was given: this is what makes the tokenizer end. -/
theorem length_lt_of_scan {cs : List Char} {k : TokenKind} {s : Split}
    (h : scan cs = some (k, s)) : s.2.length < cs.length := by
  obtain ⟨e, ne⟩ := scan_append h
  have := List.length_pos_iff.2 ne
  simp [← e]
  omega

/-! ## Whole texts -/

/-- The tokens of a text and the blanks after the last one. -/
structure Lexed where
  tokens : List Token
  trailing : String
deriving DecidableEq, Repr

/-- The characters from the first place where no token can be read. -/
structure Unreadable where
  rest : List Char
deriving DecidableEq, Repr

def Lexed.cons (t : Token) (l : Lexed) : Lexed := ⟨t :: l.tokens, l.trailing⟩

def tokenizeChars (cs : List Char) : Except Unreadable Lexed :=
  let blank := String.ofList (cs.takeWhile isSkipped)
  match _hrest : cs.dropWhile isSkipped with
  | [] => .ok ⟨[], blank⟩
  | c :: rest =>
    match _h : scan (c :: rest) with
    | none => .error ⟨c :: rest⟩
    | some (kind, text, left) =>
        (tokenizeChars left).map (Lexed.cons ⟨kind, blank, String.ofList text⟩)
termination_by cs.length
decreasing_by
  have := length_lt_of_scan _h
  have : (cs.dropWhile isSkipped).length ≤ cs.length := List.dropWhile_suffix isSkipped |>.length_le
  simp_all
  omega

end Lexer

/-- The byte offset at which reading a text stopped. -/
structure Unlexable where
  offset : Nat
deriving DecidableEq, Repr

def tokenize (text : String) : Except Unlexable Lexer.Lexed :=
  (Lexer.tokenizeChars text.toList).mapError fun e ↦
    ⟨text.utf8ByteSize - (String.ofList e.rest).utf8ByteSize⟩

end PlatformOverlay.Java
