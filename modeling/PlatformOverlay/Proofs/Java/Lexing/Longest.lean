import PlatformOverlay.Proofs.Java.Lexing.Closing
import PlatformOverlay.Proofs.Java.Slice

/-!
# The longest match

Each kind of tokens has a pattern (`Matches`).  Where several patterns match at the front of a text,
`scan` goes with the longest match, and prefers a keyword to a name (`finds_scan`).  The patterns of
block comments and text blocks match what opens them, and the token goes on to where it closes;
`scan` reads nothing where no pattern matches or such a token never closes.

Patterns are a specification of their own: they say which texts are names, numbers, literals and so
on, and not how far to read or what to try first. A scanner that stopped too early would find a
match, but not the longest one; one that tried the patterns in another order would find one of
another kind. Both are excluded by `Finds`.

What a token starts with decides which patterns can match (`Matches.exists_begins`), so the
comparison with rivals is made for a few patterns at a time:

| first character | patterns |
| --- | --- |
| a letter | names and keywords |
| a digit | numbers |
| a slash | comments and the operator |
| a quote | strings and text blocks |
| an apostrophe | character literals |
| any other | marks and operators |
-/

namespace PlatformOverlay.Java.Lexer

/-! ## Patterns -/

/-- A number behind its first digit: digits, letters and low lines, with at most one point, which
has a digit behind it. -/
def NumberRest (cs : List Char) : Prop :=
  (∀ c ∈ cs, isNumberPart c = true) ∨ ∃ whole d part, cs = whole ++ '.' :: d :: part ∧
    (∀ c ∈ whole, isNumberPart c = true) ∧ isDigit d = true ∧ ∀ c ∈ part, isNumberPart c = true

/-- The texts that the pattern of a kind matches. -/
def Matches : TokenKind → List Char → Prop
  | .lineComment, t => ∃ cs, t = '/' :: '/' :: cs ∧ '\n' ∉ cs
  | .blockComment, t => t = ['/', '*']
  | .keyword k, t => k ∈ Keyword.all ∧ t = k.text.toList
  | .ident, t => ∃ c cs, t = c :: cs ∧ isIdentStart c = true ∧ ∀ d ∈ cs, isIdentPart d = true
  | .stringLiteral, t => ∃ cs, t = '"' :: (cs ++ ['"']) ∧ QuotedText '"' cs
  | .textBlock, t => t = blockQuotes
  | .charLiteral, t => ∃ cs, t = '\'' :: (cs ++ ['\'']) ∧ QuotedText '\'' cs
  | .number, t => ∃ d cs, t = d :: cs ∧ isDigit d = true ∧ NumberRest cs
  | .punct p, t => t = p.text.toList
  | .operator, t => ∃ c, t = [c] ∧ isOperator c = true

/-- No pattern matches more of the text than that of `kind` does with `t`, and another one that
matches as much is that of names. -/
structure LongestMatch (kind : TokenKind) (t cs : List Char) : Prop where
  matched : Matches kind t
  front : t <+: cs
  longest : ∀ kind' t', Matches kind' t' → t' <+: cs → t'.length ≤ t.length
  preferred : ∀ kind', Matches kind' t → kind' = kind ∨ kind' = .ident

/-- What follows in a token behind the match of its pattern. -/
def Completes : TokenKind → List Char → Prop
  | .blockComment, cs => EndsAtFirst commentEnd (fun _ ↦ False) cs
  | .textBlock, cs => EndsAtFirst blockQuotes Escapes cs
  | _, cs => cs = []

/-- The token that has been opened does not close. -/
def NeverCompletes : TokenKind → List Char → Prop
  | .blockComment, cs => NeverEnds commentEnd (fun _ ↦ False) cs
  | .textBlock, cs => NeverEnds blockQuotes Escapes cs
  | _, _ => False

/-- What the scanner should find at the front of a text. -/
def Finds (cs : List Char) : Option (TokenKind × Split) → Prop
  | some (kind, s) => ∃ m, LongestMatch kind m cs ∧ ∃ body, s.1 = m ++ body ∧ Completes kind body
  | none => (∀ kind t, Matches kind t → ¬ t <+: cs) ∨
      ∃ kind m body, cs = m ++ body ∧ LongestMatch kind m cs ∧ NeverCompletes kind body

/-! ## First characters -/

/-- The character with which a mark begins. -/
def markStart : Punct → Char
  | .lbrace => '\x7b'
  | .rbrace => '\x7d'
  | .lparen => '('
  | .rparen => ')'
  | .lbracket => '['
  | .rbracket => ']'
  | .semi => ';'
  | .comma => ','
  | .dot => '.'
  | .ellipsis => '.'
  | .atSign => '@'
  | .lt => '<'
  | .gt => '>'

/-- Every mark but the ellipsis is one character. -/
theorem toList_text_punct (p : Punct) :
    p.text.toList = if p = .ellipsis then ['.', '.', '.'] else [markStart p] := by
  cases p <;> decide +kernel

/-- Can a match of the pattern begin with the character? -/
def begins : TokenKind → Char → Bool
  | .lineComment, c | .blockComment, c => c == '/'
  | .keyword _, c | .ident, c => isIdentStart c
  | .stringLiteral, c | .textBlock, c => c == '"'
  | .charLiteral, c => c == '\''
  | .number, c => isDigit c
  | .punct p, c => c == markStart p
  | .operator, c => isOperator c

variable {kind kind' : TokenKind} {c : Char} {t u cs : List Char}

theorem isIdentStart_keyword : ∀ k ∈ Keyword.all, ∃ c cs,
    k.text.toList = c :: cs ∧ isIdentStart c = true ∧ cs.all isIdentPart = true := by
  have all : Keyword.all.all (fun k ↦ k.text.toList.head?.any isIdentStart &&
      k.text.toList.tail.all isIdentPart) = true := by decide +kernel
  intro k hk
  have := List.all_eq_true.1 all k hk
  cases h : k.text.toList with
  | nil => simp [h] at this
  | cons c cs => exact ⟨c, cs, rfl, by simpa [h] using this⟩

/-- A keyword is spelled like a name. -/
theorem Matches.ident {k : Keyword} (h : Matches (.keyword k) t) : Matches .ident t := by
  obtain ⟨hk, rfl⟩ := h
  obtain ⟨c, cs, e, start, part⟩ := isIdentStart_keyword k hk
  exact ⟨c, cs, e, start, List.all_eq_true.1 part⟩

/-- A token starts with a character that begins tokens of its kind. -/
theorem Matches.exists_begins (h : Matches kind t) :
    ∃ c cs, t = c :: cs ∧ begins kind c = true := by
  cases kind with
  | lineComment =>
    obtain ⟨cs, rfl, -⟩ := h
    exact ⟨_, _, rfl, rfl⟩
  | blockComment => exact ⟨_, _, h, rfl⟩
  | keyword k =>
    obtain ⟨c, cs, e, start, -⟩ := h.ident
    exact ⟨c, cs, e, start⟩
  | ident =>
    obtain ⟨c, cs, e, start, -⟩ := h
    exact ⟨c, cs, e, start⟩
  | stringLiteral =>
    obtain ⟨cs, rfl, -⟩ := h
    exact ⟨_, _, rfl, rfl⟩
  | textBlock => exact ⟨_, _, h, rfl⟩
  | charLiteral =>
    obtain ⟨cs, rfl, -⟩ := h
    exact ⟨_, _, rfl, rfl⟩
  | number =>
    obtain ⟨d, cs, rfl, hd, -⟩ := h
    exact ⟨d, cs, rfl, hd⟩
  | punct p =>
    obtain rfl : t = _ := h.trans (toList_text_punct p)
    split
    · rename_i e
      exact ⟨_, _, rfl, e ▸ rfl⟩
    · exact ⟨_, _, rfl, beq_self_eq_true _⟩
  | operator =>
    obtain ⟨c, rfl, hc⟩ := h
    exact ⟨c, [], rfl, hc⟩

theorem isDigit_eq_false_of_isIdentStart (h : isIdentStart c = true) : isDigit c = false := by
  simp only [isIdentStart, isLetter, isDigit, Bool.or_eq_true, Bool.and_eq_true, beq_iff_eq,
    decide_eq_true_eq, Bool.and_eq_false_iff, decide_eq_false_iff_not, Char.le_def,
    UInt32.le_iff_toNat_le] at h ⊢
  rcases h with (((h | h) | rfl) | rfl) | h
  · exact .inr fun h' ↦ absurd (h.1.trans h') (by decide)
  · exact .inr fun h' ↦ absurd (h.1.trans h') (by decide)
  · exact .inr (by decide)
  · exact .inl (by decide)
  · exact .inr fun h' ↦ absurd (h.trans h') (by decide)

/-- Operators begin with characters that begin nothing else. -/
theorem eq_false_of_isOperator (h : isOperator c = true) :
    isIdentStart c = false ∧ isDigit c = false ∧ c ≠ '"' ∧ c ≠ '\'' ∧ Punct.ofChar? c = none := by
  simp only [isOperator, List.contains_eq_mem, List.mem_cons, List.not_mem_nil, or_false,
    decide_eq_true_eq] at h
  rcases h with rfl | rfl | rfl | rfl | rfl | rfl | rfl | rfl | rfl | rfl | rfl | rfl | rfl <;>
    exact ⟨by decide, by decide, by decide, by decide, by decide⟩

theorem ofChar?_eq_some {p : Punct} (h : Punct.ofChar? c = some p) :
    c = markStart p ∧ p ≠ .ellipsis := by
  have text := (toList_text_punct p).symm.trans (toList_text_of_ofChar? h)
  split at text
  · cases text
  · exact ⟨(List.cons.inj text).1.symm, ‹_›⟩

theorem ofChar?_markStart {p : Punct} (other : p ≠ .ellipsis) :
    Punct.ofChar? (markStart p) = some p := by
  cases p <;> first | rfl | exact absurd rfl other

theorem eq_false_of_ofChar? {p : Punct} (h : Punct.ofChar? c = some p) :
    isIdentStart c = false ∧ isDigit c = false ∧ c ≠ '"' ∧ c ≠ '\'' ∧ isOperator c = false := by
  obtain ⟨rfl, -⟩ := ofChar?_eq_some h
  cases p <;> decide

/-! ## Matches by their first character -/

/-- A token that starts with a letter is a word. -/
theorem Matches.of_letter (h : Matches kind (c :: t)) (letter : isIdentStart c = true) :
    (kind = .ident ∨ ∃ k, kind = .keyword k) ∧ ∀ d ∈ t, isIdentPart d = true := by
  have name (h : Matches .ident (c :: t)) : ∀ d ∈ t, isIdentPart d = true := by
    obtain ⟨_, _, e, -, part⟩ := h
    exact (List.cons.inj e).2 ▸ part
  obtain ⟨_, _, e, first⟩ := h.exists_begins
  obtain ⟨rfl, rfl⟩ := List.cons.inj e
  cases kind with
  | ident => exact ⟨.inl rfl, name h⟩
  | keyword k => exact ⟨.inr ⟨k, rfl⟩, name h.ident⟩
  | number =>
    have first : isDigit c = true := first
    rw [isDigit_eq_false_of_isIdentStart letter] at first
    cases first
  | operator =>
    rw [(eq_false_of_isOperator first).1] at letter
    cases letter
  | punct p =>
    obtain rfl : c = markStart p := by simpa [begins] using first
    cases p <;> cases letter
  | _ =>
    obtain rfl := eq_of_beq first
    cases letter

/-- One that starts with a digit is a number. -/
theorem Matches.of_digit (h : Matches kind (c :: t)) (digit : isDigit c = true) :
    kind = .number ∧ NumberRest t := by
  obtain ⟨_, _, e, first⟩ := h.exists_begins
  obtain ⟨rfl, rfl⟩ := List.cons.inj e
  cases kind with
  | number =>
    obtain ⟨_, _, e, -, rest⟩ := h
    exact ⟨rfl, (List.cons.inj e).2 ▸ rest⟩
  | ident | keyword =>
    rw [isDigit_eq_false_of_isIdentStart first] at digit
    cases digit
  | operator =>
    rw [(eq_false_of_isOperator first).2.1] at digit
    cases digit
  | punct p =>
    obtain rfl : c = markStart p := by simpa [begins] using first
    cases p <;> cases digit
  | _ =>
    obtain rfl := eq_of_beq first
    cases digit

/-- Slashes begin comments or are operators. -/
theorem Matches.of_slash (h : Matches kind ('/' :: t)) :
    (kind = .lineComment ∧ ∃ u, t = '/' :: u ∧ '\n' ∉ u) ∨ (kind = .blockComment ∧ t = ['*']) ∨
      (kind = .operator ∧ t = []) := by
  obtain ⟨_, _, e, first⟩ := h.exists_begins
  obtain ⟨rfl, rfl⟩ := List.cons.inj e
  cases kind with
  | lineComment =>
    obtain ⟨u, e, hu⟩ := h
    exact .inl ⟨rfl, u, (List.cons.inj e).2, hu⟩
  | blockComment => exact .inr (.inl ⟨rfl, (List.cons.inj h).2⟩)
  | operator =>
    obtain ⟨_, e, -⟩ := h
    exact .inr (.inr ⟨rfl, (List.cons.inj e).2⟩)
  | punct p => cases p <;> cases first
  | _ => cases first

/-- One that starts with a quote is a string or a text block. -/
theorem Matches.of_quote (h : Matches kind ('"' :: t)) :
    (kind = .stringLiteral ∧ ∃ u, t = u ++ ['"'] ∧ QuotedText '"' u) ∨
      (kind = .textBlock ∧ t = ['"', '"']) := by
  obtain ⟨_, _, e, first⟩ := h.exists_begins
  obtain ⟨rfl, rfl⟩ := List.cons.inj e
  cases kind with
  | stringLiteral =>
    obtain ⟨u, e, hu⟩ := h
    exact .inl ⟨rfl, u, (List.cons.inj e).2, hu⟩
  | textBlock => exact .inr ⟨rfl, (List.cons.inj h).2⟩
  | punct p => cases p <;> cases first
  | _ => cases first

/-- One that starts with an apostrophe is a character literal. -/
theorem Matches.of_apostrophe (h : Matches kind ('\'' :: t)) :
    kind = .charLiteral ∧ ∃ u, t = u ++ ['\''] ∧ QuotedText '\'' u := by
  obtain ⟨_, _, e, first⟩ := h.exists_begins
  obtain ⟨rfl, rfl⟩ := List.cons.inj e
  cases kind with
  | charLiteral =>
    obtain ⟨u, e, hu⟩ := h
    exact ⟨rfl, u, (List.cons.inj e).2, hu⟩
  | punct p => cases p <;> cases first
  | _ => cases first

/-- Operators are single characters. -/
theorem Matches.of_operator (h : Matches kind (c :: t)) (operator : isOperator c = true)
    (slash : c ≠ '/') : kind = .operator ∧ t = [] := by
  obtain ⟨letter, digit, quote, apostrophe, mark⟩ := eq_false_of_isOperator operator
  obtain ⟨_, _, e, first⟩ := h.exists_begins
  obtain ⟨rfl, rfl⟩ := List.cons.inj e
  cases kind with
  | operator =>
    obtain ⟨_, e, -⟩ := h
    exact ⟨rfl, (List.cons.inj e).2⟩
  | ident | keyword => cases letter.symm.trans first
  | number => cases digit.symm.trans first
  | punct p =>
    obtain rfl : c = markStart p := by simpa [begins] using first
    cases p <;> cases operator
  | lineComment | blockComment => exact (slash (eq_of_beq first)).elim
  | stringLiteral | textBlock => exact (quote (eq_of_beq first)).elim
  | charLiteral => exact (apostrophe (eq_of_beq first)).elim

/-- Marks are single characters, but for the dot three of which are one. -/
theorem Matches.of_mark (h : Matches kind (c :: t)) {p : Punct} (mark : Punct.ofChar? c = some p) :
    (kind = .punct p ∧ t = []) ∨ (c = '.' ∧ kind = .punct .ellipsis ∧ t = ['.', '.']) := by
  obtain ⟨letter, digit, quote, apostrophe, operator⟩ := eq_false_of_ofChar? mark
  obtain ⟨_, _, e, first⟩ := h.exists_begins
  obtain ⟨rfl, rfl⟩ := List.cons.inj e
  cases kind with
  | punct q =>
    have text : c :: t = if q = .ellipsis then ['.', '.', '.'] else [markStart q] :=
      h.trans (toList_text_punct q)
    split at text
    · rename_i dots
      obtain ⟨rfl, rfl⟩ := List.cons.inj text
      exact .inr ⟨rfl, dots ▸ rfl, rfl⟩
    · rename_i other
      obtain ⟨rfl, rfl⟩ := List.cons.inj text
      obtain rfl := Option.some.inj (mark.symm.trans (ofChar?_markStart other))
      exact .inl ⟨rfl, rfl⟩
  | ident | keyword => cases letter.symm.trans first
  | number => cases digit.symm.trans first
  | operator => cases operator.symm.trans first
  | lineComment | blockComment =>
    obtain rfl := eq_of_beq first
    cases mark
  | stringLiteral | textBlock => exact (quote (eq_of_beq first)).elim
  | charLiteral => exact (apostrophe (eq_of_beq first)).elim

/-! ## How far patterns reach -/

/-- The span of a property is the longest front part with it. -/
theorem isPrefix_takeWhile {p : Char → Bool} (all : ∀ d ∈ u, p d = true) (front : u <+: cs) :
    u <+: cs.takeWhile p := by
  obtain ⟨k, rfl⟩ := front
  rw [List.takeWhile_append_of_pos all]
  exact List.prefix_append _ _

theorem numberRest_numberTail (cs : List Char) : NumberRest (numberTail cs).1 := by
  have all (cs : List Char) : ∀ c ∈ cs.takeWhile isNumberPart, isNumberPart c = true :=
    List.all_eq_true.1 List.all_takeWhile
  unfold numberTail fraction
  split
  · rename_i d rest _
    split
    · rename_i digit
      exact .inr ⟨_, d, _, rfl, all _, digit, all _⟩
    · exact .inl (by simpa [taking] using all _)
  · exact .inl (by simpa [taking] using all _)

/-- What is scanned of a number is the longest front part that goes on with one. -/
theorem NumberRest.isPrefix (h : NumberRest u) (front : u <+: cs) : u <+: (numberTail cs).1 := by
  rcases h with all | ⟨whole, d, part, rfl, all, digit, all'⟩
  · exact (isPrefix_takeWhile all front).trans (List.prefix_append _ _)
  · obtain ⟨k, rfl⟩ := front
    have point : isNumberPart '.' = false := by decide
    have split : spanWhile isNumberPart (whole ++ ('.' :: d :: (part ++ k))) =
        (whole, '.' :: d :: (part ++ k)) := spanWhile_append_iff.2 ⟨all, by simp [point]⟩
    obtain ⟨take, drop⟩ := Prod.mk.inj split
    have e : whole ++ '.' :: d :: part ++ k = whole ++ '.' :: d :: (part ++ k) := by simp
    rw [numberTail, e, take, drop, fraction, if_pos digit]
    refine (List.prefix_append_right_inj whole).2 ?_
    exact (List.prefix_append_right_inj ['.', d]).2
      (isPrefix_takeWhile all' (List.prefix_append _ _))

/-! ## What is found -/

/-- A match is the longest if every other match in front is shorter or is of the same kind and
no longer. -/
theorem LongestMatch.of_rivals (matched : Matches kind t) (front : t <+: cs)
    (rivals : ∀ kind' u, Matches kind' u → u <+: cs →
      kind' = kind ∧ u.length ≤ t.length ∨ u.length < t.length) : LongestMatch kind t cs where
  matched := matched
  front := front
  longest kind' u h hu := by
    rcases rivals kind' u h hu with ⟨-, le⟩ | lt
    · exact le
    · exact lt.le
  preferred kind' h := by
    rcases rivals kind' t h front with ⟨rfl, -⟩ | lt
    · exact .inl rfl
    · exact (Nat.lt_irrefl _ lt).elim

/-- A match starts where the text does. -/
theorem Matches.cons_of_isPrefix (h : Matches kind u) (front : u <+: c :: cs) :
    ∃ v, u = c :: v ∧ v <+: cs := by
  obtain ⟨d, v, rfl, -⟩ := h.exists_begins
  obtain ⟨rfl, hv⟩ := List.cons_prefix_cons.1 front
  exact ⟨v, rfl, hv⟩

theorem LongestMatch.of_cons (matched : Matches kind (c :: t)) (front : t <+: cs)
    (rivals : ∀ kind' v, Matches kind' (c :: v) → v <+: cs →
      kind' = kind ∧ v.length ≤ t.length ∨ v.length < t.length) :
    LongestMatch kind (c :: t) (c :: cs) := by
  refine .of_rivals matched (List.cons_prefix_cons.2 ⟨rfl, front⟩) fun kind' u h hu ↦ ?_
  obtain ⟨v, rfl, hv⟩ := h.cons_of_isPrefix hu
  simpa using rivals kind' v h hv

theorem finds_lineComment (cs : List Char) :
    Finds ('/' :: '/' :: cs) (scan ('/' :: '/' :: cs)) := by
  rw [scan_lineComment]
  refine ⟨'/' :: '/' :: cs.takeWhile (· != '\n'), ?_, [], by simp [taking, spanWhile], rfl⟩
  have line : '\n' ∉ cs.takeWhile (· != '\n') := fun h ↦ by
    simpa using List.all_eq_true.1 (List.all_takeWhile (p := (· != '\n'))) _ h
  refine .of_cons ⟨_, rfl, line⟩
    (List.cons_prefix_cons.2 ⟨rfl, List.takeWhile_prefix _⟩) fun kind' v h hv ↦ ?_
  rcases h.of_slash with ⟨rfl, u, rfl, hu⟩ | ⟨-, rfl⟩ | ⟨-, rfl⟩
  · refine .inl ⟨rfl, Nat.succ_le_succ (isPrefix_takeWhile (fun d hd ↦ ?_) ?_).length_le⟩
    · exact bne_iff_ne.2 (by rintro rfl; exact hu hd)
    · exact (List.cons_prefix_cons.1 hv).2
  · simp at hv
  · exact .inr (by simp)

/-- What opens a block comment is the longest match. -/
theorem longestMatch_blockComment (cs : List Char) :
    LongestMatch .blockComment ['/', '*'] ('/' :: '*' :: cs) := by
  refine .of_cons rfl ⟨cs, rfl⟩ fun kind' v h hv ↦ ?_
  rcases h.of_slash with ⟨-, u, rfl, -⟩ | ⟨rfl, rfl⟩ | ⟨-, rfl⟩
  · simp at hv
  · exact .inl ⟨rfl, le_rfl⟩
  · exact .inr (by simp)

theorem finds_blockComment (cs : List Char) :
    Finds ('/' :: '*' :: cs) (scan ('/' :: '*' :: cs)) := by
  rw [scan_blockComment]
  have close := closeComment_spec cs
  cases h : closeComment cs with
  | none => exact .inr ⟨_, ['/', '*'], cs, rfl, longestMatch_blockComment cs, by rwa [h] at close⟩
  | some s => exact ⟨['/', '*'], longestMatch_blockComment cs, s.1, rfl, by rwa [h] at close⟩

theorem finds_slash {cs : List Char} (other : ∀ c ∈ cs.head?, c ≠ '/' ∧ c ≠ '*') :
    Finds ('/' :: cs) (scan ('/' :: cs)) := by
  rw [scan_slash other]
  refine ⟨['/'], .of_cons ⟨_, rfl, by decide⟩ (List.nil_prefix) fun kind' v h hv ↦ ?_, [], rfl, rfl⟩
  rcases h.of_slash with ⟨-, u, rfl, -⟩ | ⟨-, rfl⟩ | ⟨rfl, rfl⟩
  · obtain ⟨k, rfl⟩ := hv
    simp at other
  · obtain ⟨k, rfl⟩ := hv
    simp at other
  · exact .inl ⟨rfl, le_rfl⟩

/-- A literal on one line ends with the first quote that closes it. -/
theorem eq_of_quotedText {q : Char} (hq : q ≠ '\\') (h : QuotedText q u) (front : u ++ [q] <+: cs) :
    ∃ k, closeQuote q cs = some (u ++ [q], k) := by
  obtain ⟨k, rfl⟩ := front
  rw [List.append_assoc]
  exact ⟨k, closeQuote_of_quotedText hq h k⟩

/-- What opens a text block is the longest match. -/
theorem longestMatch_textBlock (cs : List Char) :
    LongestMatch .textBlock blockQuotes ('"' :: '"' :: '"' :: cs) := by
  refine .of_cons rfl ⟨cs, rfl⟩ fun kind' v h hv ↦ ?_
  rcases h.of_quote with ⟨-, u, rfl, quoted⟩ | ⟨rfl, rfl⟩
  · obtain ⟨k, hk⟩ := eq_of_quotedText (by decide) quoted hv
    have e : (['"'], '"' :: cs) = (u ++ ['"'], k) := Option.some.inj hk
    exact .inr (by simp [← (Prod.mk.inj e).1])
  · exact .inl ⟨rfl, le_rfl⟩

theorem finds_textBlock (cs : List Char) :
    Finds ('"' :: '"' :: '"' :: cs) (scan ('"' :: '"' :: '"' :: cs)) := by
  rw [scan_textBlock]
  have close := closeTextBlock_spec cs
  cases h : closeTextBlock cs with
  | none => exact .inr ⟨_, blockQuotes, cs, rfl, longestMatch_textBlock cs, by rwa [h] at close⟩
  | some s => exact ⟨blockQuotes, longestMatch_textBlock cs, s.1, rfl, by rwa [h] at close⟩

/-- A quote with which nothing begins but literals on one line of the given kind. -/
theorem finds_quoted {q : Char} {kind : TokenKind} {cs : List Char} (hq : q ≠ '\\')
    (matched : ∀ u, QuotedText q u → Matches kind (q :: (u ++ [q])))
    (completes : Completes kind [])
    (only : ∀ kind' v, Matches kind' (q :: v) → v <+: cs →
      kind' = kind ∧ ∃ u, v = u ++ [q] ∧ QuotedText q u) :
    Finds (q :: cs) ((closeQuote q cs).map fun s ↦ (kind, taking [q] s)) := by
  cases h : closeQuote q cs with
  | none =>
    refine .inl fun kind' t ht front ↦ ?_
    obtain ⟨v, rfl, hv⟩ := ht.cons_of_isPrefix front
    obtain ⟨-, u, rfl, quoted⟩ := only kind' v ht hv
    obtain ⟨k, hk⟩ := eq_of_quotedText hq quoted hv
    cases h.symm.trans hk
  | some s =>
    obtain ⟨text, e, quoted⟩ := quotedText_of_closeQuote h
    refine ⟨q :: (text ++ [q]), .of_cons (matched text quoted) ?_ fun kind' v ht hv ↦ ?_, [],
      by simp [taking, e], completes⟩
    · exact ⟨s.2, by rw [← e]; exact closeQuote_append h⟩
    · obtain ⟨rfl, u, rfl, quoted'⟩ := only kind' v ht hv
      obtain ⟨k, hk⟩ := eq_of_quotedText hq quoted' hv
      obtain rfl := Option.some.inj (h.symm.trans hk)
      exact .inl ⟨rfl, by simp only at e; rw [e]⟩

theorem finds_quote {cs : List Char} (block : ¬ ['"', '"'] <+: cs) :
    Finds ('"' :: cs) (scan ('"' :: cs)) := by
  rw [scan_quote block]
  refine finds_quoted (by decide) (fun u hu ↦ ⟨u, rfl, hu⟩) rfl fun kind' v h hv ↦ ?_
  rcases h.of_quote with string | ⟨-, rfl⟩
  · exact string
  · exact (block hv).elim

theorem finds_apostrophe (cs : List Char) : Finds ('\'' :: cs) (scan ('\'' :: cs)) :=
  finds_quoted (by decide) (fun u hu ↦ ⟨u, rfl, hu⟩) rfl fun _ _ h _ ↦ h.of_apostrophe

theorem finds_ellipsis (cs : List Char) :
    Finds ('.' :: '.' :: '.' :: cs) (scan ('.' :: '.' :: '.' :: cs)) := by
  rw [scan_ellipsis]
  refine ⟨['.', '.', '.'], .of_cons (toList_text_punct .ellipsis).symm ⟨cs, rfl⟩
    fun kind' v h hv ↦ ?_,
    [], rfl, rfl⟩
  rcases h.of_mark (p := .dot) rfl with ⟨-, rfl⟩ | ⟨-, rfl, rfl⟩
  · exact .inr (by simp)
  · exact .inl ⟨rfl, le_rfl⟩

/-- A word is a keyword where it is spelled like one. -/
theorem longestMatch_word {cs : List Char} (letter : isIdentStart c = true) :
    LongestMatch (wordKind (c :: cs.takeWhile isIdentPart)) (c :: cs.takeWhile isIdentPart)
      (c :: cs) := by
  have part : ∀ d ∈ cs.takeWhile isIdentPart, isIdentPart d = true :=
    List.all_eq_true.1 List.all_takeWhile
  have name : Matches .ident (c :: cs.takeWhile isIdentPart) := ⟨_, _, rfl, letter, part⟩
  refine ⟨?_, List.cons_prefix_cons.2 ⟨rfl, List.takeWhile_prefix _⟩, fun kind' u h hu ↦ ?_,
    fun kind' h ↦ ?_⟩
  · unfold wordKind
    split
    · rename_i k hk
      have text := List.find?_some hk
      rw [decide_eq_true_eq] at text
      exact ⟨List.mem_of_find?_eq_some hk, by rw [text, String.toList_ofList]⟩
    · exact name
  · obtain ⟨v, rfl, hv⟩ := h.cons_of_isPrefix hu
    exact Nat.succ_le_succ (isPrefix_takeWhile (h.of_letter letter).2 hv).length_le
  · obtain rfl | ⟨k, rfl⟩ := (h.of_letter letter).1
    · exact .inr rfl
    · obtain ⟨hk, text⟩ := h
      refine .inl ?_
      rw [text, (wordKind_of_isToken (isToken_keyword k hk) (.inr ⟨k, rfl⟩)).2]

/-- A word is complete as soon as nothing of one follows. -/
theorem completes_wordKind (word : List Char) : Completes (wordKind word) [] := by
  unfold wordKind
  split <;> rfl

/-- A token whose first character decides what it is. -/
theorem finds_scanFrom {c : Char} {cs : List Char} (slash : c ≠ '/') (quote : c ≠ '"')
    (apostrophe : c ≠ '\'') (dots : c = '.' → ¬ ['.', '.'] <+: cs) :
    Finds (c :: cs) (scanFrom c cs) := by
  unfold scanFrom
  split
  · rename_i letter
    exact ⟨_, longestMatch_word letter, [], by simp [taking, spanWhile], completes_wordKind _⟩
  split
  · rename_i digit
    refine ⟨c :: (numberTail cs).1, .of_cons ⟨_, _, rfl, digit, numberRest_numberTail cs⟩
      ⟨_, numberTail_append cs⟩ fun kind' v h hv ↦ ?_, [], by simp [taking], rfl⟩
    obtain ⟨rfl, rest⟩ := h.of_digit digit
    exact .inl ⟨rfl, (rest.isPrefix hv).length_le⟩
  split
  · rename_i operator
    refine ⟨[c], .of_cons ⟨c, rfl, operator⟩ List.nil_prefix fun kind' v h _ ↦ ?_, [], rfl, rfl⟩
    obtain ⟨rfl, rfl⟩ := h.of_operator operator slash
    exact .inl ⟨rfl, le_rfl⟩
  · rename_i letter digit operator
    cases mark : Punct.ofChar? c with
    | none =>
      refine .inl fun kind t h front ↦ ?_
      obtain ⟨v, rfl, -⟩ := h.cons_of_isPrefix front
      obtain ⟨_, _, e, first⟩ := h.exists_begins
      obtain ⟨rfl, rfl⟩ := List.cons.inj e
      cases kind with
      | punct p =>
        obtain rfl : c = markStart p := by simpa [begins] using first
        cases p <;> cases mark
      | ident | keyword => exact letter first
      | number => exact digit first
      | operator => exact operator first
      | lineComment | blockComment => exact slash (eq_of_beq first)
      | stringLiteral | textBlock => exact quote (eq_of_beq first)
      | charLiteral => exact apostrophe (eq_of_beq first)
    | some p =>
      refine ⟨[c], .of_cons (toList_text_of_ofChar? mark).symm List.nil_prefix
        fun kind' v h hv ↦ ?_, [], rfl, rfl⟩
      rcases h.of_mark mark with ⟨rfl, rfl⟩ | ⟨dot, rfl, rfl⟩
      · exact .inl ⟨rfl, le_rfl⟩
      · exact (dots dot hv).elim

/-- The scanner goes with the longest match. -/
theorem finds_scan (cs : List Char) : Finds cs (scan cs) := by
  cases cs with
  | nil =>
    refine .inl fun kind t h front ↦ ?_
    obtain ⟨c, t, rfl, -⟩ := h.exists_begins
    simp at front
  | cons c cs =>
    by_cases slash : c = '/'
    · subst slash
      by_cases other : ∀ c ∈ cs.head?, c ≠ '/' ∧ c ≠ '*'
      · exact finds_slash other
      · obtain ⟨d, k, rfl⟩ : ∃ d k, cs = d :: k := by
          cases cs <;> simp_all
        obtain rfl | rfl : d = '/' ∨ d = '*' := by grind
        · exact finds_lineComment k
        · exact finds_blockComment k
    by_cases quote : c = '"'
    · subst quote
      by_cases block : ['"', '"'] <+: cs
      · obtain ⟨k, rfl⟩ := block
        exact finds_textBlock k
      · exact finds_quote block
    by_cases apostrophe : c = '\''
    · exact apostrophe ▸ finds_apostrophe cs
    by_cases dots : ['.', '.', '.'] <+: c :: cs
    · obtain ⟨k, e⟩ := dots
      exact e ▸ finds_ellipsis k
    · rw [scan_otherwise (by simp [Ne.symm slash]) (by simp [Ne.symm slash]) quote apostrophe dots]
      refine finds_scanFrom slash quote apostrophe ?_
      rintro rfl front
      exact dots (List.cons_prefix_cons.2 ⟨rfl, front⟩)

end PlatformOverlay.Java.Lexer
