import PlatformOverlay.Proofs.Java.Tokens

/-!
# The literals of a text, character by character

Where literals begin and end can be told by reading one character after another and keeping in mind
no more than the `Place` that reading has come to.  `literalsFrom` does so, and finds the literals
among the tokens of the text (`literalsFrom_code`).

The scanner of tokens looks ahead, sometimes to the end of the text. An edit can be followed through
an automaton with few places and not through a scanner, so the automaton is compared with the scan
of one token for each place (`literalsFrom_scan`), and after that the tokens are not needed again.
-/

namespace PlatformOverlay.Java

def TokenKind.isLiteral : TokenKind → Bool
  | .stringLiteral | .charLiteral | .textBlock => true
  | _ => false

namespace Lexer

/-- The string literals, character literals and text blocks of a text as written, in order. -/
def Lexed.literals (l : Lexed) : List String := (l.tokens.filter (·.kind.isLiteral)).map Token.text

/-! ## Places -/

/-- What begins and ends a literal on one line. -/
inductive Quote where
  | single
  | double
deriving DecidableEq, Repr

def Quote.char : Quote → Char
  | .single => '\''
  | .double => '"'

/-- Where reading has come to, as far as comments and literals are concerned. -/
inductive Place where
  | code
  /-- Behind a slash that may begin a comment. -/
  | slash
  | lineComment
  | comment
  /-- Behind a star that may end the comment. -/
  | star
  /-- Behind the double quote that begins a literal. -/
  | quote
  /-- Behind two of them: a literal that is empty, unless a third one begins a text block. -/
  | quotes
  /-- In a literal that this quote ends. -/
  | quoted (quote : Quote)
  | escape (quote : Quote)
  | block
  | blockEscape
  /-- Behind one or two quotes that may end the text block. -/
  | blockQuote
  | blockQuotes
deriving DecidableEq, Repr

/-- How a character belongs to a literal. -/
inductive Part where
  | outside
  | inside
  | last
deriving DecidableEq, Repr

/-- Put a character in front of what is left of the literals. -/
def Part.add (c : Char) : Part → List (List Char) → List (List Char)
  | .outside, rest => rest
  | .inside, rest => rest.modifyHead (c :: ·)
  | .last, rest => [c] :: rest

/-- The characters of code that begin no comment and no literal. -/
def isCode (c : Char) : Bool :=
  c != '/' && (isSkipped c || isIdentPart c || isOperator c || (Punct.ofChar? c).isSome)

namespace Place

def stepCode (c : Char) : Option (Part × Place) :=
  if c = '/' then some (.outside, .slash)
  else if c = '"' then some (.inside, .quote)
  else if c = '\'' then some (.inside, .quoted .single)
  else if isCode c then some (.outside, .code)
  else none

def stepQuoted (quote : Quote) (c : Char) : Option (Part × Place) :=
  if c = '\\' then some (.inside, .escape quote)
  else if c = quote.char then some (.last, .code)
  else if c = '\n' then none
  else some (.inside, .quoted quote)

def stepBlock (c : Char) : Part × Place :=
  if c = '\\' then (.inside, .blockEscape)
  else if c = '"' then (.inside, .blockQuote)
  else (.inside, .block)

/-- Read one character. -/
def step : Place → Char → Option (Part × Place)
  | code, c => stepCode c
  | slash, c =>
      if c = '/' then some (.outside, .lineComment)
      else if c = '*' then some (.outside, .comment)
      else stepCode c
  | lineComment, c => some (.outside, if c = '\n' then .code else .lineComment)
  | comment, c => some (.outside, if c = '*' then .star else .comment)
  | star, c => some (.outside, if c = '/' then .code else if c = '*' then .star else .comment)
  | quote, c => if c = '"' then some (.inside, .quotes) else stepQuoted .double c
  | quotes, c => if c = '"' then some (.inside, .block) else stepCode c
  | quoted q, c => stepQuoted q c
  | escape q, c => if c = '\n' then none else some (.inside, .quoted q)
  | block, c => some (stepBlock c)
  | blockEscape, _ => some (.inside, .block)
  | blockQuote, c => if c = '"' then some (.inside, .blockQuotes) else some (stepBlock c)
  | blockQuotes, c => if c = '"' then some (.last, .code) else some (stepBlock c)

/-- The empty literal that turns out to be complete when this character follows. -/
def before : Place → Char → List (List Char)
  | quotes, c => if c = '"' then [] else [[]]
  | _, _ => []

/-- What is left of the literals if the text ends here. -/
def atEnd : Place → Option (List (List Char))
  | code | slash | lineComment => some []
  | quotes => some [[]]
  | _ => none

end Place

/-- What is left of the literals from a place on; in a literal the first is what is left of it. -/
def literalsFrom : Place → List Char → Option (List (List Char))
  | p, [] => p.atEnd
  | p, c :: cs => (p.step c).bind fun s ↦
      (literalsFrom s.2 cs).map fun rest ↦ p.before c ++ s.1.add c rest

/-- One character by one step of the automaton. -/
theorem literalsFrom_cons {p next : Place} {c : Char} {part : Part}
    (h : p.step c = some (part, next))
    (cs : List Char) : literalsFrom p (c :: cs) =
      (literalsFrom next cs).map fun rest ↦ p.before c ++ part.add c rest := by
  rw [literalsFrom, h, Option.bind_some]

theorem literalsFrom_of_step_eq_none {p : Place} {c : Char} (h : p.step c = none) (cs : List Char) :
    literalsFrom p (c :: cs) = none := by
  rw [literalsFrom, h, Option.bind_none]

section part

variable {p next : Place} {c : Char} (before : p.before c = []) (cs : List Char)

include before

/-- A character outside of literals adds nothing. -/
theorem literalsFrom_outside (h : p.step c = some (.outside, next)) :
    literalsFrom p (c :: cs) = literalsFrom next cs := by
  rw [literalsFrom_cons h, before]
  exact Option.map_id'

/-- A character of a literal that has begun is put in front of what is left of it. -/
theorem literalsFrom_inside (h : p.step c = some (.inside, next)) :
    literalsFrom p (c :: cs) = (literalsFrom next cs).map fun rest ↦ rest.modifyHead (c :: ·) := by
  rw [literalsFrom_cons h, before]
  rfl

/-- A quote that ends a literal is what is left of it. -/
theorem literalsFrom_last (h : p.step c = some (.last, next)) :
    literalsFrom p (c :: cs) = (literalsFrom next cs).map ([c] :: ·) := by
  rw [literalsFrom_cons h, before]
  rfl

end part

/-- Two places from which a character leads to the same need not be told apart. -/
theorem literalsFrom_cons_congr {p q : Place} {c : Char} (step : p.step c = q.step c)
    (before : p.before c = q.before c) (cs : List Char) :
    literalsFrom p (c :: cs) = literalsFrom q (c :: cs) := by
  rw [literalsFrom, literalsFrom, step, before]

/-! ## Code -/

/-- Code goes on behind a character of code. -/
theorem stepCode_of_isCode {c : Char} (h : isCode c = true) :
    Place.stepCode c = some (.outside, .code) := by
  have slash : c ≠ '/' := by rintro rfl; exact absurd h (by decide)
  have quote : c ≠ '"' := by rintro rfl; exact absurd h (by decide)
  have apostrophe : c ≠ '\'' := by rintro rfl; exact absurd h (by decide)
  rw [Place.stepCode, if_neg slash, if_neg quote, if_neg apostrophe, if_pos h]

theorem literalsFrom_code_cons {c : Char} (h : isCode c = true) (cs : List Char) :
    literalsFrom .code (c :: cs) = literalsFrom .code cs :=
  literalsFrom_outside rfl cs (stepCode_of_isCode h)

theorem literalsFrom_code_append {xs : List Char} (h : ∀ c ∈ xs, isCode c = true)
    (cs : List Char) : literalsFrom .code (xs ++ cs) = literalsFrom .code cs := by
  induction xs with
  | nil => rfl
  | cons c xs ih =>
    rw [List.cons_append, literalsFrom_code_cons (h c List.mem_cons_self),
      ih fun d hd ↦ h d (List.mem_cons_of_mem _ hd)]

theorem literalsFrom_slash {cs : List Char} (h : ∀ c ∈ cs.head?, c ≠ '/' ∧ c ≠ '*') :
    literalsFrom .slash cs = literalsFrom .code cs := by
  cases cs with
  | nil => rfl
  | cons c cs =>
    obtain ⟨slash, star⟩ := h c rfl
    exact literalsFrom_cons_congr (p := .slash) (q := .code)
      ((if_neg slash).trans (if_neg star)) rfl cs

/-- Two quotes that begin no text block are an empty literal. -/
theorem literalsFrom_quotes {cs : List Char} (h : ∀ c ∈ cs.head?, c ≠ '"') :
    literalsFrom .quotes cs = (literalsFrom .code cs).map ([] :: ·) := by
  cases cs with
  | nil => rfl
  | cons c cs =>
    have other := h c rfl
    have step : Place.quotes.step c = Place.code.step c := if_neg other
    cases hs : Place.code.step c with
    | none =>
      rw [literalsFrom_of_step_eq_none hs, literalsFrom_of_step_eq_none (step.trans hs)]; rfl
    | some s =>
      rw [literalsFrom_cons hs, literalsFrom_cons (step.trans hs), Option.map_map]
      refine congrArg (Option.map · _) (funext fun rest ↦ ?_)
      simp [Place.before, other]

/-! ## Comments -/

/-- A line comment is skipped to the end of its line. -/
theorem literalsFrom_lineComment (cs : List Char) :
    literalsFrom .lineComment cs = literalsFrom .code (cs.dropWhile (· != '\n')) := by
  induction cs with
  | nil => rfl
  | cons c cs ih =>
    rw [literalsFrom_outside (p := .lineComment) rfl cs rfl]
    split
    next h =>
      subst h
      rw [List.dropWhile_cons_of_neg (by simp), literalsFrom_code_cons (by decide)]
    next h => rw [ih, List.dropWhile_cons_of_pos (by simpa using h)]

/-- A block comment is skipped as the lexer skips it. -/
theorem literalsFrom_comment (cs : List Char) :
    literalsFrom .comment cs = (closeComment cs).bind fun s ↦ literalsFrom .code s.2 := by
  fun_induction closeComment cs with
  | case1 cs =>
    rw [literalsFrom_outside (p := .comment) rfl _ rfl, if_pos rfl,
      literalsFrom_outside (p := .star) rfl _ rfl, if_pos rfl]
    rfl
  | case2 c cs no_end ih =>
    have same : literalsFrom .comment (c :: cs) = literalsFrom .comment cs := by
      rw [literalsFrom_outside (p := .comment) rfl _ rfl]
      split
      next star =>
        cases cs with
        | nil => rfl
        | cons d cs =>
          have slash : d ≠ '/' := fun h ↦ no_end cs star (by rw [h])
          exact literalsFrom_cons_congr (p := .star) (q := .comment)
            (congrArg (fun next ↦ some (Part.outside, next)) (if_neg slash)) rfl cs
      next => rfl
    rw [same, ih, Option.bind_map]
    rfl
  | case3 => rfl

/-! ## Literals -/

/-- The characters of a literal up to its end, and the literals behind. -/
def closing (s : Split) : Option (List (List Char)) := (literalsFrom .code s.2).map (s.1 :: ·)

theorem closing_taking (taken : List Char) (s : Split) :
    closing (taking taken s) = (closing s).map fun rest ↦ rest.modifyHead (taken ++ ·) := by
  rw [closing, closing, Option.map_map]
  rfl

/-- A scanner that goes on behind some characters. -/
theorem bind_closing_taking (taken : List Char) (o : Option Split) :
    (o.map (taking taken)).bind closing =
      (o.bind closing).map fun rest ↦ rest.modifyHead (taken ++ ·) := by
  cases o with
  | none => rfl
  | some s => exact closing_taking taken s

/-- The same for two characters of the literal. -/
theorem bind_closing_pair (c d : Char) (o : Option Split) :
    (o.map (taking [c, d])).bind closing =
      ((o.bind closing).map fun rest ↦ rest.modifyHead (d :: ·)).map fun rest ↦
        rest.modifyHead (c :: ·) := by
  rw [bind_closing_taking, Option.map_map]
  refine congrArg (Option.map · _) (funext fun rest ↦ ?_)
  rw [Function.comp_apply, List.modifyHead_modifyHead]
  rfl

theorem Quote.char_ne (q : Quote) : q.char ≠ '\\' := by cases q <;> decide

/-- A literal in quotes ends where the lexer closes it. -/
theorem literalsFrom_quoted (q : Quote) (cs : List Char) :
    literalsFrom (.quoted q) cs = (closeQuote q.char cs).bind closing := by
  fun_induction closeQuote q.char cs with
  | case1 => rfl
  | case2 cs =>
    rw [literalsFrom_inside (p := .quoted q) rfl _ rfl,
      literalsFrom_of_step_eq_none (p := .escape q) rfl]
    rfl
  | case3 c cs other ih =>
    have step : (Place.escape q).step c = some (.inside, .quoted q) := if_neg other
    rw [literalsFrom_inside (p := .quoted q) rfl _ rfl, literalsFrom_inside rfl _ step, ih,
      bind_closing_pair]
  | case4 cs no_escape =>
    have step : (Place.quoted q).step q.char = some (.last, .code) :=
      (if_neg q.char_ne).trans (if_pos rfl)
    rw [literalsFrom_last rfl _ step]
    rfl
  | case5 c cs no_escape other stop =>
    refine stop.elim (fun line ↦ ?_) fun escape ↦ ?_
    · have step : (Place.quoted q).step c = none :=
        (if_neg (by rw [line]; decide)).trans ((if_neg other).trans (if_pos line))
      exact literalsFrom_of_step_eq_none step cs
    · have last : cs = [] := by
        cases cs with
        | nil => rfl
        | cons d cs => exact absurd rfl (no_escape d cs escape)
      subst escape last
      rfl
  | case6 c cs no_escape other going ih =>
    simp only [not_or] at going
    have step : (Place.quoted q).step c = some (.inside, .quoted q) :=
      (if_neg going.2).trans ((if_neg other).trans (if_neg going.1))
    rw [literalsFrom_inside rfl _ step, ih, bind_closing_taking]
    rfl

/-- Up to two quotes do not end a text block. -/
theorem literalsFrom_blockQuotes {cs : List Char} (h : ∀ c ∈ cs.head?, c ≠ '"') :
    literalsFrom .blockQuote cs = literalsFrom .block cs ∧
      literalsFrom .blockQuotes cs = literalsFrom .block cs := by
  cases cs with
  | nil => exact ⟨rfl, rfl⟩
  | cons c cs =>
    have other : c ≠ '"' := h c rfl
    exact ⟨literalsFrom_cons_congr (p := .blockQuote) (q := .block) (if_neg other) rfl cs,
      literalsFrom_cons_congr (p := .blockQuotes) (q := .block) (if_neg other) rfl cs⟩

/-- Fewer than three quotes do not end a text block. -/
theorem literalsFrom_blockQuote {cs : List Char} (h : ¬ ['"', '"'] <+: cs) :
    literalsFrom .blockQuote cs = literalsFrom .block cs := by
  by_cases quote : cs.head? = some '"'
  · obtain ⟨cs, rfl⟩ := List.head?_eq_some_iff.1 quote
    have next : ∀ c ∈ cs.head?, c ≠ '"' := by
      rintro c hc rfl
      obtain ⟨cs, rfl⟩ := List.head?_eq_some_iff.1 hc
      exact h ⟨cs, rfl⟩
    rw [literalsFrom_inside (p := .blockQuote) rfl _ rfl,
      literalsFrom_inside (p := .block) rfl _ rfl]
    obtain ⟨one, two⟩ := literalsFrom_blockQuotes next
    exact congrArg (Option.map _) (two.trans one.symm)
  · refine (literalsFrom_blockQuotes fun c hc ↦ ?_).1
    rintro rfl
    exact quote hc

/-- A text block ends where the lexer closes it. -/
theorem literalsFrom_block (cs : List Char) :
    literalsFrom .block cs = (closeTextBlock cs).bind closing := by
  fun_induction closeTextBlock cs with
  | case1 => rfl
  | case2 c cs ih =>
    rw [literalsFrom_inside (p := .block) rfl _ rfl,
      literalsFrom_inside (p := .blockEscape) rfl _ rfl,
      ih, bind_closing_pair]
  | case3 cs =>
    rw [literalsFrom_inside (p := .block) rfl _ rfl,
      literalsFrom_inside (p := .blockQuote) rfl _ rfl,
      literalsFrom_last (p := .blockQuotes) rfl _ rfl, Option.map_map, Option.map_map]
    rfl
  | case4 c cs no_escape no_end ih =>
    have same : literalsFrom .block (c :: cs) =
        (literalsFrom .block cs).map fun rest ↦ rest.modifyHead (c :: ·) := by
      by_cases escape : c = '\\'
      · have last : cs = [] := by
          cases cs with
          | nil => rfl
          | cons d cs => exact absurd rfl (no_escape d cs escape)
        subst escape last
        rfl
      by_cases quote : c = '"'
      · subst quote
        have short : ¬ ['"', '"'] <+: cs := by
          rintro ⟨rest, rfl⟩
          exact no_end rest rfl rfl
        rw [literalsFrom_inside (p := .block) rfl _ rfl]
        exact congrArg (Option.map _) (literalsFrom_blockQuote short)
      · have step : Place.block.step c = some (.inside, .block) :=
          congrArg some ((if_neg escape).trans (if_neg quote))
        rw [literalsFrom_inside rfl _ step]
    rw [same, ih, bind_closing_taking]
    rfl

/-! ## Tokens -/

/-- The literals of a text that starts with this token. -/
def literalsOfScan : TokenKind × Split → Option (List (List Char))
  | (kind, taken, left) =>
    (literalsFrom .code left).map fun rest ↦ if kind.isLiteral then taken :: rest else rest

/-- A token that is no literal and all code is skipped. -/
theorem literalsFrom_of_code {kind : TokenKind} (other : kind.isLiteral = false) {s : Split}
    {cs : List Char} (whole : s.1 ++ s.2 = cs) (h : ∀ c ∈ s.1, isCode c = true) :
    literalsFrom .code cs = literalsOfScan (kind, s) := by
  rw [← whole, literalsFrom_code_append h, literalsOfScan]
  simp [other]

theorem isCode_of_isIdentPart {c : Char} (h : isIdentPart c = true) : isCode c = true := by
  have slash : c ≠ '/' := by rintro rfl; exact absurd h (by decide)
  simp [isCode, h, slash]

theorem isIdentPart_of_isNumberPart {c : Char} (h : isNumberPart c = true) :
    isIdentPart c = true := by
  simp only [isNumberPart, Bool.or_eq_true] at h
  obtain (digit | letter) | underscore := h
  · simp [isIdentPart, digit]
  · simp [isIdentPart, isIdentStart, letter]
  · simp [isIdentPart, isIdentStart, underscore]

theorem isCode_of_mem_numberTail {cs : List Char} {c : Char} (h : c ∈ (numberTail cs).1) :
    isCode c = true := by
  have part {cs : List Char} (h : c ∈ cs.takeWhile isNumberPart) : isCode c = true :=
    isCode_of_isIdentPart (isIdentPart_of_isNumberPart (List.all_eq_true.1 List.all_takeWhile c h))
  obtain whole | fraction := List.mem_append.1 h
  · exact part whole
  · unfold Lexer.fraction at fraction
    split at fraction
    next d cs _ =>
      split at fraction
      next digit =>
        obtain rfl | rfl | rest : c = '.' ∨ c = d ∨ c ∈ cs.takeWhile isNumberPart := by
          simpa [taking, spanWhile] using fraction
        · decide
        · exact isCode_of_isIdentPart (by simp [isIdentPart, digit])
        · exact part rest
      next => cases fraction
    next => cases fraction

/-- Words are no literals, although some of them are called so. -/
theorem isLiteral_wordKind (word : List Char) : (wordKind word).isLiteral = false := by
  unfold wordKind
  split <;> rfl

/-- Tokens of one character, and names and numbers. -/
theorem literalsFrom_scanFrom {c : Char} {cs : List Char} (skipped : isSkipped c = false)
    (comment : c = '/' → ∀ d ∈ cs.head?, d ≠ '/' ∧ d ≠ '*') (quote : c ≠ '"')
    (apostrophe : c ≠ '\'') :
    literalsFrom .code (c :: cs) = (scanFrom c cs).bind literalsOfScan := by
  unfold scanFrom
  split
  next start =>
    have part : ∀ d ∈ c :: cs.takeWhile isIdentPart, isIdentPart d = true :=
      List.forall_mem_cons.2 ⟨by simp [isIdentPart, start], List.all_eq_true.1 List.all_takeWhile⟩
    exact literalsFrom_of_code (s := taking [c] (spanWhile isIdentPart cs)) (isLiteral_wordKind _)
      (by simp [spanWhile_append]) fun d hd ↦ isCode_of_isIdentPart (part d hd)
  split
  next digit =>
    have part : ∀ d ∈ c :: (numberTail cs).1, isCode d = true :=
      List.forall_mem_cons.2 ⟨isCode_of_isIdentPart (by simp [isIdentPart, digit]),
        fun d ↦ isCode_of_mem_numberTail⟩
    exact literalsFrom_of_code (s := taking [c] (numberTail cs)) rfl (by simp [numberTail_append])
      part
  split
  next operator =>
    by_cases slash : c = '/'
    · subst slash
      rw [literalsFrom_outside (p := .code) rfl _ rfl, literalsFrom_slash (comment rfl)]
      exact Option.map_id'.symm
    · exact literalsFrom_of_code (s := ([c], cs)) rfl rfl (by simp [isCode, slash, operator])
  next name number operator =>
    have slash : c ≠ '/' := by rintro rfl; exact operator (by decide)
    cases hp : Punct.ofChar? c with
    | some p => exact literalsFrom_of_code (s := ([c], cs)) rfl rfl (by simp [isCode, slash, hp])
    | none =>
      have other : isCode c = false := by
        simp [isCode, isIdentPart, skipped, name, number, operator, hp]
      refine literalsFrom_of_step_eq_none ?_ cs
      show Place.stepCode c = none
      rw [Place.stepCode, if_neg slash, if_neg quote, if_neg apostrophe, if_neg (by simp [other])]

/-- A string literal, known not to be a text block. -/
theorem literalsFrom_quote {cs : List Char} (h : ¬ ['"', '"'] <+: cs) :
    literalsFrom .quote cs = (closeQuote '"' cs).bind closing := by
  by_cases empty : cs.head? = some '"'
  · obtain ⟨cs, rfl⟩ := List.head?_eq_some_iff.1 empty
    have next : ∀ c ∈ cs.head?, c ≠ '"' := by
      rintro c hc rfl
      obtain ⟨cs, rfl⟩ := List.head?_eq_some_iff.1 hc
      exact h ⟨cs, rfl⟩
    rw [literalsFrom_inside (p := .quote) rfl _ rfl, literalsFrom_quotes next, Option.map_map]
    rfl
  · refine Eq.trans ?_ (literalsFrom_quoted .double cs)
    cases cs with
    | nil => rfl
    | cons c cs =>
      have other : c ≠ '"' := by rintro rfl; exact empty rfl
      exact literalsFrom_cons_congr (p := .quote) (q := .quoted .double) (if_neg other) rfl cs

/-- A literal that ends where `close` says, behind the characters that begin it. -/
theorem bind_literalsOfScan {kind : TokenKind} (literal : kind.isLiteral = true) (start : List Char)
    (close : Option Split) :
    (close.map fun s ↦ (kind, taking start s)).bind literalsOfScan =
      (close.bind closing).map fun rest ↦ rest.modifyHead (start ++ ·) := by
  cases close with
  | none => rfl
  | some s =>
    simp only [Option.map_some, Option.bind_some, literalsOfScan, closing, literal, if_true,
      Option.map_map]
    rfl

/-- From code, the automaton does what the scan of one token does. -/
theorem literalsFrom_scan {c : Char} (skipped : isSkipped c = false) (cs : List Char) :
    literalsFrom .code (c :: cs) = (scan (c :: cs)).bind literalsOfScan := by
  generalize whole : c :: cs = text
  unfold scan
  split
  next cs =>
    rw [literalsFrom_outside (p := .code) rfl _ rfl, literalsFrom_outside (p := .slash) rfl _ rfl,
      literalsFrom_lineComment]
    exact Option.map_id'.symm
  next cs =>
    rw [literalsFrom_outside (p := .code) rfl _ rfl, literalsFrom_outside (p := .slash) rfl _ rfl,
      literalsFrom_comment, Option.bind_map]
    exact congrArg (Option.bind _) (funext fun s ↦ Option.map_id'.symm)
  next cs =>
    rw [bind_literalsOfScan rfl, literalsFrom_inside (p := .code) rfl _ rfl,
      literalsFrom_inside (p := .quote) rfl _ rfl, literalsFrom_inside (p := .quotes) rfl _ rfl,
      literalsFrom_block, Option.map_map, Option.map_map]
    exact congrArg (Option.map · _) (funext fun rest ↦ by simp [List.modifyHead_modifyHead]; rfl)
  next cs block =>
    have short : ¬ ['"', '"'] <+: cs := fun ⟨rest, hrest⟩ ↦ block rest hrest.symm
    rw [bind_literalsOfScan rfl, literalsFrom_inside (p := .code) rfl _ rfl,
      literalsFrom_quote short]
    rfl
  next cs =>
    rw [bind_literalsOfScan rfl, literalsFrom_inside (p := .code) rfl _ rfl,
      literalsFrom_quoted .single]
    rfl
  next cs =>
    have dot : isCode '.' = true := by decide
    have dots : ∀ c ∈ ['.', '.', '.'], isCode c = true := by simp [dot]
    exact literalsFrom_of_code (s := (['.', '.', '.'], cs)) rfl rfl dots
  next d ds line block text string char dots =>
    obtain ⟨rfl, rfl⟩ := List.cons.inj whole
    refine literalsFrom_scanFrom skipped ?_ string char
    rintro rfl d hd
    obtain ⟨cs, rfl⟩ := List.head?_eq_some_iff.1 hd
    exact ⟨fun e ↦ line cs rfl (by rw [e]), fun e ↦ block cs rfl (by rw [e])⟩
  next => cases whole

/-! ## Whole texts -/

theorem isCode_of_isSkipped {c : Char} (h : isSkipped c = true) : isCode c = true := by
  have slash : c ≠ '/' := by rintro rfl; exact absurd h (by decide)
  simp [isCode, h, slash]

theorem literalsFrom_dropWhile_isSkipped (cs : List Char) :
    literalsFrom .code (cs.dropWhile isSkipped) = literalsFrom .code cs := by
  have front : ∀ c ∈ cs.takeWhile isSkipped, isCode c = true :=
    fun c hc ↦ isCode_of_isSkipped (List.all_eq_true.1 List.all_takeWhile c hc)
  rw [← literalsFrom_code_append front, List.takeWhile_append_dropWhile]

/-- The literals of a text, and whether it can be read, without its tokens. -/
theorem literalsFrom_code (cs : List Char) : literalsFrom .code cs =
    (tokenizeChars cs).toOption.map fun l ↦ l.literals.map String.toList := by
  rw [← literalsFrom_dropWhile_isSkipped]
  have skipped {cs : List Char} {c rest} (h : cs.dropWhile isSkipped = c :: rest) :
      isSkipped c = false := by
    simpa [h] using List.head?_dropWhile_not isSkipped cs
  fun_induction tokenizeChars cs with
  | case1 cs blank hd => rw [hd]; rfl
  | case2 cs c rest hd hs =>
    rw [hd, literalsFrom_scan (skipped hd), hs]
    rfl
  | case3 cs blank c rest hd kind text left hs ih =>
    rw [hd, literalsFrom_scan (skipped hd), hs, Option.bind_some, literalsOfScan,
      ← literalsFrom_dropWhile_isSkipped, ih]
    cases tokenizeChars left with
    | error => rfl
    | ok l =>
      cases literal : kind.isLiteral <;>
        simp [Except.map, Except.toOption, Lexed.literals, Lexed.cons, literal]

/-- The automaton reads the literals of a text exactly when it can be tokenized, and it reads
the literals of the tokens. -/
theorem literalsFrom_eq_some {cs : List Char} {ls : List (List Char)} :
    literalsFrom .code cs = some ls ↔
      ∃ l, tokenizeChars cs = .ok l ∧ l.literals.map String.toList = ls := by
  rw [literalsFrom_code]
  cases tokenizeChars cs <;> simp [Except.toOption]

end Lexer

end PlatformOverlay.Java
