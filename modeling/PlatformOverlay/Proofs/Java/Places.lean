import PlatformOverlay.Proofs.Java.Literals

/-!
# Editing a text and its literals

What is left of a literal ends with a quote (`exists_literal`), so an edit that looks no further
than to the next quote edits the literals of a text as if each were a text of its own.  This is put
together character by character (`literalsFrom_keep`); characters that mean the same in every place
may be exchanged for others of the kind (`literalsFrom_plain`), and lines without quotes, slashes
and backslashes may be taken out (`literalsFrom_omit`).

The place that reading has come to is the invariant. Behind each of these edits it is the same in
both texts, so what follows is read alike, and the literals that are open are those which the edit
has treated.
-/

namespace PlatformOverlay.Java.Lexer

/-- Is what is left of the literals in the first place what is left of one that has begun? -/
def Place.isInside : Place → Bool
  | code | slash | lineComment | comment | star => false
  | quote | quotes | quoted _ | escape _ | block | blockEscape | blockQuote | blockQuotes => true

/-- What reading a character makes of what is left of the literals behind it. -/
inductive Effect (c : Char) : Place → Place → (List (List Char) → List (List Char)) → Prop where
  | outside {p next : Place} : p.isInside = false → next.isInside = false → Effect c p next id
  | opens {p next : Place} (q : Quote) : p.isInside = false → next.isInside = true →
      next ≠ .quotes → c = q.char → Effect c p next (List.modifyHead (c :: ·))
  | inside {p next : Place} : p.isInside = true → next.isInside = true →
      (next = .quotes → c = Quote.double.char) → Effect c p next (List.modifyHead (c :: ·))
  | closes {p : Place} (q : Quote) : p.isInside = true → c = q.char →
      Effect c p .code (List.cons [c])
  /-- The literal in front is empty. -/
  | behind {next : Place} {f : List (List Char) → List (List Char)} :
      Effect c .code next f → Effect c .quotes next (List.cons [] ∘ f)

section effect

variable {p next : Place} {c : Char} {part : Part}

theorem effect_stepCode (outside : p.isInside = false) (h : Place.stepCode c = some (part, next)) :
    Effect c p next (part.add c) := by
  unfold Place.stepCode at h
  split at h
  · cases h
    exact .outside outside rfl
  split at h
  next quote =>
    cases h
    exact .opens .double outside rfl (by decide) quote
  split at h
  next quote =>
    cases h
    exact .opens .single outside rfl (by decide) quote
  split at h
  · cases h
    exact .outside outside rfl
  · cases h

theorem effect_stepQuoted {q : Quote} (inside : p.isInside = true)
    (h : Place.stepQuoted q c = some (part, next)) : Effect c p next (part.add c) := by
  unfold Place.stepQuoted at h
  split at h
  · cases h
    exact .inside inside rfl (by simp)
  split at h
  next quote =>
    cases h
    exact .closes q inside quote
  split at h
  · cases h
  · cases h
    exact .inside inside rfl (by simp)

theorem effect_stepBlock (inside : p.isInside = true) (h : Place.stepBlock c = (part, next)) :
    Effect c p next (part.add c) := by
  unfold Place.stepBlock at h
  split at h
  · cases h
    exact .inside inside rfl (by simp)
  split at h
  · cases h
    exact .inside inside rfl (by simp)
  · cases h
    exact .inside inside rfl (by simp)

/-- Every step of the automaton has one of these four effects. -/
theorem effect_step (h : p.step c = some (part, next)) :
    Effect c p next fun rest ↦ p.before c ++ part.add c rest := by
  cases p with
  | code => exact effect_stepCode rfl h
  | slash =>
    simp only [Place.step] at h
    split at h
    · cases h
      exact .outside rfl rfl
    split at h
    · cases h
      exact .outside rfl rfl
    · exact effect_stepCode rfl h
  | lineComment =>
    cases h
    exact .outside rfl (by split <;> rfl)
  | comment =>
    cases h
    exact .outside rfl (by split <;> rfl)
  | star =>
    cases h
    refine .outside rfl ?_
    split
    · rfl
    · split <;> rfl
  | quote =>
    simp only [Place.step] at h
    split at h
    next quote =>
      cases h
      exact .inside rfl rfl fun _ ↦ quote
    · exact effect_stepQuoted rfl h
  -- Two quotes are an empty literal or open a text block, so they count only with what comes next.
  | quotes =>
    simp only [Place.step, Place.before] at h ⊢
    split at h
    next quote =>
      cases h
      rw [if_pos quote]
      exact .inside rfl rfl (by simp)
    next other =>
      rw [if_neg other]
      exact .behind (effect_stepCode rfl h)
  | quoted q => exact effect_stepQuoted rfl h
  | escape q =>
    simp only [Place.step] at h
    split at h
    · cases h
    · cases h
      exact .inside rfl rfl (by simp)
  | block => exact effect_stepBlock rfl (Option.some.inj h)
  | blockEscape =>
    cases h
    exact .inside rfl rfl (by simp)
  | blockQuote =>
    simp only [Place.step] at h
    split at h
    · cases h
      exact .inside rfl rfl (by simp)
    · exact effect_stepBlock rfl (Option.some.inj h)
  | blockQuotes =>
    simp only [Place.step] at h
    split at h
    next quote =>
      cases h
      exact .closes .double rfl quote
    · exact effect_stepBlock rfl (Option.some.inj h)

end effect

/-- What reading a character does is known without looking further: the effect is the same
whatever follows. -/
theorem exists_of_literalsFrom_cons {p : Place} {c : Char} {cs : List Char} {l : List (List Char)}
    (h : literalsFrom p (c :: cs) = some l) : ∃ next f rest, Effect c p next f ∧
      (∀ ds, literalsFrom p (c :: ds) = (literalsFrom next ds).map f) ∧
      literalsFrom next cs = some rest ∧ l = f rest := by
  cases step : p.step c with
  | none => rw [literalsFrom_of_step_eq_none step] at h; cases h
  | some s =>
    rw [literalsFrom_cons step, Option.map_eq_some_iff] at h
    obtain ⟨rest, hrest, rfl⟩ := h
    exact ⟨s.2, _, rest, effect_step step, literalsFrom_cons step, hrest, rfl⟩

/-! ## What is left of a literal -/

def EndsWithQuote (cs : List Char) : Prop := ∃ front, ∃ q : Quote, cs = front ++ [q.char]

theorem EndsWithQuote.ne_nil {cs : List Char} (h : EndsWithQuote cs) : cs ≠ [] := by
  obtain ⟨front, q, rfl⟩ := h
  simp

theorem EndsWithQuote.append {cs : List Char} (h : EndsWithQuote cs) (front : List Char) :
    EndsWithQuote (front ++ cs) := by
  obtain ⟨front', q, rfl⟩ := h
  exact ⟨front ++ front', q, (List.append_assoc ..).symm⟩

theorem Quote.ne_of_ne {c : Char} (h : c ≠ '"' ∧ c ≠ '\'') (q : Quote) : q.char ≠ c := by
  cases q
  · exact h.2.symm
  · exact h.1.symm

/-- What is left of a literal that has begun is a front part of the text and ends with a quote. -/
theorem exists_literal {p : Place} {cs : List Char} {l : List (List Char)}
    (h : literalsFrom p cs = some l) (inside : p.isInside = true) : ∃ literal rest more,
      l = literal :: rest ∧ cs = literal ++ more ∧
        (literal = [] ∧ p = .quotes ∨ EndsWithQuote literal) := by
  induction cs generalizing p l with
  | nil =>
    cases p with
    | quotes =>
      cases h
      exact ⟨[], [], [], rfl, rfl, .inl ⟨rfl, rfl⟩⟩
    | _ => first | exact absurd inside (by decide) | exact nomatch h
  | cons c cs ih =>
    obtain ⟨next, f, rest, effect, -, hrest, rfl⟩ := exists_of_literalsFrom_cons h
    cases effect with
    | outside outside => rw [outside] at inside; cases inside
    | opens q outside => rw [outside] at inside; cases inside
    | inside _ inside quotes =>
      obtain ⟨literal, others, more, rfl, rfl, empty | ends⟩ := ih hrest inside
      · refine ⟨c :: literal, others, more, rfl, rfl, .inr ?_⟩
        exact ⟨[], .double, by rw [empty.1, quotes empty.2]; rfl⟩
      · exact ⟨c :: literal, others, more, rfl, rfl, .inr (ends.append [c])⟩
    | closes q _ quote => exact ⟨[c], rest, cs, rfl, rfl, .inr ⟨[], q, by rw [quote]; rfl⟩⟩
    | behind => exact ⟨[], _, c :: cs, rfl, rfl, .inl ⟨rfl, rfl⟩⟩

/-- A literal that goes on behind a character, which may be its last. -/
theorem exists_literal_behind {next : Place} {c : Char} {cs : List Char} {l : List (List Char)}
    (h : literalsFrom next cs = some l) (inside : next.isInside = true)
    (quotes : next = .quotes → c = Quote.double.char) : ∃ literal rest more,
      l = literal :: rest ∧ cs = literal ++ more ∧ EndsWithQuote (c :: literal) := by
  obtain ⟨literal, rest, more, rfl, rfl, ⟨rfl, empty⟩ | ends⟩ := exists_literal h inside
  · exact ⟨[], rest, more, rfl, rfl, [], .double, by rw [quotes empty]; rfl⟩
  · exact ⟨literal, rest, more, rfl, rfl, ends.append [c]⟩

/-- The literals that have not begun yet. -/
def Place.whole (p : Place) (l : List (List Char)) : List (List Char) :=
  if p.isInside then l.tail else l

/-- Literals that begin in the text end with a quote. -/
theorem endsWithQuote_of_literalsFrom {p : Place} {cs : List Char} {l : List (List Char)}
    (h : literalsFrom p cs = some l) : ∀ literal ∈ p.whole l, EndsWithQuote literal := by
  induction cs generalizing p l with
  | nil => cases p <;> cases h <;> simp [Place.whole, Place.isInside]
  | cons c cs ih =>
    obtain ⟨next, put, rest, effect, -, hrest, rfl⟩ := exists_of_literalsFrom_cons h
    have later := ih hrest
    clear h ih
    induction effect with
    | outside outside outside' => simpa [Place.whole, outside, outside'] using later
    | opens q outside inside ne quote =>
      obtain ⟨literal, others, more, rfl, rfl, ends⟩ :=
        exists_literal_behind hrest inside fun h ↦ absurd h ne
      simp only [Place.whole, outside, inside, if_true, List.tail_cons] at later ⊢
      exact List.forall_mem_cons.2 ⟨ends, later⟩
    | inside inside₁ inside₂ => simpa [Place.whole, inside₁, inside₂] using later
    | closes q inside quote =>
      rw [Place.whole, if_pos inside]
      exact later
    | behind effect ih => exact ih hrest later

/-! ## Edits -/

/-- Edit what is left of the literal that has begun with `f` and the literals behind with `g`. -/
def Place.edit (p : Place) (f g : List Char → List Char) : List (List Char) → List (List Char)
  | [] => []
  | literal :: rest => (if p.isInside then f literal else g literal) :: rest.map g

section edit

variable {p : Place} {f f' g : List Char → List Char}

/-- Outside of literals, all that follow are edited alike. -/
theorem edit_outside (outside : p.isInside = false) (l : List (List Char)) :
    p.edit f g l = l.map g := by
  cases l with
  | nil => rfl
  | cons literal rest => simp [Place.edit, outside]

theorem edit_inside (inside : p.isInside = true) (literal : List Char) (rest : List (List Char)) :
    p.edit f g (literal :: rest) = f literal :: rest.map g := by
  simp [Place.edit, inside]

/-- At the end of a text no literal is left to be edited. -/
theorem edit_atEnd {l : List (List Char)} (nil : f [] = []) (h : literalsFrom p [] = some l) :
    p.edit f g l = l := by
  cases p <;> cases h
  all_goals first | rfl | exact congrArg (· :: []) nil

/-- A character that the edit keeps, seen in the text and in a literal. -/
theorem literalsFrom_keep {c : Char} {cs cs' : List Char} {l : List (List Char)}
    (nil : f [] = [] ∧ f' [] = []) (h : literalsFrom p (c :: cs) = some l)
    (edited : ∀ next rest, literalsFrom next cs = some rest →
      literalsFrom next cs' = some (next.edit f' g rest))
    (inside : ∀ literal more, EndsWithQuote (c :: literal) → cs = literal ++ more →
      f (c :: literal) = c :: f' literal)
    (opens : ∀ literal more, EndsWithQuote (c :: literal) → cs = literal ++ more →
      (∃ q : Quote, c = q.char) → g (c :: literal) = c :: f' literal) :
    literalsFrom p (c :: cs') = some (p.edit f g l) := by
  obtain ⟨next, put, rest, effect, step, hrest, rfl⟩ := exists_of_literalsFrom_cons h
  rw [step, edited next rest hrest, Option.map_some]
  refine congrArg some ?_
  clear h step
  induction effect with
  | outside outside outside' =>
    rw [edit_outside outside, edit_outside outside']
    rfl
  | opens q outside inside' ne quote =>
    obtain ⟨literal, others, more, rfl, rfl, ends⟩ :=
      exists_literal_behind hrest inside' fun h ↦ absurd h ne
    rw [edit_inside inside', edit_outside outside, List.modifyHead_cons, List.modifyHead_cons,
      List.map_cons, opens literal more ends rfl ⟨q, quote⟩]
  | inside inside₁ inside₂ quotes =>
    obtain ⟨literal, others, more, rfl, rfl, ends⟩ := exists_literal_behind hrest inside₂ quotes
    rw [edit_inside inside₂, List.modifyHead_cons, List.modifyHead_cons, edit_inside inside₁,
      inside literal more ends rfl]
  | closes q inside₁ quote =>
    have last : f [c] = [c] := by rw [inside [] cs ⟨[], q, by rw [quote]; rfl⟩ rfl, nil.2]
    rw [edit_inside inside₁, last, edit_outside rfl]
  | behind effect ih =>
    rw [Function.comp_apply, Function.comp_apply, ih hrest, edit_outside rfl,
      edit_inside rfl, nil.1]

end edit

/-! ## Plain characters -/

/-- The characters that mean the same in every place. -/
def isPlain (c : Char) : Bool := isCode c && c != '*' && c != '\n'

/-- The place behind plain characters. -/
def Place.behindPlain : Place → Place
  | code | slash | quotes => code
  | lineComment => lineComment
  | comment | star => comment
  | quote => quoted .double
  | quoted q | escape q => quoted q
  | block | blockEscape | blockQuote | blockQuotes => block

/-- What plain characters make of what is left of the literals behind them. -/
def Place.putPlain (p : Place) (xs : List Char) (l : List (List Char)) : List (List Char) :=
  if p = .quotes then [] :: l else if p.isInside then l.modifyHead (xs ++ ·) else l

/-- Further plain characters lead to the same place. -/
theorem behindPlain_behindPlain (p : Place) : p.behindPlain.behindPlain = p.behindPlain := by
  cases p <;> rfl

/-- What two stretches of plain characters make of the literals behind them. -/
theorem putPlain_putPlain (p : Place) (xs ys : List Char) (l : List (List Char)) :
    p.putPlain xs (p.behindPlain.putPlain ys l) = p.putPlain (xs ++ ys) l := by
  cases p <;> cases l <;> simp [Place.putPlain, Place.behindPlain, Place.isInside]

/-- A plain character, for rewriting with what `Place.step` asks about it. -/
structure PlainChar (c : Char) : Prop where
  code : Place.stepCode c = some (.outside, .code)
  slash : c ≠ '/'
  star : c ≠ '*'
  lineFeed : c ≠ '\n'
  escape : c ≠ '\\'
  double : c ≠ '"'
  quote : ∀ q : Quote, c ≠ q.char

theorem plainChar {c : Char} (h : isPlain c = true) : PlainChar c := by
  have ne {d : Char} (hd : isPlain d = false) : c ≠ d := by
    rintro rfl
    rw [h] at hd
    cases hd
  rw [isPlain, Bool.and_eq_true, Bool.and_eq_true] at h
  exact ⟨stepCode_of_isCode h.1.1, ne (by decide), ne (by decide), ne (by decide), ne (by decide),
    ne (by decide), fun q ↦ ne (by cases q <;> decide)⟩

/-- A plain character is part of a literal that has begun, and of nothing else. -/
theorem step_plain {c : Char} (h : PlainChar c) (p : Place) : p.step c =
    some (if p.isInside ∧ p ≠ .quotes then .inside else .outside, p.behindPlain) := by
  cases p <;> simp [Place.step, Place.stepQuoted, Place.stepBlock, Place.behindPlain,
    Place.isInside,
    h.code, h.slash, h.star, h.lineFeed, h.escape, h.double, h.quote]

theorem literalsFrom_plain_cons {c : Char} (h : isPlain c = true) (p : Place) (cs : List Char) :
    literalsFrom p (c :: cs) = (literalsFrom p.behindPlain cs).map (p.putPlain [c]) := by
  rw [literalsFrom_cons (step_plain (plainChar h) p)]
  refine congrArg (Option.map · _) (funext fun l ↦ ?_)
  have double : c ≠ '"' := (plainChar h).double
  cases p <;> simp [Place.before, Place.putPlain, Place.isInside, Part.add, double]

/-- Plain characters, of which there is at least one. -/
theorem literalsFrom_plain {xs : List Char} (nonempty : xs ≠ []) (h : xs.all isPlain = true)
    (p : Place) (cs : List Char) :
    literalsFrom p (xs ++ cs) = (literalsFrom p.behindPlain cs).map (p.putPlain xs) := by
  induction xs generalizing p with
  | nil => exact absurd rfl nonempty
  | cons c xs ih =>
    rw [List.all_cons, Bool.and_eq_true] at h
    rw [List.cons_append, literalsFrom_plain_cons h.1]
    by_cases nil : xs = []
    · rw [nil]
      rfl
    · rw [ih nil h.2, behindPlain_behindPlain, Option.map_map]
      exact congrArg (Option.map · _) (funext fun l ↦ putPlain_putPlain p [c] xs l)

/-- Plain characters that others take the place of, seen in the text and in a literal. -/
theorem literalsFrom_exchange {p : Place} {xs ys cs cs' : List Char} {l : List (List Char)}
    {f f' g : List Char → List Char} (nil : f [] = []) (hxs : xs ≠ [] ∧ xs.all isPlain = true)
    (hys : ys ≠ [] ∧ ys.all isPlain = true) (h : literalsFrom p (xs ++ cs) = some l)
    (edited : ∀ rest, literalsFrom p.behindPlain cs = some rest →
      literalsFrom p.behindPlain cs' = some (p.behindPlain.edit f' g rest))
    (inside : ∀ literal more, EndsWithQuote literal → cs = literal ++ more →
      f (xs ++ literal) = ys ++ f' literal) :
    literalsFrom p (ys ++ cs') = some (p.edit f g l) := by
  rw [literalsFrom_plain hxs.1 hxs.2, Option.map_eq_some_iff] at h
  obtain ⟨rest, hrest, rfl⟩ := h
  rw [literalsFrom_plain hys.1 hys.2, edited rest hrest, Option.map_some]
  refine congrArg some ?_
  by_cases empty : p = .quotes
  · subst empty
    rw [Place.putPlain, if_pos rfl, Place.putPlain, if_pos rfl, edit_inside rfl, nil,
      edit_outside rfl]
  rw [Place.putPlain, if_neg empty, Place.putPlain, if_neg empty]
  cases begun : p.isInside with
  | false =>
    have outside : p.behindPlain.isInside = false := by cases p <;> first | rfl | cases begun
    simp only [Bool.false_eq_true, if_false, edit_outside begun, edit_outside outside]
  | true =>
    have begun' : p.behindPlain.isInside = true := by
      cases p <;> first | exact absurd rfl empty | rfl | cases begun
    obtain ⟨literal, others, more, rfl, rfl, ⟨-, quotes⟩ | ends⟩ := exists_literal hrest begun'
    · cases p <;> cases quotes
    · simp only [if_true, List.modifyHead_cons, edit_inside begun, edit_inside begun',
        inside literal more ends rfl]

/-! ## Lines -/

/-- Which of code, comments, text blocks and empty literals the place is in at the end of a line,
where nothing else can be. -/
def Place.atLineEnd : Place → Option Place
  | code | slash | lineComment => some code
  | quotes => some quotes
  | comment | star => some comment
  | block | blockEscape | blockQuote | blockQuotes => some block
  | quote | quoted _ | escape _ => none

/-- At a line end, only the kind of text that the line is in matters. -/
theorem literalsFrom_atLineEnd {cs : List Char} (ends : cs = [] ∨ ∃ behind, cs = '\n' :: behind)
    (p : Place) : literalsFrom p cs = p.atLineEnd.bind (literalsFrom · cs) := by
  obtain rfl | ⟨behind, rfl⟩ := ends
  · cases p <;> rfl
  · cases p with
    | quote | escape => exact literalsFrom_of_step_eq_none rfl behind
    | quoted q => exact literalsFrom_of_step_eq_none (by cases q <;> rfl) behind
    | _ => exact literalsFrom_cons_congr rfl rfl behind

/-- Where only code can stand, a text that can be read has characters of code. -/
theorem isCode_of_literalsFrom {xs cs : List Char} {l : List (List Char)}
    (h : ∀ c ∈ xs, c ≠ '/' ∧ c ≠ '"' ∧ c ≠ '\'') (read : literalsFrom .code (xs ++ cs) = some l) :
    ∀ c ∈ xs, isCode c = true := by
  induction xs with
  | nil => simp
  | cons c xs ih =>
    obtain ⟨⟨slash, double, single⟩, h⟩ := List.forall_mem_cons.1 h
    cases code : isCode c with
    | true =>
      rw [List.cons_append, literalsFrom_code_cons code] at read
      exact List.forall_mem_cons.2 ⟨code, ih h read⟩
    | false =>
      have step : Place.code.step c = none := by
        simp [Place.step, Place.stepCode, slash, double, single, code]
      rw [List.cons_append, literalsFrom_of_step_eq_none step] at read
      cases read

/-- Code without slashes and quotes can be dropped in front of a text. -/
theorem literalsFrom_code_drop {xs cs : List Char} {l : List (List Char)}
    (h : ∀ c ∈ xs, c ≠ '/' ∧ c ≠ '"' ∧ c ≠ '\'') (read : literalsFrom .code (xs ++ cs) = some l) :
    literalsFrom .code cs = some l := by
  rwa [literalsFrom_code_append (isCode_of_literalsFrom h read)] at read

/-- A comment does not end on a line without slashes. -/
theorem literalsFrom_comment_line {xs cs : List Char} (h : '/' ∉ xs)
    (ends : cs = [] ∨ ∃ behind, cs = '\n' :: behind) :
    literalsFrom .comment (xs ++ cs) = literalsFrom .comment cs ∧
      literalsFrom .star (xs ++ cs) = literalsFrom .comment cs := by
  induction xs with
  | nil => exact ⟨rfl, literalsFrom_atLineEnd ends .star⟩
  | cons c xs ih =>
    rw [List.mem_cons, not_or] at h
    obtain ⟨comment, star⟩ := ih h.2
    rw [List.cons_append, literalsFrom_outside (p := .comment) rfl _ rfl,
      literalsFrom_outside (p := .star) rfl _ rfl, if_neg (Ne.symm h.1)]
    split
    · exact ⟨star, star⟩
    · exact ⟨comment, comment⟩

/-- The characters that neither begin nor end a literal, a comment or a line on their own. -/
def isInert (c : Char) : Bool := !(['/', '"', '\'', '\\', '\n'].contains c)

theorem ne_of_isInert {c : Char} (h : isInert c = true) :
    c ≠ '/' ∧ c ≠ '"' ∧ c ≠ '\'' ∧ c ≠ '\\' ∧ c ≠ '\n' := by
  simpa [isInert] using h

/-- A stretch of inert characters is part of a text block. -/
theorem literalsFrom_block_line {xs : List Char} (h : xs.all isInert = true) (cs : List Char) :
    literalsFrom .block (xs ++ cs) = (literalsFrom .block cs).map (List.modifyHead (xs ++ ·)) := by
  induction xs with
  | nil =>
    have same : List.modifyHead (([] : List Char) ++ ·) = id := funext fun l ↦ by cases l <;> rfl
    rw [List.nil_append, same, Option.map_id_fun, id_eq]
  | cons c xs ih =>
    rw [List.all_cons, Bool.and_eq_true] at h
    obtain ⟨-, quote, -, escape, -⟩ := ne_of_isInert h.1
    have step : Place.block.step c = some (.inside, .block) :=
      congrArg some ((if_neg escape).trans (if_neg quote))
    rw [List.cons_append, literalsFrom_inside rfl _ step, ih h.2, Option.map_map]
    refine congrArg (Option.map · _) (funext fun rest ↦ ?_)
    rw [Function.comp_apply, List.modifyHead_modifyHead]
    rfl

/-! ## Leaving characters out -/

/-- The characters can be left out in front of a text: they are characters of a literal that has
begun, or of none. -/
def Omits (p : Place) (xs cs : List Char) : Prop := ∀ l, literalsFrom p (xs ++ cs) = some l →
  ∃ l', literalsFrom p cs = some l' ∧ (l = l' ∨ p.isInside = true ∧ ∃ literal rest more,
    l' = literal :: rest ∧ l = (xs ++ literal) :: rest ∧ cs = literal ++ more ∧
      EndsWithQuote literal)

/-- Leaving out characters in front of a text edits the literal that has begun, if there is one,
and no other. -/
theorem literalsFrom_omit {p : Place} {xs cs cs' : List Char} {f g : List Char → List Char}
    {l : List (List Char)} (omits : Omits p xs cs) (h : literalsFrom p (xs ++ cs) = some l)
    (edited : ∀ l', literalsFrom p cs = some l' → literalsFrom p cs' = some (p.edit f g l'))
    (inside : ∀ literal more, EndsWithQuote literal → cs = literal ++ more →
      f (xs ++ literal) = f literal) : literalsFrom p cs' = some (p.edit f g l) := by
  obtain ⟨l', read, rfl | ⟨begun, literal, rest, more, rfl, rfl, split, ends⟩⟩ := omits l h
  · exact edited l read
  · rw [edited _ read, edit_inside begun, edit_inside begun, inside literal more ends split]

/-- A text block goes on behind characters that are left out of it. -/
theorem omits_block {p : Place} (begun : p.isInside = true) {xs cs : List Char}
    (front : literalsFrom p (xs ++ cs) = (literalsFrom .block cs).map (List.modifyHead (xs ++ ·)))
    (behind : literalsFrom p cs = literalsFrom .block cs) : Omits p xs cs := by
  intro l h
  rw [front, Option.map_eq_some_iff] at h
  obtain ⟨l', read, rfl⟩ := h
  obtain ⟨literal, rest, more, rfl, split, ⟨-, quotes⟩ | ends⟩ := exists_literal read rfl
  · cases quotes
  · exact ⟨_, behind.trans read, .inr ⟨begun, literal, rest, more, rfl, rfl, split, ends⟩⟩

/-- Characters that are left out of no literal. -/
theorem omits_of_eq {p : Place} {xs cs : List Char} (h : ∀ l, literalsFrom p (xs ++ cs) = some l →
    literalsFrom p cs = some l) : Omits p xs cs :=
  fun l hl ↦ ⟨l, h l hl, .inl rfl⟩

/-- What can be left out in one place can be left out in another of the same kind of text. -/
theorem Omits.atLineEnd {p r : Place} {xs cs : List Char} (h : Omits r xs cs)
    (hp : p.atLineEnd = some r) (front : xs ++ cs = [] ∨ ∃ behind, xs ++ cs = '\n' :: behind)
    (ends : cs = [] ∨ ∃ behind, cs = '\n' :: behind) : Omits p xs cs := by
  have begun : p.isInside = r.isInside := by cases p <;> cases hp <;> rfl
  rwa [Omits, literalsFrom_atLineEnd front, literalsFrom_atLineEnd ends, hp, begun]

/-- The empty literal in front is complete. -/
theorem Omits.quotes {xs cs : List Char} (h : Omits .code xs cs)
    (front : ∀ c ∈ (xs ++ cs).head?, c ≠ '"') (behind : ∀ c ∈ cs.head?, c ≠ '"') :
    Omits .quotes xs cs := by
  refine omits_of_eq fun l hl ↦ ?_
  rw [literalsFrom_quotes front, Option.map_eq_some_iff] at hl
  obtain ⟨rest, hrest, rfl⟩ := hl
  obtain ⟨rest', read, rfl | ⟨outside, -⟩⟩ := h rest hrest
  · rw [literalsFrom_quotes behind, read, Option.map_some]
  · cases outside

/-- A line and the line feed in front of it. -/
theorem omits_line {xs cs : List Char} (h : xs.all isInert = true)
    (ends : cs = [] ∨ ∃ behind, cs = '\n' :: behind) (p : Place) : Omits p ('\n' :: xs) cs := by
  have front : '\n' :: xs ++ cs = [] ∨ ∃ behind, '\n' :: xs ++ cs = '\n' :: behind := .inr ⟨_, rfl⟩
  have inert (c) (hc : c ∈ xs) := ne_of_isInert (List.all_eq_true.1 h c hc)
  have code : Omits .code ('\n' :: xs) cs := omits_of_eq fun l hl ↦ by
    rw [List.cons_append, literalsFrom_code_cons (by decide)] at hl
    exact literalsFrom_code_drop
      (fun c hc ↦ ⟨(inert c hc).1, (inert c hc).2.1, (inert c hc).2.2.1⟩) hl
  cases hp : p.atLineEnd with
  | none =>
    intro l hl
    rw [literalsFrom_atLineEnd front, hp] at hl
    cases hl
  | some r =>
    refine Omits.atLineEnd (r := r) ?_ hp front ends
    obtain rfl | rfl | rfl | rfl : r = .code ∨ r = .quotes ∨ r = .comment ∨ r = .block := by
      cases p <;> cases hp <;> simp
    · exact code
    · exact code.quotes (by simp) fun c hc ↦ by obtain rfl | ⟨_, rfl⟩ := ends <;> cases hc; decide
    · refine omits_of_eq fun l hl ↦ ?_
      rw [List.cons_append, literalsFrom_outside (p := .comment) rfl _ rfl] at hl
      exact (literalsFrom_comment_line (fun hm ↦ (inert _ hm).1 rfl) ends).1.symm.trans hl
    · refine omits_block rfl ?_ rfl
      rw [List.cons_append, literalsFrom_inside (p := .block) rfl _ rfl, literalsFrom_block_line h,
        Option.map_map]
      refine congrArg (Option.map · _) (funext fun rest ↦ ?_)
      rw [Function.comp_apply, List.modifyHead_modifyHead]
      rfl

/-- A carriage return at the end of a line. -/
theorem omits_return (p : Place) (cs : List Char) : Omits p ['\r'] ('\n' :: cs) := by
  have ends : '\n' :: cs = [] ∨ ∃ behind, '\n' :: cs = '\n' :: behind := .inr ⟨cs, rfl⟩
  have front : literalsFrom p (['\r'] ++ '\n' :: cs) = _ :=
    literalsFrom_plain_cons (by decide) p ('\n' :: cs)
  have code : Omits .code ['\r'] ('\n' :: cs) := omits_of_eq fun l hl ↦ by
    rwa [List.cons_append, literalsFrom_code_cons (by decide)] at hl
  cases p with
  | code => exact code
  | quotes => exact code.quotes (by simp) (by simp)
  | slash | lineComment | comment | star =>
    refine omits_of_eq fun l hl ↦ ?_
    rw [front, literalsFrom_atLineEnd ends] at hl
    rw [literalsFrom_atLineEnd ends]
    exact (congrFun Option.map_id_fun _).symm.trans hl
  | quote | quoted | escape =>
    intro l hl
    rw [front, literalsFrom_atLineEnd ends] at hl
    cases hl
  | block | blockEscape | blockQuote | blockQuotes =>
    refine omits_block rfl ?_ (literalsFrom_atLineEnd ends _)
    rw [front]
    rfl

/-! ## The place behind a text -/

/-- Reading comes to a place behind the text, or does not get through it. -/
theorem exists_place (p : Place) (xs : List Char) : (∀ ys, literalsFrom p (xs ++ ys) = none) ∨
    ∃ next put, ∀ ys, literalsFrom p (xs ++ ys) = (literalsFrom next ys).map put := by
  induction xs generalizing p with
  | nil => exact .inr ⟨p, id, fun ys ↦ by simp⟩
  | cons c xs ih =>
    cases step : p.step c with
    | none => exact .inl fun ys ↦ literalsFrom_of_step_eq_none step (xs ++ ys)
    | some s =>
      obtain none | ⟨next, put, behind⟩ := ih s.2
      · exact .inl fun ys ↦ by rw [List.cons_append, literalsFrom_cons step, none, Option.map_none]
      · exact .inr ⟨next, _, fun ys ↦ by
          rw [List.cons_append, literalsFrom_cons step, behind, Option.map_map]⟩

/-- A text is read up to any of its characters, and what follows from there. -/
theorem exists_place_of_literalsFrom {p : Place} {xs ys : List Char} {l : List (List Char)}
    (h : literalsFrom p (xs ++ ys) = some l) : ∃ next put rest, literalsFrom next ys = some rest ∧
      l = put rest ∧ ∀ ys, literalsFrom p (xs ++ ys) = (literalsFrom next ys).map put := by
  obtain none | ⟨next, put, behind⟩ := exists_place p xs
  · rw [none] at h
    cases h
  · rw [behind, Option.map_eq_some_iff] at h
    obtain ⟨rest, hrest, rfl⟩ := h
    exact ⟨next, put, rest, hrest, rfl, behind⟩

/-- A text that can be read can be read with a line feed behind it. -/
theorem literalsFrom_lineFeed {p : Place} {cs : List Char} {l : List (List Char)}
    (h : literalsFrom p cs = some l) : literalsFrom p (cs ++ ['\n']) = some l := by
  rw [← List.append_nil cs] at h
  obtain ⟨next, put, rest, hrest, rfl, behind⟩ := exists_place_of_literalsFrom h
  rw [behind]
  cases next <;> cases hrest <;> rfl

/-- The text ends in code or in a comment. -/
def EndsOutside (cs : List Char) : Prop := ∃ closing, (closing = [] ∨ closing = ['*', '/']) ∧
  ∃ l, tokenizeChars (cs ++ closing) = .ok l

/-- A text that does not end in a text block goes on in code or in a comment at a line end. -/
theorem exists_place_of_endsOutside {head rest : List Char} {l : List (List Char)}
    (outside : EndsOutside head) (ends : rest = [] ∨ ∃ behind, rest = '\n' :: behind)
    (h : literalsFrom .code (head ++ rest) = some l) : ∃ next put l',
      literalsFrom next rest = some l' ∧ l = put l' ∧
      (next = .code ∨ next = .quotes ∨ next = .comment) ∧
      ∀ behind, literalsFrom .code (head ++ '\n' :: behind) =
        (literalsFrom next ('\n' :: behind)).map put := by
  obtain ⟨p, put, l', read, rfl, behind⟩ := exists_place_of_literalsFrom h
  have notBlock : p.atLineEnd ≠ some .block := by
    obtain ⟨closing, hclosing, lexed, hlexed⟩ := outside
    have closed := literalsFrom_eq_some.2 ⟨lexed, hlexed, rfl⟩
    rw [behind, Option.map_eq_some_iff] at closed
    obtain ⟨_, closed, -⟩ := closed
    rintro block
    obtain rfl | rfl := hclosing <;> cases p <;> cases block <;> cases closed
  rw [literalsFrom_atLineEnd ends] at read
  cases hp : p.atLineEnd with
  | none => rw [hp] at read; cases read
  | some next =>
    rw [hp] at read notBlock
    refine ⟨next, put, l', read, rfl, ?_, fun cs ↦ ?_⟩
    · cases p <;> cases hp <;> first | exact absurd rfl notBlock | simp
    · rw [behind, literalsFrom_atLineEnd (.inr ⟨cs, rfl⟩), hp, Option.bind_some]

/-- A stretch of a comment that does not end it can be dropped. -/
theorem literalsFrom_comment_drop {xs cs : List Char} (h : '*' ∉ xs) :
    literalsFrom .comment (xs ++ cs) = literalsFrom .comment cs := by
  induction xs with
  | nil => rfl
  | cons c xs ih =>
    rw [List.mem_cons, not_or] at h
    rw [List.cons_append, literalsFrom_outside (p := .comment) rfl _ rfl, if_neg (Ne.symm h.1),
      ih h.2]

/-- Lines of code may take the place of blanks at the end of a line. -/
theorem literalsFrom_lines {next : Place} {gap lines solid : List Char} {l : List (List Char)}
    (place : next = .code ∨ next = .quotes ∨ next = .comment)
    (blank : ∀ c ∈ gap, c ≠ '/' ∧ c ≠ '"' ∧ c ≠ '\'' ∧ c ≠ '*')
    (code : ∀ c ∈ lines, isCode c = true)
    (ends : gap ++ solid = [] ∨ ∃ behind, gap ++ solid = '\n' :: behind)
    (read : literalsFrom next (gap ++ solid) = some l) :
    literalsFrom next ('\n' :: lines ++ '\n' :: solid) = some l := by
  have inCode {l : List (List Char)} (read : literalsFrom .code (gap ++ solid) = some l) :
      literalsFrom .code ('\n' :: lines ++ '\n' :: solid) = some l := by
    rw [literalsFrom_code_append (List.forall_mem_cons.2 ⟨by decide, code⟩),
      literalsFrom_code_cons (by decide)]
    exact literalsFrom_code_drop
      (fun c hc ↦ ⟨(blank c hc).1, (blank c hc).2.1, (blank c hc).2.2.1⟩) read
  obtain rfl | rfl | rfl := place
  · exact inCode read
  · have front : ∀ c ∈ (gap ++ solid).head?, c ≠ '"' := by
      obtain nil | ⟨behind, e⟩ := ends
      · simp [nil]
      · simp [e]
    rw [literalsFrom_quotes front, Option.map_eq_some_iff] at read
    obtain ⟨rest, hrest, rfl⟩ := read
    rw [literalsFrom_quotes (by simp), inCode hrest, Option.map_some]
  · have slash : '/' ∉ '\n' :: lines := fun hm ↦ by
      obtain h | hm := List.mem_cons.1 hm
      · cases h
      · exact absurd (code _ hm) (by decide)
    rw [(literalsFrom_comment_line slash (.inr ⟨solid, rfl⟩)).1,
      literalsFrom_outside (p := .comment) rfl _ rfl]
    rwa [literalsFrom_comment_drop fun hm ↦ (blank _ hm).2.2.2 rfl] at read

end PlatformOverlay.Java.Lexer
