import Mathlib.Data.List.DropRight
import PlatformOverlay.Java.Lexer

/-!
# Where comments and literals close

A block comment ends at the first mark that closes it (`closeComment_spec`), a text block at the
first one that no backslash escapes (`closeTextBlock_spec`); both say as well what it means that the
scanner finds no end.  A literal on one line ends with the quote behind a text of its own, if there
is one (`quotedText_of_closeQuote`, `closeQuote_of_quotedText`).

`EndsAtFirst` is the one notion for both, with a mark and a condition on what stands in front that
hides it. For comments nothing does; for text blocks it is an odd number of backslashes (`Escapes`).
-/

namespace PlatformOverlay.Java.Lexer

/-! ## Ends at a mark -/

/-- The text ends with the mark, and has none before; behind a front that hides it a mark does not
count. -/
structure EndsAtFirst (mark : List Char) (hides : List Char → Prop) (t : List Char) : Prop where
  ends : ∃ front, t = front ++ mark ∧ ¬ hides front
  first : ∀ front rest, t = front ++ (mark ++ rest) → ¬ hides front → rest = []

/-- Every mark in the text is hidden. -/
def NeverEnds (mark : List Char) (hides : List Char → Prop) (cs : List Char) : Prop :=
  ∀ front rest, cs = front ++ (mark ++ rest) → hides front

section marks

variable {mark p t cs : List Char} {hides : List Char → Prop}

/-- Within the text `p` no mark begins that counts. -/
def Passes (mark : List Char) (hides : List Char → Prop) (p cs : List Char) : Prop :=
  ∀ front rest, p ++ cs = front ++ (mark ++ rest) → hides front ∨ p <+: front

/-- What ends a token at its first mark ends a longer one, if no mark shows in what is put in
front. -/
theorem EndsAtFirst.append (h : EndsAtFirst mark hides t) (front : ∀ f, hides (p ++ f) ↔ hides f)
    (passes : Passes mark hides p t) : EndsAtFirst mark hides (p ++ t) := by
  obtain ⟨⟨f, rfl, hf⟩, first⟩ := h
  refine ⟨⟨p ++ f, (List.append_assoc ..).symm, fun h ↦ hf ((front f).1 h)⟩, fun g rest e hg ↦ ?_⟩
  obtain ⟨g, rfl⟩ := (passes g rest e).resolve_left hg
  rw [List.append_assoc] at e
  exact first g rest (List.append_cancel_left e) fun h ↦ hg ((front g).2 h)

/-- What is never closed is not closed with more in front. -/
theorem NeverEnds.append (h : NeverEnds mark hides cs) (front : ∀ f, hides (p ++ f) ↔ hides f)
    (passes : Passes mark hides p cs) : NeverEnds mark hides (p ++ cs) := by
  intro f rest e
  rcases passes f rest e with hf | ⟨g, rfl⟩
  · exact hf
  · rw [List.append_assoc] at e
    exact (front g).2 (h g rest (List.append_cancel_left e))

/-- A character with which no mark begins here. -/
theorem passes_singleton {c : Char} (h : ¬ mark <+: c :: cs) : Passes mark hides [c] cs := by
  intro front rest e
  cases front with
  | nil => exact (h ⟨rest, e.symm⟩).elim
  | cons d front => exact .inr (by simp [(List.cons.inj e).1])

/-- A front part that is passed over before a text is passed over before its beginning. -/
theorem Passes.of_append {k : List Char} (h : Passes mark hides p (t ++ k)) :
    Passes mark hides p t := by
  intro front rest e
  refine h front (rest ++ k) ?_
  rw [← List.append_assoc, e]
  simp

end marks

/-! ## Block comments -/

def commentEnd : List Char := ['*', '/']

/-- What the scanner finds is the text up to the first mark that counts, or there is none. -/
def ClosesAtFirst (mark : List Char) (hides : List Char → Prop) (cs : List Char) :
    Option Split → Prop
  | some s => EndsAtFirst mark hides s.1
  | none => NeverEnds mark hides cs

/-- Characters in front of what has been closed. -/
theorem ClosesAtFirst.map_taking {mark p cs : List Char} {hides : List Char → Prop}
    {o : Option Split} (h : ClosesAtFirst mark hides cs o) (whole : ∀ s ∈ o, s.1 ++ s.2 = cs)
    (front : ∀ f, hides (p ++ f) ↔ hides f) (passes : Passes mark hides p cs) :
    ClosesAtFirst mark hides (p ++ cs) (o.map (taking p)) := by
  cases o with
  | none => exact NeverEnds.append h front passes
  | some s => exact EndsAtFirst.append h front (whole s rfl ▸ passes).of_append

/-- A block comment is closed at the first star with a slash. -/
theorem closeComment_spec (cs : List Char) :
    ClosesAtFirst commentEnd (fun _ ↦ False) cs (closeComment cs) := by
  fun_induction closeComment cs with
  | case1 cs =>
    refine ⟨⟨[], rfl, id⟩, fun front rest e _ ↦ ?_⟩
    have := congrArg List.length e
    simp [commentEnd] at this
    exact List.eq_nil_of_length_eq_zero (by omega)
  | case2 c cs other ih =>
    refine ih.map_taking (p := [c]) (fun _ ↦ closeComment_append) (fun _ ↦ Iff.rfl)
      (passes_singleton ?_)
    rintro ⟨rest, e⟩
    obtain ⟨rfl, rfl⟩ : '*' = c ∧ '/' :: rest = cs := by simpa [commentEnd] using e
    exact other rest rfl rfl
  | case3 =>
    intro front rest e
    simp [commentEnd] at e

/-! ## Text blocks -/

def blockQuotes : List Char := ['"', '"', '"']

/-- How many backslashes the text ends with. -/
def backslashes (front : List Char) : Nat := (front.rtakeWhile (· = '\\')).length

/-- What follows is escaped by the last backslash, which is not escaped itself. -/
def Escapes (front : List Char) : Prop := backslashes front % 2 = 1

instance (front : List Char) : Decidable (Escapes front) :=
  inferInstanceAs (Decidable (backslashes front % 2 = 1))

theorem backslashes_cons (c : Char) (front : List Char) :
    backslashes (c :: front) =
      if backslashes front = front.length then front.length + (if c = '\\' then 1 else 0)
      else backslashes front := by
  have e : backslashes front = (front.reverse.takeWhile (· = '\\')).length := by
    rw [backslashes, List.rtakeWhile, List.length_reverse]
  rw [e, backslashes, List.rtakeWhile, List.length_reverse, List.reverse_cons,
    List.takeWhile_append, List.length_reverse]
  split
  · by_cases h : c = '\\' <;> simp [h]
  · rfl

/-- A backslash counts from the last other character on. -/
theorem escapes_cons {c : Char} (h : c ≠ '\\') (front : List Char) :
    Escapes (c :: front) ↔ Escapes front := by
  rw [Escapes, Escapes, backslashes_cons, if_neg h]
  split
  · rename_i e
    rw [e, Nat.add_zero]
  · rfl

/-- An escape sequence takes two characters, so what follows it is read anew. -/
theorem escapes_escape (c : Char) (front : List Char) :
    Escapes ('\\' :: c :: front) ↔ Escapes front := by
  have bound : backslashes front ≤ front.length := List.rtakeWhile_suffix _ _ |>.length_le
  rw [Escapes, Escapes, backslashes_cons, backslashes_cons, List.length_cons]
  by_cases all : backslashes front = front.length
  · by_cases hc : c = '\\'
    · simp [all, hc]
      omega
    · simp [all, hc]
  · rw [if_neg all, if_neg (by omega)]

/-- A text block is closed at the first three quotes of which none is escaped. -/
theorem closeTextBlock_spec (cs : List Char) :
    ClosesAtFirst blockQuotes Escapes cs (closeTextBlock cs) := by
  fun_induction closeTextBlock cs with
  | case1 =>
    intro front rest e
    simp [blockQuotes] at e
  | case2 c cs ih =>
    refine ih.map_taking (p := ['\\', c]) (fun _ ↦ closeTextBlock_append)
      (fun f ↦ escapes_escape c f) fun front rest e ↦ ?_
    rcases front with _ | ⟨d, _ | ⟨d', front⟩⟩
    · simp [blockQuotes] at e
    · obtain rfl : '\\' = d := (List.cons.inj e).1
      exact .inl (by decide)
    · obtain ⟨hd, e⟩ := List.cons.inj e
      obtain ⟨hd', -⟩ := List.cons.inj e
      exact .inr ⟨front, by rw [hd, hd']; rfl⟩
  | case3 cs =>
    refine ⟨⟨[], rfl, by decide⟩, fun front rest e _ ↦ ?_⟩
    have := congrArg List.length e
    simp [blockQuotes] at this
    exact List.eq_nil_of_length_eq_zero (by omega)
  | case4 c cs escape other ih =>
    by_cases hc : c = '\\'
    · -- A backslash at the end of the text.
      subst hc
      obtain rfl : cs = [] := by
        cases cs with
        | nil => rfl
        | cons d cs => exact (escape d cs rfl rfl).elim
      rintro (_ | ⟨d, front⟩) rest e
      · simp [blockQuotes] at e
      · simp [blockQuotes] at e
    · refine ih.map_taking (p := [c]) (fun _ ↦ closeTextBlock_append) (escapes_cons hc)
        (passes_singleton ?_)
      rintro ⟨rest, e⟩
      obtain ⟨rfl, rfl⟩ : '"' = c ∧ '"' :: '"' :: rest = cs := by simpa [blockQuotes] using e
      exact other rest rfl rfl

/-! ## Literals on one line -/

/-- What stands between the quotes of a literal on one line: a backslash takes the next character
with it. -/
inductive QuotedText (quote : Char) : List Char → Prop where
  | nil : QuotedText quote []
  | plain {c : Char} {cs : List Char} (notQuote : c ≠ quote) (notEscape : c ≠ '\\')
      (notEnd : c ≠ '\n') (rest : QuotedText quote cs) : QuotedText quote (c :: cs)
  | escape {c : Char} {cs : List Char} (notEnd : c ≠ '\n') (rest : QuotedText quote cs) :
      QuotedText quote ('\\' :: c :: cs)

/-- A literal in quotes is closed behind a quoted text. -/
theorem quotedText_of_closeQuote {q : Char} {cs : List Char} {s : Split}
    (h : closeQuote q cs = some s) : ∃ text, s.1 = text ++ [q] ∧ QuotedText q text := by
  fun_induction closeQuote q cs generalizing s with
  | case1 => cases h
  | case2 => cases h
  | case3 c cs hc ih =>
    obtain ⟨s, hs, rfl⟩ := Option.map_eq_some_iff.1 h
    obtain ⟨text, e, quoted⟩ := ih hs
    exact ⟨'\\' :: c :: text, by rw [taking, e]; rfl, .escape hc quoted⟩
  | case4 cs =>
    cases h
    exact ⟨[], rfl, .nil⟩
  | case5 => cases h
  | case6 c cs _ quote other ih =>
    obtain ⟨s, hs, rfl⟩ := Option.map_eq_some_iff.1 h
    obtain ⟨text, e, quoted⟩ := ih hs
    exact ⟨c :: text, by rw [taking, e]; rfl,
      .plain quote (fun h ↦ other (.inr h)) (fun h ↦ other (.inl h)) quoted⟩

theorem closeQuote_of_quotedText {q : Char} {text : List Char} (hq : q ≠ '\\')
    (h : QuotedText q text) (k : List Char) :
    closeQuote q (text ++ q :: k) = some (text ++ [q], k) := by
  induction h with
  | nil => cases k <;> simp [closeQuote, hq]
  | plain quote escape line _ ih =>
    rw [List.cons_append, closeQuote.eq_3 _ _ _ fun _ _ e ↦ (escape e).elim, if_neg quote,
      if_neg (by simp [line, escape]), ih]
    rfl
  | escape line _ ih =>
    rw [List.cons_append, List.cons_append, closeQuote, if_neg line, ih]
    rfl

end PlatformOverlay.Java.Lexer
