import PlatformOverlay.Proofs.Java.Words

/-!
# Tokens written apart

A blank ends every token but a line comment, and what a token is read as does not depend on what
stands before it.  So tokens that are written out with blanks between them are read as they were,
whatever stood between them before (`tokenize_intercalate`), and the words of a text survive when
the text is written again with its comments and its layout left out (`tokenize_words`).

Comments cannot stay in any case: what is written behind a line comment on its line belongs to it.
Without blanks two words may become one, or a word and a number, or a number and a fraction. None of
this can happen across a blank, so it is not looked at which tokens stand side by side.
-/

namespace PlatformOverlay.Java

open Lexer

/-- The tokens that are no comments. -/
def wordTokens (ts : List Token) : List Token := ts.filter fun t ↦ !t.kind.isComment

/-- The token with other blanks in front of it. -/
def Token.behind (gap : String) (t : Token) : Token := { t with blank := gap }

@[simp] theorem Token.shape_behind (gap : String) (t : Token) :
    (t.behind gap).shape = t.shape := rfl

/-- The tokens with the gap between each two of them. -/
def spacedBy (gap : String) : List Token → List Token
  | [] => []
  | t :: ts => t.behind "" :: ts.map (Token.behind gap)

variable {gap : String} {t : Token} {ts : List Token}

theorem map_shape_spacedBy : (spacedBy gap ts).map Token.shape = ts.map Token.shape := by
  cases ts <;> simp [spacedBy, Function.comp_def]

/-- The text of spaced tokens has the gap between any two of them. -/
theorem charsOf_spacedBy :
    charsOf (spacedBy gap ts) = (gap.intercalate (ts.map Token.text)).toList := by
  cases ts with
  | nil => simp [spacedBy]
  | cons t ts =>
    have later : ∀ ts : List Token, t.text.toList ++ charsOf (ts.map (Token.behind gap)) =
        (gap.intercalate (t.text :: ts.map Token.text)).toList := by
      intro ts
      induction ts generalizing t with
      | nil => simp
      | cons u ts ih => simp [Token.behind, ← ih]
    simpa [spacedBy, Token.behind] using later ts

namespace Lexer

/-- Each of the tokens of a text is a token by itself. -/
theorem Chained.isToken {k : List Char} (h : Chained ts k) :
    ∀ t ∈ ts, IsToken t.kind t.text.toList := by
  induction ts with
  | nil => simp
  | cons t ts ih => exact List.forall_mem_cons.2 ⟨h.2.1, ih h.2.2.2⟩

/-- Blanks end every token but a line comment. -/
theorem Skipped.breaks {b : List Char} (h : Skipped b) (ne : b ≠ []) (k : List Char) :
    Breaks (b ++ k) := by
  obtain ⟨c, b, rfl⟩ := List.exists_cons_of_ne_nil ne
  rintro d ⟨⟩
  have blank := h c List.mem_cons_self
  simp only [isSkipped, Bool.or_eq_true, beq_iff_eq] at blank
  rcases blank with (((rfl | rfl) | rfl) | rfl) | rfl <;> decide

/-- A gap in front of each token ends the one before it. -/
theorem chained_behind (blank : Skipped gap.toList) (ne : gap ≠ "")
    (tokens : ∀ t ∈ ts, IsToken t.kind t.text.toList) (line : ∀ t ∈ ts, t.kind ≠ .lineComment) :
    Chained (ts.map (Token.behind gap)) [] ∧ Breaks (charsOf (ts.map (Token.behind gap))) := by
  induction ts with
  | nil => exact ⟨trivial, .nil⟩
  | cons t ts ih =>
    obtain ⟨token, tokens⟩ := List.forall_mem_cons.1 tokens
    obtain ⟨other, line⟩ := List.forall_mem_cons.1 line
    obtain ⟨chained, ends⟩ := ih tokens line
    rw [List.map_cons]
    constructor
    · refine ⟨blank, token, ?_, chained⟩
      rw [List.append_nil]
      exact ends.follows other
    · rw [charsOf_cons]
      exact blank.breaks (fun e ↦ ne (String.toList_eq_nil_iff.1 e)) _

/-- Tokens with blanks between them do not prolong each other, if none is a line comment. -/
theorem chained_spacedBy (blank : Skipped gap.toList) (ne : gap ≠ "")
    (tokens : ∀ t ∈ ts, IsToken t.kind t.text.toList) (line : ∀ t ∈ ts, t.kind ≠ .lineComment) :
    Chained (spacedBy gap ts) [] := by
  cases ts with
  | nil => trivial
  | cons t ts =>
    obtain ⟨token, tokens⟩ := List.forall_mem_cons.1 tokens
    obtain ⟨other, line⟩ := List.forall_mem_cons.1 line
    obtain ⟨chained, ends⟩ := chained_behind blank ne tokens line
    refine ⟨by simp [Skipped, Token.behind], token, ?_, chained⟩
    rw [List.append_nil]
    exact ends.follows other

end Lexer

/-- Tokens are read again from their texts with a gap between each two. -/
theorem tokenize_intercalate (blank : Skipped gap.toList) (ne : gap ≠ "")
    (tokens : ∀ t ∈ ts, IsToken t.kind t.text.toList) (line : ∀ t ∈ ts, t.kind ≠ .lineComment) :
    tokenize (gap.intercalate (ts.map Token.text)) = .ok ⟨spacedBy gap ts, ""⟩ := by
  rw [tokenize_eq_ok, ← charsOf_spacedBy, tokenizeChars_iff]
  exact ⟨by simp, by simp [Skipped], chained_spacedBy blank ne tokens line⟩

/-- The words of a text that can be read, written with one blank between each two, are read as the
same words. -/
theorem tokenize_words {text : String} {lexed : Lexed} (h : tokenize text = .ok lexed) :
    ∃ spaced, tokenize (" ".intercalate ((wordTokens lexed.tokens).map Token.text)) = .ok spaced ∧
      spaced.tokens.map Token.shape = (wordTokens lexed.tokens).map Token.shape := by
  obtain ⟨-, -, chained⟩ := tokenizeChars_iff.1 (tokenize_eq_ok.1 h)
  refine ⟨_, tokenize_intercalate ?_ (by decide) ?_ ?_, map_shape_spacedBy⟩
  · simp [Skipped, isSkipped]
  · intro t ht
    exact chained.isToken t (List.mem_filter.1 ht).1
  · intro t ht comment
    have word := (List.mem_filter.1 ht).2
    rw [comment] at word
    cases word

/-- A fraction that only a comment keeps from being one, slashes in a row, and quotes in front of a
text block. -/
theorem tokenize_words_quotes :
    let text := "1/**/.5/ /\"\"\n\"\"\" // \" \"\"\"/'\\''//'"
    ∃ lexed, tokenize text = .ok lexed ∧ lexed.tokens.length = 11 ∧
      " ".intercalate ((wordTokens lexed.tokens).map Token.text) =
        "1 . 5 / / \"\" \"\"\" // \" \"\"\" / '\\''" ∧
      ∃ spaced, tokenize (" ".intercalate ((wordTokens lexed.tokens).map Token.text)) = .ok spaced ∧
        spaced.tokens.map Token.shape = (wordTokens lexed.tokens).map Token.shape := by
  intro text
  have read : (tokenize text).toOption.any fun lexed ↦ lexed.tokens.length = 11 ∧
      " ".intercalate ((wordTokens lexed.tokens).map Token.text) =
        "1 . 5 / / \"\" \"\"\" // \" \"\"\" / '\\''" := by
    decide +kernel
  cases h : tokenize text with
  | error e => simp [h, Except.toOption] at read
  | ok lexed =>
    rw [h] at read
    obtain ⟨count, words⟩ := of_decide_eq_true read
    exact ⟨lexed, rfl, count, words, tokenize_words h⟩

end PlatformOverlay.Java
