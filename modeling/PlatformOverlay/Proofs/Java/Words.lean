import PlatformOverlay.Java.Word
import PlatformOverlay.Proofs.Java.Tokens

/-!
# Words and their source text

The source text of consecutive words is a text of its own, which reads as the same words
(`FromText.isSlice`), wherever it stands: only the places of the words, and what is before the first
one, depend on that (`IsSliceOf.map_shape`, `IsSliceOf.sourceText_eq`).  The comments that document
a declaration are such a text, too (`FromText.isDoc`).

The parser keeps parts of a declaration as source text, so this is what makes it possible to read
such a part again. `FromText` says of words that they are the last ones of a text. It is the
hypothesis of all that is said about parsing, and passes on to what is left behind any reader.
-/

namespace PlatformOverlay.Java

open Text (Position)
open Lexer (Chained tokenizeChars)

/-- What a parser can tell of a word, its place and what is before it aside. -/
abbrev Shape := TokenKind × String

def Token.shape (t : Token) : Shape := (t.kind, t.text)

def Word.shape (w : Word) : Shape := (w.kind, w.text)

/-! ## From tokens to words -/

variable {g : Gap} {t : Token} {ts us : List Token} {w : Word} {ws : List Word}

theorem wordsAfter_comment (h : t.kind.isComment = true) :
    wordsAfter g (t :: ts) = wordsAfter (g.comment t) ts := by
  simp [wordsAfter, h]

/-- A word takes the gap in front of it and starts a new one. -/
theorem wordsAfter_word (h : t.kind.isComment = false) :
    wordsAfter g (t :: ts) =
      g.word t :: wordsAfter (.after ((g.word t).start.advance t.text)) ts := by
  simp [wordsAfter, h]

/-- The first word is that of the first token which is no comment. -/
theorem wordsAfter_eq_cons (h : wordsAfter g ts = w :: ws) :
    ∃ cs t us, ts = cs ++ t :: us ∧ (∀ c ∈ cs, c.kind.isComment = true) ∧
      t.kind.isComment = false ∧ w = (cs.foldl Gap.comment g).word t ∧
      ws = wordsAfter (.after (w.start.advance t.text)) us := by
  induction ts generalizing g with
  | nil => simp [wordsAfter] at h
  | cons t ts ih =>
    cases ht : t.kind.isComment with
    | true =>
      rw [wordsAfter_comment ht] at h
      obtain ⟨cs, u, us, rfl, hcs, hu, hw, hws⟩ := ih h
      refine ⟨t :: cs, u, us, rfl, ?_, hu, hw, hws⟩
      simpa [ht] using hcs
    | false =>
      rw [wordsAfter_word ht] at h
      obtain ⟨rfl, rfl⟩ := List.cons.inj h
      exact ⟨[], t, ts, rfl, by simp, ht, rfl, rfl⟩

/-- What has been read since the last word of a list of tokens. -/
def gapAfter : Gap → List Token → Gap
  | g, [] => g
  | g, t :: ts =>
      if t.kind.isComment then gapAfter (g.comment t) ts
      else gapAfter (.after ((g.word t).start.advance t.text)) ts

/-- Words behind other tokens are those with the gap that these leave. -/
theorem wordsAfter_append :
    wordsAfter g (ts ++ us) = wordsAfter g ts ++ wordsAfter (gapAfter g ts) us := by
  induction ts generalizing g with
  | nil => rfl
  | cons t ts ih =>
    rw [List.cons_append, wordsAfter, wordsAfter, gapAfter]
    split
    · exact ih
    · simp [ih]

theorem gapAfter_append : gapAfter g (ts ++ us) = gapAfter (gapAfter g ts) us := by
  induction ts generalizing g with
  | nil => rfl
  | cons t ts ih =>
    rw [List.cons_append, gapAfter, gapAfter]
    split
    · exact ih
    · exact ih

theorem Gap.text_foldl_comment {cs : List Token} :
    (cs.foldl Gap.comment g).text.toList = g.text.toList ++ charsOf cs := by
  induction cs generalizing g with
  | nil => simp
  | cons c cs ih => simp [ih, Gap.comment, Gap.blank]

/-- The last of the tokens is not a comment. -/
def EndsInWord (ts : List Token) : Prop := ∃ us t, ts = us ++ [t] ∧ t.kind.isComment = false

theorem EndsInWord.append_left (h : EndsInWord us) (ts : List Token) : EndsInWord (ts ++ us) := by
  obtain ⟨vs, t, rfl, ht⟩ := h
  exact ⟨ts ++ vs, t, by simp, ht⟩

theorem EndsInWord.of_append (h : EndsInWord (ts ++ us)) : us = [] ∨ EndsInWord us := by
  rcases List.eq_nil_or_concat us with rfl | ⟨vs, u, rfl⟩
  · exact .inl rfl
  · obtain ⟨xs, t, e, ht⟩ := h
    rw [List.concat_eq_append, ← List.append_assoc] at e
    obtain ⟨-, e⟩ := List.append_inj' e rfl
    exact .inr ⟨vs, u, by simp, (List.singleton_inj.1 e) ▸ ht⟩

theorem EndsInWord.of_cons (h : EndsInWord (t :: ts)) : ts = [] ∨ EndsInWord ts :=
  of_append (show EndsInWord ([t] ++ ts) from h)

theorem exists_gapAfter_eq (h : EndsInWord ts) : ∃ p, gapAfter g ts = .after p := by
  obtain ⟨us, t, rfl, ht⟩ := h
  refine ⟨((gapAfter g us).word t).start.advance t.text, ?_⟩
  simp [gapAfter_append, gapAfter, ht]

/-- Comments in front go to the gap of the first word. -/
theorem wordsAfter_comments {cs : List Token} (h : ∀ c ∈ cs, c.kind.isComment = true) :
    wordsAfter g (cs ++ ts) = wordsAfter (cs.foldl Gap.comment g) ts := by
  induction cs generalizing g with
  | nil => rfl
  | cons c cs ih =>
    rw [List.cons_append, wordsAfter_comment (h c List.mem_cons_self),
      ih fun d hd ↦ h d (List.mem_cons_of_mem _ hd), List.foldl_cons]

/-- Words from the front come from tokens at the front. -/
theorem wordsAfter_eq_append {taken rest : List Word} (h : wordsAfter g ts = taken ++ rest)
    (ne : taken ≠ []) :
    ∃ us vs p, ts = us ++ vs ∧ wordsAfter g us = taken ∧ EndsInWord us ∧
      rest = wordsAfter (.after p) vs := by
  induction taken generalizing g ts with
  | nil => exact (ne rfl).elim
  | cons w taken ih =>
    obtain ⟨cs, t, us, rfl, hcs, ht, rfl, hws⟩ := wordsAfter_eq_cons h
    cases taken with
    | nil =>
      exact ⟨cs ++ [t], us, _, by simp, by simp [wordsAfter_comments hcs, wordsAfter, ht],
        ⟨cs, t, rfl, ht⟩, hws⟩
    | cons v taken =>
      obtain ⟨vs, rest', p, rfl, hvs, hend, hr⟩ := ih hws.symm (by simp)
      refine ⟨cs ++ t :: vs, rest', p, by simp, ?_, ?_, hr⟩
      · rw [wordsAfter_comments hcs, wordsAfter_word ht, hvs]
      · simpa using hend.append_left (cs ++ [t])

/-! ## Source text between words -/

/-- The text of words, what stands in front of each of them included. -/
def textFrom (ws : List Word) : List Char := ws.flatMap fun w ↦ w.gap.toList ++ w.text.toList

/-- The source text of words is the first word and the rest with its gaps. -/
theorem toList_sourceText (w : Word) (ws : List Word) :
    (sourceText (w :: ws)).toList = w.text.toList ++ textFrom ws := by
  rw [sourceText, String.toList_append, String.toList_join, List.flatMap_map, textFrom]
  simp only [String.toList_append]

theorem textFrom_cons (w : Word) (ws : List Word) :
    textFrom (w :: ws) = w.gap.toList ++ (w.text.toList ++ textFrom ws) := by
  rw [textFrom, List.flatMap_cons, List.append_assoc, textFrom]

/-- The text of words is put together part by part. -/
theorem textFrom_append (ws vs : List Word) : textFrom (ws ++ vs) = textFrom ws ++ textFrom vs :=
  List.flatMap_append

/-- Words with what is behind them are the text of the tokens. -/
theorem textFrom_wordsAfter :
    textFrom (wordsAfter g ts) ++ (gapAfter g ts).text.toList = g.text.toList ++ charsOf ts := by
  induction ts generalizing g with
  | nil => simp [wordsAfter, gapAfter, textFrom]
  | cons t ts ih =>
    cases ht : t.kind.isComment with
    | true =>
      rw [wordsAfter_comment ht, gapAfter, if_pos ht, ih]
      simp [Gap.comment, Gap.blank]
    | false =>
      rw [wordsAfter_word ht, gapAfter, if_neg (by simp [ht]), textFrom_cons, List.append_assoc,
        List.append_assoc, ih]
      simp [Gap.after, Gap.word, Gap.blank]

/-- The source text from a word on is the text of the tokens. -/
theorem sourceText_cons_wordsAfter {p : Position} (h : ts = [] ∨ EndsInWord ts) :
    sourceText (w :: wordsAfter (.after p) ts) = w.text ++ String.ofList (charsOf ts) := by
  have none : (gapAfter (.after p) ts).text = "" := by
    rcases h with rfl | h
    · rfl
    · obtain ⟨q, hq⟩ := exists_gapAfter_eq (g := .after p) h
      rw [hq]
      rfl
  have gaps : _ = (Gap.after p).text.toList ++ charsOf ts := textFrom_wordsAfter
  rw [none, String.toList_empty, List.append_nil] at gaps
  rw [← String.toList_inj, toList_sourceText, gaps]
  simp [Gap.after]

/-- The text reads as these tokens, the first and the last of which are words at its ends. -/
structure IsSliceOf (ts : List Token) (s : String) : Prop where
  chars : charsOf ts = s.toList
  chained : Chained ts []
  starts : ∃ t us, ts = t :: us ∧ t.kind.isComment = false ∧ t.blank = ""
  ends : EndsInWord ts

/-- A text from the start of a word to the end of a word. -/
def IsSlice (s : String) : Prop := ∃ ts, IsSliceOf ts s

/-- The shapes of the words of a text. -/
def shapesOf (s : String) : List Shape :=
  match tokenizeChars s.toList with
  | .ok lexed => (lexed.tokens.filter fun t ↦ !t.kind.isComment).map Token.shape
  | .error _ => []

/-- The shapes of words are those of their tokens. -/
theorem map_shape_wordsAfter :
    (wordsAfter g ts).map Word.shape =
      (ts.filter fun t ↦ !t.kind.isComment).map Token.shape := by
  induction ts generalizing g with
  | nil => rfl
  | cons t ts ih =>
    cases ht : t.kind.isComment with
    | true => simp [wordsAfter_comment ht, ht, ih]
    | false => simp [wordsAfter_word ht, ht, ih, Gap.word, Word.shape, Token.shape]

namespace IsSliceOf

variable {s : String}

/-- The words of a slice are those of its tokens. -/
theorem shapesOf_eq (h : IsSliceOf ts s) :
    shapesOf s = (ts.filter fun t ↦ !t.kind.isComment).map Token.shape := by
  have : tokenizeChars s.toList = .ok ⟨ts, ""⟩ :=
    Lexer.tokenizeChars_iff.2 ⟨by simp [h.chars], by simp [Lexer.Skipped], h.chained⟩
  rw [shapesOf, this]

theorem map_shape (h : IsSliceOf ts s) : (wordsAfter g ts).map Word.shape = shapesOf s := by
  rw [h.shapesOf_eq, map_shape_wordsAfter]

/-- The source text of a slice is the slice. -/
theorem sourceText_eq (h : IsSliceOf ts s) : sourceText (wordsAfter g ts) = s := by
  obtain ⟨t, us, rfl, ht, hb⟩ := h.starts
  rw [wordsAfter_word ht, sourceText_cons_wordsAfter h.ends.of_cons, ← String.toList_inj,
    ← h.chars, charsOf_cons, hb]
  simp [Gap.word]

end IsSliceOf

/-! ## Words read from a text -/

/-- These are the words of some text, or the last ones of one. -/
def FromText (ws : List Word) : Prop :=
  ∃ g ts k, g.doc = none ∧ Chained ts k ∧ ws = wordsAfter g ts

namespace FromText

/-- The words that are left come from a text. -/
theorem of_append {taken rest : List Word} (h : FromText (taken ++ rest)) : FromText rest := by
  by_cases ne : taken = []
  · simpa [ne] using h
  · obtain ⟨g, ts, k, -, hts, e⟩ := h
    obtain ⟨us, vs, p, rfl, -, -, hr⟩ := wordsAfter_eq_append e.symm ne
    exact ⟨.after p, vs, k, rfl, (Lexer.chained_append.1 hts).2, hr⟩

theorem of_cons (h : FromText (w :: ws)) : FromText ws := @of_append [w] ws h

/-- Between two words there are comments and blanks, and the first ends where they begin. -/
theorem exists_between {w v : Word} {ws : List Word} (h : FromText (w :: v :: ws)) : ∃ cs t k,
    (∀ c ∈ cs, c.kind.isComment = true) ∧ t.kind = v.kind ∧ t.text = v.text ∧
      v.gap.toList = charsOf cs ++ t.blank.toList ∧ Chained (cs ++ [t]) k ∧
      Lexer.Follows w.kind w.text.toList (charsOf (cs ++ [t]) ++ k) := by
  obtain ⟨g, ts, k, -, chained, e⟩ := h
  obtain ⟨cs₀, t₀, us, rfl, -, -, rfl, e'⟩ := wordsAfter_eq_cons e.symm
  obtain ⟨cs, t, us, rfl, comments, -, rfl, -⟩ := wordsAfter_eq_cons e'.symm
  obtain ⟨-, -, follows, later⟩ := (Lexer.chained_append.1 chained).2
  rw [List.append_cons] at follows later
  rw [charsOf_append, List.append_assoc] at follows
  exact ⟨cs, t, _, comments, rfl, rfl,
    by simp [Gap.word, Gap.blank, Gap.text_foldl_comment, Gap.after],
    (Lexer.chained_append.1 later).1, follows⟩

/-- The source text of consecutive words. -/
theorem isSlice {taken rest : List Word} (h : FromText (taken ++ rest)) (ne : taken ≠ []) :
    IsSlice (sourceText taken) ∧ shapesOf (sourceText taken) = taken.map Word.shape := by
  obtain ⟨g, ts, k, -, hts, e⟩ := h
  obtain ⟨us, vs, p, rfl, rfl, hend, -⟩ := wordsAfter_eq_append e.symm ne
  obtain ⟨w, ws, e⟩ := List.exists_cons_of_ne_nil ne
  obtain ⟨cs, t, us', rfl, hcs, ht, rfl, rfl⟩ := wordsAfter_eq_cons e
  have chained := (Lexer.chained_append.1 hts).1.of_append (k := [])
  obtain ⟨-, ht', hf, hus⟩ := (Lexer.chained_append.1 chained).2
  have rest := hend.of_append.resolve_left (by simp)
  have slice : IsSliceOf (⟨t.kind, "", t.text⟩ :: us')
      (sourceText (wordsAfter g (cs ++ t :: us'))) := by
    refine ⟨?_, ⟨by simp [Lexer.Skipped], ht', hf, hus⟩, ⟨_, _, rfl, ht, rfl⟩, ?_⟩
    · rw [e, sourceText_cons_wordsAfter rest.of_cons]
      simp [Gap.word]
    · rcases rest.of_cons with rfl | hus
      · exact ⟨[], _, rfl, ht⟩
      · exact hus.append_left [_]
  have comments : cs.filter (fun t ↦ !t.kind.isComment) = [] := by simpa using hcs
  refine ⟨⟨_, slice⟩, ?_⟩
  rw [slice.shapesOf_eq, map_shape_wordsAfter, List.filter_append, comments]
  simp [ht, Token.shape]

end FromText

/-! ## Documenting comments -/

/-- The text consists of these comments. -/
structure IsDocOf (cs : List Token) (s : String) : Prop where
  chars : charsOf cs = s.toList
  chained : Chained cs []
  starts : ∃ c us, cs = c :: us ∧ c.blank = ""
  comments : ∀ c ∈ cs, c.kind.isComment = true

def IsDoc (s : String) : Prop := ∃ cs, IsDocOf cs s

namespace Gap

/-- A comment text that has begun goes on with further comments. -/
theorem doc_foldl_of_some {cs : List Token} {d : Snippet} (h : g.doc = some d) :
    (cs.foldl comment g).doc = some ⟨d.text ++ String.ofList (charsOf cs), d.column⟩ := by
  induction cs generalizing g d with
  | nil => simpa using h
  | cons c cs ih =>
    have first : (g.comment c).doc = some ⟨d.text ++ c.blank ++ c.text, d.column⟩ := by
      simp [comment, h]
    rw [List.foldl_cons, ih first]
    simp [String.append_assoc]

/-- One that begins does so with a comment, and goes on to the end of the gap. -/
theorem doc_foldl_of_none {cs : List Token} {d : Snippet} (h : g.doc = none)
    (hd : (cs.foldl comment g).doc = some d) :
    ∃ us c vs, cs = us ++ c :: vs ∧ d.text = c.text ++ String.ofList (charsOf vs) := by
  induction cs generalizing g with
  | nil => simp [h] at hd
  | cons c cs ih =>
    rw [List.foldl_cons] at hd
    cases hc : (g.comment c).doc with
    | none =>
      obtain ⟨us, c', vs, rfl, text⟩ := ih hc hd
      exact ⟨c :: us, c', vs, rfl, text⟩
    | some d' =>
      rw [doc_foldl_of_some hc] at hd
      obtain rfl := Option.some.inj hd
      have : d'.text = c.text := by
        rw [comment, h] at hc
        grind
      exact ⟨[], c, cs, rfl, by rw [this]⟩

end Gap

/-- The comments in front of a word of a text are a comment text. -/
theorem FromText.isDoc {d : Snippet} (h : FromText (w :: ws)) (hd : w.doc = some d) :
    IsDoc d.text := by
  obtain ⟨g, ts, k, hg, hts, e⟩ := h
  obtain ⟨cs, t, us, rfl, hcs, -, rfl, -⟩ := wordsAfter_eq_cons e.symm
  obtain ⟨xs, c, vs, rfl, text⟩ := Gap.doc_foldl_of_none hg hd
  have := (Lexer.chained_append.1 hts).1.of_append (k := [])
  obtain ⟨-, hc, hf, hvs⟩ := (Lexer.chained_append.1 this).2
  refine ⟨⟨c.kind, "", c.text⟩ :: vs, ?_, ?_, ?_, ?_⟩
  · simp [text]
  · exact ⟨by simp [Lexer.Skipped], hc, hf, hvs⟩
  · exact ⟨_, _, rfl, rfl⟩
  · intro c' hc'
    rcases List.mem_cons.1 hc' with rfl | hc'
    · exact hcs c (by simp)
    · exact hcs c' (by simp [hc'])

end PlatformOverlay.Java
