import PlatformOverlay.Java.Printer
import PlatformOverlay.Proofs.Java.Parser.Part

/-!
# Texts laid out with spaces

A printed text consists of slices with spaces between them: a blank, or the start of a line with the
comment in front of it.  Where the slices are put together so that none goes on with the next
(`Sound`), the words of the whole text are those of the slices, and the first word of a line carries
the comment and stands at the indentation of the line (`Sound.exists_tokens`).

Soundness is asked of neighbours only. A space ends every slice; between slices without a space it
has to be known that the last token of the one does not go on with the other, as a name in front of
a parenthesis does not.
-/

open PlatformOverlay.Java.Parser

namespace PlatformOverlay.Java.Printer

open Lexer (Chained Breaks Skipped Follows)
open Text (Position)

inductive Space where
  | blank
  /-- A new line at the level, behind an empty one if it stands apart. -/
  | line (apart : Bool) (level : Nat) (doc : Option String)

inductive Piece where
  | text (s : String)
  | space (sp : Space)

/-- Behind the line feed with which a line starts. -/
def lineStart (level : Nat) (doc : Option String) : String :=
  indentation level ++ optional "" doc ("\n" ++ indentation level)

def Space.render : Space → String
  | .blank => " "
  | .line apart level doc => (if apart then "\n\n" else "\n") ++ lineStart level doc

def Piece.render : Piece → String
  | .text s => s
  | .space sp => sp.render

def render (ps : List Piece) : String := String.join (ps.map Piece.render)

variable {ps qs : List Piece} {ws vs rest : List Word} {level : Nat} {doc : Option String}

@[simp] theorem render_nil : render [] = "" := rfl

@[simp] theorem render_cons (p : Piece) (ps : List Piece) :
    render (p :: ps) = p.render ++ render ps := by
  simp [render, String.join_cons]

@[simp] theorem render_append (ps qs : List Piece) :
    render (ps ++ qs) = render ps ++ render qs := by
  simp [render]

/-! ## Sound layouts -/

def Space.Sound : Space → Prop
  | .blank => True
  | .line _ _ doc => ∀ d ∈ doc, IsDoc d

/-- The texts are slices and none goes on with the next; a space stands in front of a text. -/
def Sound : List Piece → Prop
  | [] => True
  | .text s :: ps => IsSlice s ∧ (∀ t, ps.head? = some (.text t) → Joins s t) ∧ Sound ps
  | .space sp :: ps => sp.Sound ∧ (∃ t, ps.head? = some (.text t)) ∧ Sound ps

/-! ## Words of a layout -/

/-- The first word stands at the level and has the comment. -/
def Begins (level : Nat) (doc : Option String) (ws : List Word) : Prop :=
  ∃ w vs, ws = w :: vs ∧ w.doc = doc.map (⟨·, 4 * level⟩) ∧ w.start.column = 4 * level

/-- The words are those of the pieces, and then come the rest. -/
def Fits : List Piece → List Word → List Word → Prop
  | [], ws, rest => ws = rest
  | .text s :: ps, ws, rest => ∃ us vs, ws = us ++ vs ∧ Spells us s ∧ Fits ps vs rest
  | .space .blank :: ps, ws, rest => Fits ps ws rest
  | .space (.line _ level doc) :: ps, ws, rest => Begins level doc ws ∧ Fits ps ws rest

@[simp] theorem fits_nil : Fits [] ws rest ↔ ws = rest := Iff.rfl

/-- A text is spelled by the words in front. -/
@[simp] theorem fits_text {s : String} : Fits (.text s :: ps) ws rest ↔
    ∃ us vs, ws = us ++ vs ∧ Spells us s ∧ Fits ps vs rest := Iff.rfl

@[simp] theorem fits_blank : Fits (.space .blank :: ps) ws rest ↔ Fits ps ws rest := Iff.rfl

/-- Behind a line break, the first word has the comments of the line and starts at its column. -/
@[simp] theorem fits_line {apart : Bool} : Fits (.space (.line apart level doc) :: ps) ws rest ↔
    Begins level doc ws ∧ Fits ps ws rest := Iff.rfl

/-- Pieces one behind the other are spelled by words one behind the other. -/
theorem fits_append : Fits (ps ++ qs) ws rest ↔ ∃ mid, Fits ps ws mid ∧ Fits qs mid rest := by
  induction ps generalizing ws with
  | nil => simp
  | cons p ps ih =>
    match p with
    | .text s => simp [ih]; grind
    | .space .blank => simp [ih]
    | .space (.line _ _ _) => simp [ih, and_assoc]

/-! ## Tokens of a layout -/

theorem column_advance_replicate (p : Position) (n : Nat) :
    (p.advance (String.ofList (List.replicate n ' '))).column = p.column + n := by
  induction n generalizing p with
  | zero => simp
  | succ n ih =>
    have := ih (p.step ' ')
    rw [Position.advance, String.toList_ofList] at this ⊢
    rw [List.replicate_succ, List.foldl_cons, this, Position.step_of_ne p (by decide)]
    have : (' ').utf8Size = 1 := by decide
    dsimp only
    omega

/-- A line starts at the column of its level. -/
theorem column_advance_line (p : Position) (level : Nat) :
    (p.advance ("\n" ++ indentation level)).column = 4 * level := by
  rw [Position.advance_append, indentation, column_advance_replicate]
  have : (p.advance "\n").column = 0 := by
    rw [Position.advance, show "\n".toList = ['\n'] from by decide +kernel]
    rfl
  omega

theorem skipped_indentation (level : Nat) : Skipped ("\n" ++ indentation level).toList := by
  intro c hc
  have : c = '\n' ∨ c = ' ' := by
    simp only [indentation, String.toList_append, String.toList_ofList, List.mem_append,
      List.mem_replicate] at hc
    exact hc.imp (by simp) And.right
  rcases this with rfl | rfl <;> rfl

theorem follows_lineFeed {kind : TokenKind} {cs k : List Char} : Follows kind cs ('\n' :: k) := by
  by_cases line : kind = .lineComment
  · subst line
    simp [Follows]
  · exact Breaks.follows (by simp [Breaks, Lexer.breakChars]) line

/-- What stands at the start of a line: the comments, and the blanks behind them. -/
theorem exists_tokens_of_lineStart (blanks : String) (hb : Skipped blanks.toList) (level : Nat)
    (hd : ∀ d ∈ doc, IsDoc d) :
    ∃ cs b, (∀ c ∈ cs, c.kind.isComment = true) ∧ Skipped b.toList ∧
      charsOf cs ++ b.toList = (blanks ++ optional "" doc ("\n" ++ indentation level)).toList ∧
      (∀ k, Chained cs (b.toList ++ k)) ∧
      ∀ (g : Gap) (t : Token), g.doc = none → (g.blank blanks).freshLine = true →
        (g.blank blanks).stop.column = 4 * level →
        ((cs.foldl Gap.comment g).word ⟨t.kind, b, t.text⟩).doc = doc.map (⟨·, 4 * level⟩) ∧
          ((cs.foldl Gap.comment g).word ⟨t.kind, b, t.text⟩).start.column = 4 * level := by
  cases doc with
  | none =>
    refine ⟨[], blanks, by simp, hb, by simp [optional], fun _ ↦ trivial, fun g t hg _ column ↦ ?_⟩
    exact ⟨hg, column⟩
  | some d =>
    obtain ⟨cs, h⟩ := hd d rfl
    obtain ⟨c, cs, rfl, hc⟩ := h.starts
    have text : c.text ++ String.ofList (charsOf cs) = d := by
      rw [← String.toList_inj, ← h.chars, charsOf_cons, hc]
      simp
    refine ⟨⟨c.kind, blanks, c.text⟩ :: cs, "\n" ++ indentation level, ?_,
      skipped_indentation level,
      ?_, fun k ↦ ?_, fun g t hg fresh column ↦ ⟨?_, ?_⟩⟩
    · simpa using h.comments
    · simp [← text, optional]
    · obtain ⟨-, hc', hf, hcs⟩ := h.chained
      have chained : Chained (⟨c.kind, blanks, c.text⟩ :: cs) [] := ⟨hb, hc', hf, hcs⟩
      have feed :
          ("\n" ++ indentation level).toList ++ k = '\n' :: ((indentation level).toList ++ k) := by
        simp
      rw [feed]
      exact chained.extend fun t ht ↦ ⟨follows_lineFeed, fun _ ↦ by simp [Breaks, Lexer.breakChars]⟩
    · have first : (g.comment ⟨c.kind, blanks, c.text⟩).doc = some ⟨c.text, 4 * level⟩ := by
        simp [Gap.comment, hg, fresh, column]
      rw [List.foldl_cons, Gap.word, Gap.doc_foldl_of_some first, text]
      rfl
    · rw [List.foldl_cons, Gap.word, Gap.blank]
      exact column_advance_line _ level

/-- What stands in a space. -/
theorem Space.exists_tokens (sp : Space) (h : sp.Sound) :
    ∃ cs b, Skipped b.toList ∧ charsOf cs ++ b.toList = sp.render.toList ∧
      (∀ k, Chained cs (b.toList ++ k)) ∧ (∀ k, Breaks (sp.render.toList ++ k)) ∧
      ∀ p (t : Token) ts ps rest, t.kind.isComment = false →
        Fits ps (wordsAfter (cs.foldl Gap.comment (.after p)) (⟨t.kind, b, t.text⟩ :: ts)) rest →
        Fits (.space sp :: ps) (wordsAfter (.after p) (cs ++ ⟨t.kind, b, t.text⟩ :: ts)) rest := by
  cases sp with
  | blank =>
    exact ⟨[], " ", by simp [Skipped, Lexer.isSkipped], rfl, fun _ ↦ trivial,
      by simp [Space.render, Breaks, Lexer.breakChars], fun p t ts ps rest _ h ↦ h⟩
  | line apart level doc =>
    have blanks : (if apart then "\n\n" else "\n") ++ indentation level =
        (if apart then "\n" else "") ++ ("\n" ++ indentation level) := by
      cases apart <;> simp [← String.append_assoc]
    have skipped : Skipped ((if apart then "\n\n" else "\n") ++ indentation level).toList := by
      rw [blanks, String.toList_append]
      intro c hc
      rcases List.mem_append.1 hc with hc | hc
      · cases apart
        · simp at hc
        · obtain rfl : c = '\n' := by simpa using hc
          rfl
      · exact skipped_indentation level c hc
    obtain ⟨cs, b, comments, hb, chars, chained, start⟩ :=
      exists_tokens_of_lineStart _ skipped level h
    have render : (Space.line apart level doc).render =
        (if apart then "\n\n" else "\n") ++ indentation level ++
          optional "" doc ("\n" ++ indentation level) := by
      simp [Space.render, lineStart, String.append_assoc]
    refine ⟨cs, b, hb, by rw [render, chars], chained, ?_, ?_⟩
    · cases apart <;> simp [Space.render, Breaks, Lexer.breakChars]
    · intro p t ts ps rest ht hfits
      obtain ⟨hdoc, column⟩ := start (.after p) t rfl (by cases apart <;> simp [Gap.blank])
        (by rw [blanks, Gap.blank, Position.advance_append]; exact column_advance_line _ level)
      rw [wordsAfter_comments comments, fits_line]
      refine ⟨⟨_, _, wordsAfter_word ht, hdoc, column⟩, hfits⟩

/-- The words of a slice spell it, whatever blanks stand in front. -/
theorem spells_of_isSliceOf {t : Token} {ts : List Token} {s : String} (h : IsSliceOf (t :: ts) s)
    (g : Gap) (b : String) : Spells (wordsAfter g (⟨t.kind, b, t.text⟩ :: ts)) s := by
  obtain ⟨_, _, ⟨⟩, ht, hb⟩ := h.starts
  refine ⟨?_, ?_⟩
  · rw [h.shapesOf_eq, map_shape_wordsAfter, List.filter_cons, List.filter_cons]
    simp [ht, Token.shape]
  · have ht' : (⟨t.kind, b, t.text⟩ : Token).kind.isComment = false := ht
    rw [wordsAfter_word ht', sourceText_cons_wordsAfter h.ends.of_cons, ← String.toList_inj,
      ← h.chars, charsOf_cons, hb]
    simp [Gap.word]

theorem exists_gapAfter_of_isSliceOf {t : Token} {ts : List Token} {s : String}
    (h : IsSliceOf (t :: ts) s) (g : Gap) (b : String) :
    ∃ p, gapAfter g (⟨t.kind, b, t.text⟩ :: ts) = .after p := by
  obtain ⟨_, _, ⟨⟩, ht, hb⟩ := h.starts
  refine exists_gapAfter_eq ?_
  rcases h.ends.of_cons with rfl | hts
  · exact ⟨[], _, rfl, ht⟩
  · exact hts.append_left [_]

/-- The tokens of a layout that starts with a slice, and its words, whatever is before it. -/
theorem Sound.exists_tokens {k : List Char} (hk : Breaks k) :
    ∀ {s : String} {ps : List Piece}, Sound (.text s :: ps) →
      ∃ t ts, t.kind.isComment = false ∧ t.blank = "" ∧
        charsOf (t :: ts) = (render (.text s :: ps)).toList ∧ Chained (t :: ts) k ∧
        ∀ g b, Fits (.text s :: ps) (wordsAfter g (⟨t.kind, b, t.text⟩ :: ts)) []
  | s, [], ⟨⟨us, slice⟩, _, _⟩ => by
    obtain ⟨t, us, rfl, ht, hb⟩ := slice.starts
    refine ⟨t, us, ht, hb, by simpa [Piece.render] using slice.chars,
      slice.chained_of_ends (slice.ends_of_breaks hk), fun g b ↦ ?_⟩
    exact ⟨_, [], by simp, spells_of_isSliceOf slice g b, rfl⟩
  -- Two texts side by side: the second one goes on with no word of the first.
  | s, .text s' :: ps, ⟨⟨us, slice⟩, joins, later⟩ => by
    obtain ⟨t, us, rfl, ht, hb⟩ := slice.starts
    obtain ⟨t', ts', ht', hb', chars, chained, fits⟩ := later.exists_tokens hk
    refine ⟨t, us ++ t' :: ts', ht, hb, ?_, ?_, fun g b ↦ ?_⟩
    · rw [← List.cons_append, charsOf_append, slice.chars, chars]
      simp [Piece.render]
    · rw [← List.cons_append, Lexer.chained_append]
      refine ⟨slice.chained_of_ends fun w hw ↦ ?_, chained⟩
      rw [chars, render_cons, String.toList_append, List.append_assoc]
      exact joins s' rfl w hw _
    · obtain ⟨p, hp⟩ := exists_gapAfter_of_isSliceOf slice g b
      rw [← List.cons_append, wordsAfter_append, hp]
      refine ⟨_, _, rfl, spells_of_isSliceOf slice g b, ?_⟩
      have := fits (.after p) ""
      rwa [← hb'] at this
  -- A space between them: its comments are tokens of their own and go to the word behind.
  | s, .space sp :: .text s' :: ps, ⟨⟨us, slice⟩, _, hsp, _, later⟩ => by
    obtain ⟨t, us, rfl, ht, hb⟩ := slice.starts
    obtain ⟨t', ts', ht', hb', chars, chained, fits⟩ := later.exists_tokens hk
    obtain ⟨cs, b', skipped, charsSp, chainedSp, breaks, fitsSp⟩ := sp.exists_tokens hsp
    have charsAll : charsOf (cs ++ ⟨t'.kind, b', t'.text⟩ :: ts') =
        sp.render.toList ++ (render (.text s' :: ps)).toList := by
      rw [charsOf_cons, hb'] at chars
      rw [charsOf_append, charsOf_cons, ← List.append_assoc, charsSp, ← chars]
      simp
    refine ⟨t, us ++ (cs ++ ⟨t'.kind, b', t'.text⟩ :: ts'), ht, hb, ?_, ?_, fun g b ↦ ?_⟩
    · rw [← List.cons_append, charsOf_append, slice.chars, charsAll]
      simp [Piece.render]
    · rw [← List.cons_append, Lexer.chained_append, Lexer.chained_append]
      refine ⟨slice.chained_of_ends (slice.ends_of_breaks ?_), ?_, skipped, chained.2⟩
      · rw [charsAll, List.append_assoc]
        exact breaks _
      · rw [charsOf_cons, List.append_assoc]
        exact chainedSp _
    · obtain ⟨p, hp⟩ := exists_gapAfter_of_isSliceOf slice g b
      rw [← List.cons_append, wordsAfter_append, hp]
      refine ⟨_, _, rfl, spells_of_isSliceOf slice g b, ?_⟩
      exact fitsSp p t' ts' _ _ ht' (fits _ b')
  | _, .space _ :: .space _ :: _, ⟨_, _, _, ⟨_, e⟩, _⟩ => by cases e
  | _, [.space _], ⟨_, _, _, ⟨_, e⟩, _⟩ => by cases e

theorem breaks_of_skipped {k : List Char} (h : Skipped k) : Breaks k := by
  intro c hc
  have skipped := h c (List.mem_of_mem_head? hc)
  have : c = ' ' ∨ c = '\t' ∨ c = '\r' ∨ c = '\n' ∨ c = '\x0c' := by
    simpa [Lexer.isSkipped, or_assoc] using skipped
  rcases this with rfl | rfl | rfl | rfl | rfl <;> decide

/-- A text that is a sound layout, but for the line feed in front of it, has the words of the
layout. -/
theorem Sound.exists_tokenize {s t trailing : String}
    (h : Sound (.space (.line false 0 doc) :: .text t :: ps))
    (hs : "\n" ++ s = render (.space (.line false 0 doc) :: .text t :: ps) ++ trailing)
    (htr : Skipped trailing.toList) :
    ∃ lexed, Lexer.tokenizeChars s.toList = .ok lexed ∧
      Fits (.space (.line false 0 doc) :: .text t :: ps) (wordsOf lexed.tokens) [] := by
  obtain ⟨hd, -, later⟩ := h
  obtain ⟨t', ts, ht, hb, chars, chained, fits⟩ := later.exists_tokens (breaks_of_skipped htr)
  obtain ⟨cs, b, comments, skipped, charsStart, chainedStart, start⟩ :=
    exists_tokens_of_lineStart "" (by simp [Skipped]) 0 hd
  have whole : s.toList = charsOf (cs ++ ⟨t'.kind, b, t'.text⟩ :: ts) ++ trailing.toList := by
    have zero : indentation 0 = "" := rfl
    have start' : (lineStart 0 doc).toList = charsOf cs ++ b.toList := by
      rw [charsStart, lineStart, zero]
    have := congrArg String.toList hs
    rw [render_cons, String.toList_append, String.toList_append, String.toList_append, ← chars,
      charsOf_cons, hb, Piece.render, Space.render] at this
    simp only [Bool.false_eq_true, if_false, String.toList_append, start'] at this
    rw [charsOf_append, charsOf_cons]
    simpa using this
  refine ⟨⟨_, trailing⟩, Lexer.tokenizeChars_iff.2 ⟨whole, htr, ?_⟩, ?_⟩
  · rw [Lexer.chained_append, charsOf_cons, List.append_assoc]
    exact ⟨chainedStart _, skipped, chained.2⟩
  · obtain ⟨hdoc, column⟩ := start .atStart t' rfl rfl rfl
    rw [wordsOf, wordsAfter_comments comments, fits_line]
    exact ⟨⟨_, _, wordsAfter_word ht, hdoc, column⟩, fits _ _⟩

end PlatformOverlay.Java.Printer
