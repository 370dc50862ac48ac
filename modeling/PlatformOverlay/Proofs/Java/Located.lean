import PlatformOverlay.Proofs.Java.Lexing.Cover
import PlatformOverlay.Proofs.Java.Words

/-!
# Words and comments by their byte ranges

The words of a text are its tokens in order, comments apart, with the position at which each starts
(`getElem?_tokens_of_word`).  The source text of some words is what stands from the first byte of
their tokens to the last (`isPiece_sourceText`), and what documents a word are the comments that
lead its token (`isTextOf_leading`).

`Input` is a text by the spans of its tokens. Nothing in it depends on how words are made: a span is
two byte offsets, and lines are those of the line table. So it serves as the other side for all that
words carry along with them, which are positions, gaps and comments:

| a word carries | in the text it is |
| --- | --- |
| its position | that of the first byte of its token |
| the gap in front of it | the text from the end of the token before |
| its documentation | the text from the first of its leading comments to the last |

The last is counted by lines. `isBehind` compares the line of a comment with the line on which the
word before has ended, and lines only grow along a text (`line_le_of_mem_spansOf`).
-/

namespace PlatformOverlay.Java

open Text (Position LineIndex IsPiece)

/-- The byte range of a token of the kind. -/
structure Span where
  kind : TokenKind
  start : Nat
  stop : Nat

/-- A text by its tokens, comments apart. -/
structure Input where
  text : String
  tokens : List Span
  comments : List Span

def spansOf (offset : Nat) (ts : List Token) : List Span :=
  (Token.spans offset ts).map fun s ↦ ⟨s.1, s.2.1, s.2.2⟩

namespace Input

def ofTokens (text : String) (ts : List Token) : Input :=
  ⟨text, (spansOf 0 ts).filter (!·.kind.isComment), (spansOf 0 ts).filter (·.kind.isComment)⟩

def position (input : Input) (offset : Nat) : Position :=
  (LineIndex.ofText input.text).position offset

/-- The token in front of the one with this index. -/
def before? (input : Input) (index : Nat) : Option Span :=
  if index = 0 then none else input.tokens[index - 1]?

/-- The comment lies between the token of this index and the one in front of it, and starts on a
later line than that one ends. -/
def leads (input : Input) (index : Nat) (t c : Span) : Bool :=
  c.stop ≤ t.start && (input.before? index).all fun b ↦
    b.stop ≤ c.start && (input.position b.stop).line < (input.position c.start).line

/-- The comments in front of a token, without those behind the token before it on its line. -/
def leading (input : Input) (index : Nat) : List Span :=
  match input.tokens[index]? with
  | none => []
  | some t => input.comments.filter (input.leads index t)

end Input

/-- The snippet is the text from the first to the last of the comments, if there are any. -/
def IsTextOf (input : Input) (comments : List Span) : Option Snippet → Prop
  | none => comments = []
  | some s => ∃ first last, comments.head? = some first ∧ comments.getLast? = some last ∧
      IsPiece input.text first.start last.stop s.text ∧
        s.column = (input.position first.start).column

/-! ## Byte ranges -/

variable {t b : Token} {ts us vs cs : List Token} {g : Gap} {offset : Nat}

def Token.span (offset : Nat) (t : Token) : Span :=
  ⟨t.kind, offset + t.blank.utf8ByteSize, offset + t.blank.utf8ByteSize + t.text.utf8ByteSize⟩

@[simp] theorem Token.kind_span : (t.span offset).kind = t.kind := rfl

@[simp] theorem spansOf_nil : spansOf offset [] = [] := rfl

theorem spansOf_cons :
    spansOf offset (t :: ts) = t.span offset :: spansOf (offset + String.utf8Len t.chars) ts := by
  rw [spansOf, Token.spans_cons]
  rfl

/-- The spans of tokens behind others start where those end. -/
theorem spansOf_append :
    spansOf offset (us ++ vs) =
      spansOf offset us ++ spansOf (offset + String.utf8Len (charsOf us)) vs := by
  rw [spansOf, Token.spans_append, List.map_append]
  rfl

/-- A span is that of a token, at the offset of the text in front of it. -/
theorem exists_of_mem_spansOf {s : Span} (h : s ∈ spansOf offset ts) : ∃ us t vs,
    ts = us ++ t :: vs ∧ s = t.span (offset + String.utf8Len (charsOf us)) := by
  obtain ⟨r, hr, rfl⟩ := List.mem_map.1 h
  obtain ⟨us, t, vs, rfl, rfl⟩ := Token.exists_of_mem_spans hr
  exact ⟨us, t, vs, rfl, rfl⟩

/-- The tokens that are not comments. -/
def plain (ts : List Token) : List Token := ts.filter (!·.kind.isComment)

@[simp] theorem Input.text_ofTokens (text : String) (ts : List Token) :
    (Input.ofTokens text ts).text = text := rfl

theorem Input.comments_ofTokens (text : String) (ts : List Token) :
    (Input.ofTokens text ts).comments = (spansOf 0 ts).filter (·.kind.isComment) := rfl

/-- There is a span for every token that is no comment. -/
theorem length_filter_spansOf :
    ((spansOf offset ts).filter (!·.kind.isComment)).length = (plain ts).length := by
  induction ts generalizing offset with
  | nil => rfl
  | cons t ts ih =>
    rw [spansOf_cons, plain, List.filter_cons, List.filter_cons]
    cases h : t.kind.isComment <;> simp [Token.span, h, ih, plain]

/-- The index of a token is the number of tokens in front of it, comments apart. -/
theorem getElem?_tokens (text : String) (us vs : List Token) (ht : t.kind.isComment = false) :
    (Input.ofTokens text (us ++ t :: vs)).tokens[(plain us).length]? =
      some (t.span (String.utf8Len (charsOf us))) := by
  rw [Input.ofTokens, spansOf_append, List.filter_append, spansOf_cons,
    List.filter_cons_of_pos (by simp [ht]),
    List.getElem?_append_right (Nat.le_of_eq length_filter_spansOf), length_filter_spansOf]
  simp

/-- There is a word for every token that is no comment. -/
theorem length_wordsAfter : (wordsAfter g ts).length = (plain ts).length := by
  have := congrArg List.length (@map_shape_wordsAfter g ts)
  rwa [List.length_map, List.length_map] at this

theorem length_tokens {text : String} :
    (Input.ofTokens text ts).tokens.length = (wordsOf ts).length := by
  rw [wordsOf, length_wordsAfter, ← length_filter_spansOf]
  rfl

/-- The word of a token has the index of the token. -/
theorem getElem?_words (ht : t.kind.isComment = false) :
    (wordsAfter g (us ++ t :: vs))[(plain us).length]? = some ((gapAfter g us).word t) := by
  rw [wordsAfter_append, wordsAfter_word ht,
    List.getElem?_append_right (Nat.le_of_eq length_wordsAfter), length_wordsAfter]
  simp

/-- The token of each index. -/
theorem exists_of_lt_plain {i : Nat} (h : i < (plain ts).length) : ∃ us t vs,
    ts = us ++ t :: vs ∧ t.kind.isComment = false ∧ (plain us).length = i := by
  induction ts generalizing i with
  | nil => simp [plain] at h
  | cons t ts ih =>
    cases ht : t.kind.isComment with
    | true =>
      obtain ⟨us, u, vs, rfl, hu, e⟩ := ih (i := i) (by simpa [plain, ht] using h)
      exact ⟨t :: us, u, vs, rfl, hu, by simpa [plain, ht] using e⟩
    | false =>
      cases i with
      | zero => exact ⟨[], t, ts, rfl, ht, rfl⟩
      | succ i =>
        obtain ⟨us, u, vs, rfl, hu, e⟩ := ih (i := i) (by simpa [plain, ht] using h)
        exact ⟨t :: us, u, vs, rfl, hu, by simpa [plain, ht] using e⟩

/-! ## Positions -/

/-- A text takes a position on by as many lines as it has line feeds. -/
theorem line_advance (p : Position) (s : String) :
    (p.advance s).line = p.line + s.toList.count '\n' := by
  rw [Position.advance]
  generalize s.toList = cs
  induction cs generalizing p with
  | nil => rfl
  | cons c cs ih =>
    rw [List.foldl_cons, ih, List.count_cons]
    by_cases h : c = '\n'
    · subst h
      simp only [Position.step_lineFeed, beq_self_eq_true, if_true]
      omega
    · simp [Position.step_of_ne p h, h]

theorem line_le_advance (p : Position) (s : String) : p.line ≤ (p.advance s).line := by
  rw [line_advance]
  exact Nat.le_add_right _ _

/-- A gap behind tokens stops where their text does. -/
theorem stop_gapAfter : (gapAfter g ts).stop = g.stop.advance (String.ofList (charsOf ts)) := by
  induction ts generalizing g with
  | nil => rfl
  | cons t ts ih =>
    rw [gapAfter, charsOf_cons, String.ofList_append, String.ofList_append]
    split
    · rw [ih]
      simp [Gap.comment, Gap.blank]
    · rw [ih]
      simp [Gap.after, Gap.word, Gap.blank]

/-- The position that the table has for a byte offset is the one that the lexer has counted. -/
theorem position_ofTokens {text : String} {front back : List Char} (ts : List Token)
    (e : text.toList = front ++ back) :
    (Input.ofTokens text ts).position (String.utf8Len front) =
      Position.origin.advance (String.ofList front) := by
  have whole : text = String.ofList front ++ String.ofList back := by
    rw [← String.toList_inj, e]
    simp
  rw [Input.position, Input.ofTokens, whole, ← String.utf8ByteSize_ofList, Text.position_ofText]

/-! ## Documenting comments -/

section doc

variable {input : Input} {front back : List Char} {line : Option Nat}

/-- Is this behind the given line, if there is one? -/
def isBehind (line : Option Nat) (p : Position) : Bool := line.all (· < p.line)

/-- A gap that begins behind the given line, or at the start of the text. -/
structure GapAt (line : Option Nat) (front : List Char) (g : Gap) : Prop where
  stop : g.stop = Position.origin.advance (String.ofList front)
  fresh : g.freshLine = isBehind line g.stop
  le : ∀ l ∈ line, l ≤ g.stop.line

/-- Blanks move a gap on, and a line feed among them starts a fresh line. -/
theorem GapAt.blank (h : GapAt line front g) (s : String) :
    GapAt line (front ++ s.toList) (g.blank s) := by
  have lines : (g.blank s).stop.line = g.stop.line + s.toList.count '\n' := line_advance _ _
  refine ⟨?_, ?_, fun l hl ↦ ?_⟩
  · rw [Gap.blank, h.stop, String.ofList_append, String.ofList_toList, Position.advance_append]
  · cases line with
    | none => simp [Gap.blank, h.fresh, isBehind]
    | some l =>
      have := h.le l rfl
      have found : s.toList.contains '\n' = decide (0 < s.toList.count '\n') := by
        simp [List.count_pos_iff]
      rw [Gap.blank, h.fresh, found, isBehind, isBehind]
      simp only [Option.all_some]
      have lines : (g.stop.advance s).line = g.stop.line + s.toList.count '\n' := line_advance _ _
      rw [lines, Bool.eq_iff_iff]
      simp only [Bool.or_eq_true, decide_eq_true_eq]
      omega
  · rw [lines]
    exact (h.le l hl).trans (Nat.le_add_right _ _)

theorem GapAt.comment (h : GapAt line front g) (c : Token) :
    GapAt line (front ++ c.chars) (g.comment c) := by
  have both := (h.blank c.blank).blank c.text
  rw [List.append_assoc] at both
  exact ⟨both.stop, both.fresh, both.le⟩

variable {text : String}

/-- The position of a token is that behind the blanks in front of it. -/
theorem position_start (front : List Char) (ts us : List Token)
    (e : text.toList = front ++ (charsOf (us ++ t :: vs) ++ back)) :
    (Input.ofTokens text ts).position (t.span (String.utf8Len (front ++ charsOf us))).start =
      Position.origin.advance (String.ofList (front ++ charsOf us ++ t.blank.toList)) := by
  rw [charsOf_append, charsOf_cons] at e
  have e' : text.toList =
      (front ++ charsOf us ++ t.blank.toList) ++ (t.text.toList ++ (charsOf vs ++ back)) := by
    simpa using e
  rw [← position_ofTokens ts e']
  simp only [Token.span, String.utf8Len_append, String.utf8Len_toList]

/-- Tokens do not start on earlier lines than the text in front of them ends. -/
theorem line_le_of_mem_spansOf {s : Span} (ts : List Token)
    (e : text.toList = front ++ (charsOf cs ++ back))
    (h : s ∈ spansOf (String.utf8Len front) cs) :
    (Position.origin.advance (String.ofList front)).line ≤
      ((Input.ofTokens text ts).position s.start).line := by
  obtain ⟨us, t, vs, rfl, rfl⟩ := exists_of_mem_spansOf h
  rw [← String.utf8Len_append, position_start _ ts _ e, List.append_assoc, String.ofList_append,
    Position.advance_append]
  exact line_le_advance _ _

/-- Nor do they stand on a line that the text in front of them has left. -/
theorem isBehind_of_mem_spansOf {s : Span} {p : Position} (ts : List Token)
    (e : text.toList = front ++ (charsOf cs ++ back))
    (le : p.line ≤ (Position.origin.advance (String.ofList front)).line)
    (fresh : isBehind line p = true) (h : s ∈ spansOf (String.utf8Len front) cs) :
    isBehind line ((Input.ofTokens text ts).position s.start) = true := by
  have later := line_le_of_mem_spansOf ts e h
  cases line with
  | none => rfl
  | some l =>
    simp only [isBehind, Option.all_some, decide_eq_true_eq] at fresh ⊢
    omega

/-- The last span stops at the end of the text. -/
theorem stop_of_getLast? {l : Span} (h : (spansOf offset ts).getLast? = some l) :
    l.stop = offset + String.utf8Len (charsOf ts) := by
  rcases List.eq_nil_or_concat ts with rfl | ⟨us, t, rfl⟩
  · cases h
  · rw [List.concat_eq_append, spansOf_append, spansOf_cons, spansOf_nil,
      List.getLast?_append_of_ne_nil _ (by simp)] at h
    obtain rfl := Option.some.inj h
    rw [List.concat_eq_append, charsOf_append, String.utf8Len_append]
    simp [Token.span, Nat.add_assoc]

/-- What documents the next word is the text from the first of the comments in front of it that
starts behind the line to the last one. -/
theorem isTextOf_foldl_comment (ts : List Token)
    (e : text.toList = front ++ (charsOf cs ++ back)) (h : GapAt line front g)
    (none : g.doc = none) :
    IsTextOf (Input.ofTokens text ts)
      ((spansOf (String.utf8Len front) cs).filter fun c ↦
        isBehind line ((Input.ofTokens text ts).position c.start))
      (cs.foldl Gap.comment g).doc := by
  induction cs generalizing front g with
  | nil =>
    rw [List.foldl_nil, none]
    rfl
  | cons c cs ih =>
    have first := position_start front ts [] e
    rw [charsOf_nil, List.append_nil] at first
    have before := h.blank c.blank
    rw [← before.stop] at first
    have e' : text.toList = (front ++ c.chars) ++ (charsOf cs ++ back) := by
      simpa [Token.chars] using e
    rw [spansOf_cons, List.foldl_cons, ← String.utf8Len_append]
    -- The first comment on a fresh line begins the documentation; those behind it stand on no
    -- earlier line, so that nothing is left out of the filter any more.
    cases fresh : (g.blank c.blank).freshLine with
    | true =>
      have doc : (g.comment c).doc = some ⟨c.text, (g.blank c.blank).stop.column⟩ := by
        rw [Gap.comment, none]
        simp [fresh]
      have all : ∀ s ∈ c.span (String.utf8Len front) ::
          spansOf (String.utf8Len (front ++ c.chars)) cs,
          isBehind line ((Input.ofTokens text ts).position s.start) = true := by
        rw [before.fresh] at fresh
        have le : (g.blank c.blank).stop.line ≤
            (Position.origin.advance (String.ofList (front ++ c.chars))).line := by
          have parts : String.ofList (front ++ c.chars) =
              String.ofList (front ++ c.blank.toList) ++ c.text := by
            simp [Token.chars, String.ofList_append, String.append_assoc]
          rw [before.stop, parts, Position.advance_append]
          exact line_le_advance _ _
        exact List.forall_mem_cons.2
          ⟨first ▸ fresh, fun s hs ↦ isBehind_of_mem_spansOf ts e' le fresh hs⟩
      rw [List.filter_eq_self.2 all, Gap.doc_foldl_of_some doc]
      obtain ⟨last, hlast⟩ : ∃ last, (c.span (String.utf8Len front) ::
          spansOf (String.utf8Len (front ++ c.chars)) cs).getLast? = some last := ⟨_, rfl⟩
      refine ⟨_, last, rfl, hlast, ⟨String.ofList (front ++ c.blank.toList), String.ofList back, ?_,
        ?_, ?_⟩, by rw [first]⟩
      · rw [Input.text_ofTokens, ← String.toList_inj, e]
        simp
      · simp [Token.span, String.utf8ByteSize_ofList]
      · have stop : last.stop = String.utf8Len front + String.utf8Len (charsOf (c :: cs)) := by
          refine stop_of_getLast? ?_
          rwa [spansOf_cons, ← String.utf8Len_append]
        rw [stop]
        simp [String.utf8ByteSize_ofList, Nat.add_assoc]
    | false =>
      have doc : (g.comment c).doc = Option.none := by
        rw [Gap.comment, none]
        simp [fresh]
      rw [before.fresh, ← first] at fresh
      rw [List.filter_cons_of_neg (by simp [fresh])]
      exact ih e' (h.comment c) doc

end doc

/-! ## Source text -/

theorem plain_append : plain (us ++ vs) = plain us ++ plain vs := List.filter_append ..

theorem length_plain_cons (h : t.kind.isComment = false) :
    (plain (t :: ts)).length = (plain ts).length + 1 := by
  simp [plain, h]

/-- A word of a text comes from a token, with the gap behind the tokens in front of it. -/
theorem exists_of_getElem?_words {i : Nat} {w : Word} (h : (wordsOf ts)[i]? = some w) :
    ∃ us t vs, ts = us ++ t :: vs ∧ t.kind.isComment = false ∧ (plain us).length = i ∧
      w = (gapAfter .atStart us).word t := by
  have lt : i < (plain ts).length := by
    rw [← length_wordsAfter]
    exact (List.getElem?_eq_some_iff.1 h).1
  obtain ⟨us, t, vs, rfl, ht, rfl⟩ := exists_of_lt_plain lt
  exact ⟨us, t, vs, rfl, ht, rfl, Option.some.inj (h.symm.trans (getElem?_words ht))⟩

/-- A word is what the text holds where its token is. -/
theorem getElem?_tokens_of_word {text : String} {trailing : List Char} {i : Nat} {w : Word}
    (e : text.toList = charsOf ts ++ trailing) (h : (wordsOf ts)[i]? = some w) :
    ∃ t, (Input.ofTokens text ts).tokens[i]? = some t ∧ t.kind = w.kind ∧
      IsPiece text t.start t.stop w.text ∧ (Input.ofTokens text ts).position t.start = w.start := by
  obtain ⟨us, t, vs, rfl, ht, rfl, rfl⟩ := exists_of_getElem?_words h
  have start := position_start [] (us ++ t :: vs) us e
  rw [List.nil_append] at start
  rw [charsOf_append, charsOf_cons] at e
  refine ⟨_, getElem?_tokens text us vs ht, rfl, ⟨String.ofList (charsOf us ++ t.blank.toList),
    String.ofList (charsOf vs ++ trailing), ?_, ?_, ?_⟩, ?_⟩
  · rw [← String.toList_inj, e]
    simp [Gap.word]
  · simp [Token.span, String.utf8ByteSize_ofList]
  · simp [Token.span, String.utf8ByteSize_ofList, Gap.word]
  · rw [start]
    simp [Gap.word, Gap.blank, stop_gapAfter, Gap.atStart]

/-- The source text of words is what the text holds from the first of their tokens to the last. -/
theorem isPiece_sourceText {text : String} {trailing : List Char} {front taken rest : List Word}
    (e : text.toList = charsOf ts ++ trailing) (h : wordsOf ts = front ++ (taken ++ rest))
    (ne : taken ≠ []) :
    ∃ f l, (Input.ofTokens text ts).tokens[front.length]? = some f ∧
      (Input.ofTokens text ts).tokens[front.length + taken.length - 1]? = some l ∧
      IsPiece text f.start l.stop (sourceText taken) := by
  obtain ⟨w, more, rfl⟩ := List.exists_cons_of_ne_nil ne
  have first : (wordsOf ts)[front.length]? = some w := by
    rw [h, List.getElem?_append_right (Nat.le_refl _), Nat.sub_self]
    rfl
  obtain ⟨us, t, vs, rfl, ht, index, rfl⟩ := exists_of_getElem?_words first
  have words : wordsOf (us ++ t :: vs) = wordsAfter .atStart us ++ (gapAfter .atStart us).word t ::
      wordsAfter (.after (((gapAfter .atStart us).word t).start.advance t.text)) vs := by
    rw [wordsOf, wordsAfter_append, wordsAfter_word ht]
  rw [words] at h
  obtain ⟨-, h⟩ := List.append_inj h (length_wordsAfter.trans index)
  have behind := (List.cons.inj h).2
  -- The tokens of the further words, and where the last of them ends.
  obtain ⟨xs, ys, l, rfl, ends, hl, last, stop⟩ : ∃ xs ys l, vs = xs ++ ys ∧
      (xs = [] ∨ EndsInWord xs) ∧ wordsAfter
        (.after (((gapAfter .atStart us).word t).start.advance t.text)) xs = more ∧
      (Input.ofTokens text (us ++ t :: vs)).tokens[front.length + more.length]? = some l ∧
      l.stop = String.utf8Len (charsOf (us ++ t :: xs)) := by
    by_cases none : more = []
    · refine ⟨[], vs, t.span (String.utf8Len (charsOf us)), rfl, .inl rfl, none.symm, ?_, ?_⟩
      · rw [none, List.length_nil, Nat.add_zero, ← index, getElem?_tokens text us vs ht]
      · simp [Token.span, Nat.add_assoc]
    · obtain ⟨xs, ys, p, rfl, hxs, ⟨zs, l, rfl, hl⟩, -⟩ := wordsAfter_eq_append behind none
      refine ⟨zs ++ [l], ys, l.span (String.utf8Len (charsOf (us ++ t :: zs))), rfl,
        .inr ⟨zs, l, rfl, hl⟩, hxs, ?_, ?_⟩
      · have length : (plain (us ++ t :: zs)).length = front.length + more.length := by
          rw [← hxs, length_wordsAfter, ← index, plain_append, plain_append, List.length_append,
            List.length_append, length_plain_cons ht, length_plain_cons hl]
          simp [plain, Nat.add_comm]
        rw [← length, ← getElem?_tokens text (us ++ t :: zs) ys hl]
        simp
      · simp [Token.span, Nat.add_assoc]
  refine ⟨_, l, index ▸ getElem?_tokens text us (xs ++ ys) ht, last, ?_⟩
  rw [← hl, sourceText_cons_wordsAfter ends]
  rw [charsOf_append, charsOf_cons, charsOf_append] at e
  refine ⟨String.ofList (charsOf us ++ t.blank.toList), String.ofList (charsOf ys ++ trailing),
    ?_, ?_, ?_⟩
  · rw [← String.toList_inj, e]
    simp [Gap.word]
  · simp [Token.span, String.utf8ByteSize_ofList]
  · rw [stop]
    simp [String.utf8ByteSize_ofList, Gap.word, Nat.add_assoc]

/-! ## The comments in front of a word -/

/-- A span lies within the text of the tokens, and it is not empty. -/
theorem mem_spansOf_bounds (hne : ∀ t ∈ ts, 0 < t.text.utf8ByteSize) {s : Span}
    (h : s ∈ spansOf offset ts) :
    offset ≤ s.start ∧ s.start < s.stop ∧ s.stop ≤ offset + String.utf8Len (charsOf ts) := by
  obtain ⟨us, t, vs, rfl, rfl⟩ := exists_of_mem_spansOf h
  have positive := hne t (by simp)
  rw [charsOf_append, String.utf8Len_append, utf8Len_charsOf_cons, Token.utf8Len_chars]
  simp only [Token.span]
  omega

theorem filter_comments (h : ∀ c ∈ cs, c.kind.isComment = true) :
    (spansOf offset cs).filter (·.kind.isComment) = spansOf offset cs := by
  refine List.filter_eq_self.2 fun s hs ↦ ?_
  obtain ⟨us, t, vs, rfl, rfl⟩ := exists_of_mem_spansOf hs
  exact h t (by simp)

theorem plain_comments (h : ∀ c ∈ cs, c.kind.isComment = true) : plain cs = [] := by
  simpa [plain] using h

theorem gapAfter_comments (h : ∀ c ∈ cs, c.kind.isComment = true) :
    gapAfter g cs = cs.foldl Gap.comment g := by
  induction cs generalizing g with
  | nil => rfl
  | cons c cs ih =>
    rw [gapAfter, if_pos (h c List.mem_cons_self), ih fun d hd ↦ h d (List.mem_cons_of_mem _ hd)]
    rfl

/-- The comments at the end of some tokens. -/
theorem exists_last_comments (us : List Token) : ∃ xs cs, us = xs ++ cs ∧
    (∀ c ∈ cs, c.kind.isComment = true) ∧ (xs = [] ∨ EndsInWord xs) := by
  induction us with
  | nil => exact ⟨[], [], rfl, by simp, .inl rfl⟩
  | cons c us ih =>
    obtain ⟨xs, cs, rfl, hcs, ends⟩ := ih
    rcases ends with rfl | ends
    · cases hc : c.kind.isComment with
      | true => exact ⟨[], c :: cs, rfl, List.forall_mem_cons.2 ⟨hc, hcs⟩, .inl rfl⟩
      | false => exact ⟨[c], cs, rfl, hcs, .inr ⟨[], c, rfl, hc⟩⟩
    · exact ⟨c :: xs, cs, rfl, hcs, .inr (ends.append_left [c])⟩

/-- The token in front of the one with this index, by the tokens up to it. -/
theorem before?_of_append {xs : List Token} (text : String) (vs : List Token)
    (h : xs = [] ∨ EndsInWord xs) :
    (xs = [] ∧ (Input.ofTokens text (xs ++ vs)).before? (plain xs).length = none) ∨
      EndsInWord xs ∧ ∃ b, (Input.ofTokens text (xs ++ vs)).before? (plain xs).length = some b ∧
        b.stop = String.utf8Len (charsOf xs) := by
  rcases h with rfl | ends
  · exact .inl ⟨rfl, rfl⟩
  · obtain ⟨ys, b, rfl, hb⟩ := ends
    refine .inr ⟨⟨ys, b, rfl, hb⟩, b.span (String.utf8Len (charsOf ys)), ?_, ?_⟩
    · have index : (plain (ys ++ [b])).length = (plain ys).length + 1 := by
        simp [plain, hb]
      rw [Input.before?, index, if_neg (Nat.succ_ne_zero _), Nat.add_sub_cancel,
        List.append_assoc, List.singleton_append, getElem?_tokens text ys vs hb]
    · simp [Token.span, Nat.add_assoc]

/-- The comments of a text around the token `t` with this index: `front` lie in front of the end of
the token before it, `between` between the two, and `behind` end behind the start of `t`. -/
structure Input.Around (input : Input) (i : Nat) (t : Span) (front between behind : List Span) :
    Prop where
  token : input.tokens[i]? = some t
  comments : input.comments = front ++ (between ++ behind)
  nonempty : ∀ c ∈ input.comments, c.start < c.stop
  before : ∀ b ∈ input.before? i, b.stop ≤ t.start
  front_le : ∀ a ∈ front, ∃ b ∈ input.before? i, a.stop ≤ b.stop
  le_between : ∀ c ∈ between, ∀ b ∈ input.before? i, b.stop ≤ c.start
  between_le : ∀ c ∈ between, c.stop ≤ t.start
  lt_behind : ∀ d ∈ behind, t.start < d.stop

/-- The comments that start on a later line than the token in front of this index ends. -/
def Input.fresh (input : Input) (i : Nat) (comments : List Span) : List Span :=
  comments.filter fun c ↦
    isBehind ((input.before? i).map fun b ↦ (input.position b.stop).line) (input.position c.start)

/-- The comments that lead a token are among those between it and the one before. -/
theorem Input.Around.leading {input : Input} {i : Nat} {s : Span} {as bs ds : List Span}
    (h : input.Around i s as bs ds) : input.leading i = input.fresh i bs := by
  rw [Input.leading, h.token]
  dsimp only
  rw [h.comments, List.filter_append, List.filter_append]
  have none : as.filter (input.leads i s) = [] := by
    refine List.filter_eq_nil_iff.2 fun a ha leads ↦ ?_
    obtain ⟨b, hb, le⟩ := h.front_le a ha
    have positive := h.nonempty a (by simp [h.comments, ha])
    rw [Input.leads, Option.mem_def.1 hb] at leads
    simp only [Option.all_some, Bool.and_eq_true, decide_eq_true_eq] at leads
    omega
  have none' : ds.filter (input.leads i s) = [] := by
    refine List.filter_eq_nil_iff.2 fun d hd leads ↦ ?_
    have le := of_decide_eq_true (Bool.and_eq_true_iff.1 leads).1
    exact Nat.not_le_of_lt (h.lt_behind d hd) le
  rw [none, none', List.nil_append, List.append_nil]
  refine List.filter_congr fun c hc ↦ ?_
  have le := h.between_le c hc
  cases hb : input.before? i with
  | none => simp [Input.leads, isBehind, le, hb]
  | some b => simp [Input.leads, isBehind, le, hb, h.le_between c hc b hb]

section around

variable {xs : List Token} (text : String) (hcs : ∀ c ∈ cs, c.kind.isComment = true)
  (ends : xs = [] ∨ EndsInWord xs)

include hcs ends

/-- The comments of a text around a token, by the tokens in front of it. -/
theorem around_ofTokens (ht : t.kind.isComment = false)
    (hne : ∀ u ∈ xs ++ (cs ++ t :: vs), 0 < u.text.utf8ByteSize) :
    (Input.ofTokens text (xs ++ (cs ++ t :: vs))).Around (plain xs).length
      (t.span (String.utf8Len (charsOf (xs ++ cs)))) ((spansOf 0 xs).filter (·.kind.isComment))
      (spansOf (String.utf8Len (charsOf xs)) cs)
      ((spansOf (String.utf8Len (charsOf xs) + String.utf8Len (charsOf cs) +
        String.utf8Len t.chars) vs).filter (·.kind.isComment)) := by
  have stop {b : Span}
      (hb : b ∈ (Input.ofTokens text (xs ++ (cs ++ t :: vs))).before? (plain xs).length) :
      b.stop = String.utf8Len (charsOf xs) := by
    rcases before?_of_append text (cs ++ t :: vs) ends with ⟨-, none⟩ | ⟨-, b', hb', stop⟩
    · rw [none] at hb
      cases hb
    · obtain rfl := Option.some.inj (hb'.symm.trans hb)
      exact stop
  refine ⟨?_, ?_, fun c hc ↦ ?_, fun b hb ↦ ?_, fun a ha ↦ ?_, fun c hc b hb ↦ ?_, fun c hc ↦ ?_,
    fun d hd ↦ ?_⟩
  · have token := getElem?_tokens text (xs ++ cs) vs ht
    rwa [plain_append, plain_comments hcs, List.append_nil, List.append_assoc] at token
  · rw [Input.comments_ofTokens, spansOf_append, spansOf_append, List.filter_append,
      List.filter_append, Nat.zero_add, filter_comments hcs, spansOf_cons,
      List.filter_cons_of_neg (by simp [ht])]
  · exact (mem_spansOf_bounds hne (List.mem_filter.1 hc).1).2.1
  · rw [stop hb, charsOf_append, String.utf8Len_append]
    simp only [Token.span]
    omega
  · have bounds := mem_spansOf_bounds (fun u hu ↦ hne u (by simp [hu])) (List.mem_filter.1 ha).1
    rcases before?_of_append text (cs ++ t :: vs) ends with ⟨rfl, -⟩ | ⟨-, b, hb, stop⟩
    · simp at ha
    · exact ⟨b, hb, by omega⟩
  · rw [stop hb]
    exact (mem_spansOf_bounds (fun u hu ↦ hne u (by simp [hu])) hc).1
  · have bounds := mem_spansOf_bounds (fun u hu ↦ hne u (by simp [hu])) hc
    rw [charsOf_append, String.utf8Len_append]
    simp only [Token.span]
    omega
  · obtain ⟨start, positive, -⟩ :=
      mem_spansOf_bounds (fun u hu ↦ hne u (by simp [hu])) (List.mem_filter.1 hd).1
    rw [charsOf_append, String.utf8Len_append]
    rw [Token.utf8Len_chars] at start
    simp only [Token.span]
    omega

/-- What documents a word is the text of the comments between it and the word before. -/
theorem isTextOf_between {trailing : List Char}
    (e : text.toList = charsOf (xs ++ (cs ++ t :: vs)) ++ trailing) :
    IsTextOf (Input.ofTokens text (xs ++ (cs ++ t :: vs)))
      ((Input.ofTokens text (xs ++ (cs ++ t :: vs))).fresh (plain xs).length
        (spansOf (String.utf8Len (charsOf xs)) cs))
          ((gapAfter .atStart (xs ++ cs)).word t).doc := by
  have doc : ((gapAfter .atStart (xs ++ cs)).word t).doc =
      (cs.foldl Gap.comment (gapAfter .atStart xs)).doc := by
    rw [gapAfter_append, gapAfter_comments hcs]
    rfl
  rw [charsOf_append, charsOf_append, List.append_assoc, List.append_assoc] at e
  rw [doc, Input.fresh]
  have stop : (gapAfter .atStart xs).stop = Position.origin.advance (String.ofList (charsOf xs)) :=
    stop_gapAfter
  rcases before?_of_append text (cs ++ t :: vs) ends with ⟨rfl, hb⟩ | ⟨ends, b, hb, bstop⟩
  · rw [hb]
    exact isTextOf_foldl_comment _ e ⟨stop, rfl, by simp⟩ rfl
  · obtain ⟨p, hp⟩ := exists_gapAfter_eq (g := .atStart) ends
    rw [hb, hp]
    rw [hp] at stop
    have line := congrArg Position.line (position_ofTokens (xs ++ (cs ++ t :: vs)) e)
    rw [← bstop, ← stop] at line
    refine isTextOf_foldl_comment _ e ⟨stop, ?_, ?_⟩ rfl
    · simp [isBehind, line, Gap.after]
    · simp [line, Gap.after]

end around

/-- Around each word of a text lie the comments of the text, and those between it and the word
before tell what documents it. -/
theorem exists_around {text : String} {trailing : List Char} {i : Nat} {w : Word}
    (e : text.toList = charsOf ts ++ trailing) (hne : ∀ t ∈ ts, 0 < t.text.utf8ByteSize)
    (h : (wordsOf ts)[i]? = some w) :
    ∃ t as bs ds, (Input.ofTokens text ts).Around i t as bs ds ∧
      IsTextOf (Input.ofTokens text ts) ((Input.ofTokens text ts).fresh i bs) w.doc := by
  obtain ⟨us, t, vs, rfl, ht, rfl, rfl⟩ := exists_of_getElem?_words h
  obtain ⟨xs, cs, rfl, hcs, ends⟩ := exists_last_comments us
  have index : (plain (xs ++ cs)).length = (plain xs).length := by
    rw [plain_append, plain_comments hcs, List.append_nil]
  rw [List.append_assoc] at e hne
  rw [index, List.append_assoc]
  exact ⟨_, _, _, _, around_ofTokens text hcs ends ht hne, isTextOf_between text hcs ends e⟩

/-- There is nothing to be documented behind the last token. -/
theorem leading_of_getElem?_eq_none {input : Input} {i : Nat} (h : input.tokens[i]? = none) :
    input.leading i = [] := by
  rw [Input.leading, h]

/-- What documents a word is the text of the comments that lead it. -/
theorem isTextOf_leading {text : String} {trailing : List Char}
    (e : text.toList = charsOf ts ++ trailing) (hne : ∀ t ∈ ts, 0 < t.text.utf8ByteSize) (i : Nat) :
    IsTextOf (Input.ofTokens text ts) ((Input.ofTokens text ts).leading i)
      ((wordsOf ts)[i]?.bind Word.doc) := by
  cases hw : (wordsOf ts)[i]? with
  | none =>
    refine leading_of_getElem?_eq_none ?_
    rw [List.getElem?_eq_none_iff, length_tokens]
    exact List.getElem?_eq_none_iff.1 hw
  | some w =>
    obtain ⟨t, as, bs, ds, around, doc⟩ := exists_around e hne hw
    rw [around.leading]
    exact doc

/-- Spans do not overlap, and they stand in the order of the text. -/
theorem pairwise_spansOf (offset : Nat) (ts : List Token) :
    (spansOf offset ts).Pairwise fun s t ↦ s.stop ≤ t.start :=
  List.pairwise_map.2 (Token.pairwise_spans offset ts)

/-- No comment leads two words. -/
theorem disjoint_leading (text : String) (hne : ∀ t ∈ ts, 0 < t.text.utf8ByteSize) {i j : Nat}
    (lt : i < j) : ((Input.ofTokens text ts).leading i).Disjoint
      ((Input.ofTokens text ts).leading j) := by
  have ordered : (Input.ofTokens text ts).tokens.Pairwise fun s t ↦ s.stop ≤ t.start :=
    (pairwise_spansOf 0 ts).filter _
  have nonempty : ∀ t ∈ (Input.ofTokens text ts).tokens, t.start < t.stop := fun t ht ↦
    (mem_spansOf_bounds hne (List.mem_filter.1 ht).1).2.1
  have comments : ∀ c ∈ (Input.ofTokens text ts).comments, c.start < c.stop := fun c hc ↦
    (mem_spansOf_bounds hne (List.mem_filter.1 hc).1).2.1
  generalize Input.ofTokens text ts = input at *
  intro c hi hj
  rw [Input.leading] at hi hj
  split at hi
  · cases hi
  rename_i t ht
  split at hj
  · cases hj
  rename_i u hu
  obtain ⟨mem, before⟩ := List.mem_filter.1 hi
  obtain ⟨-, behind⟩ := List.mem_filter.1 hj
  have le := of_decide_eq_true (Bool.and_eq_true_iff.1 before).1
  have room : j - 1 < input.tokens.length := by
    have := (List.getElem?_eq_some_iff.1 hu).1
    omega
  have between : input.before? j = some input.tokens[j - 1] := by
    rw [Input.before?, if_neg (Nat.ne_of_gt (Nat.zero_lt_of_lt lt)), List.getElem?_eq_getElem room]
  have passed : t.start < input.tokens[j - 1].stop := by
    have last := nonempty _ (List.getElem_mem room)
    obtain ⟨here, rfl⟩ := List.getElem?_eq_some_iff.1 ht
    rcases Nat.eq_or_lt_of_le (Nat.le_sub_one_of_lt lt) with rfl | further
    · exact last
    · have := List.pairwise_iff_getElem.1 ordered i (j - 1) here room further
      have := nonempty _ (List.getElem_mem here)
      omega
  rw [Input.leads, between] at behind
  simp only [Option.all_some, Bool.and_eq_true, decide_eq_true_eq] at behind
  have := comments c mem
  omega

end PlatformOverlay.Java
