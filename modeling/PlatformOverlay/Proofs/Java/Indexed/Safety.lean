import PlatformOverlay.Proofs.Java.Indexed.Simulation

/-!
# Parsing stays within bounds

Words are what the text holds at its tokens, source text and comments included
(`presents_ofTokens`).  So the reader with a cursor reads a file as `Java.parse` does and no check
fails, and where reading fails there is a token, the end of the text, or no token can be read
(`parse_stays_within`).

What is left to do here is the search for comments. The comments of a text are one list, and those
in front of a token are found in it by two searches by halving, for the end of the token before and
for the start of the token itself. `Input.Around` splits the list at these places, the searches find
them (`partitionPoint?_before`, `partitionPoint?_start`), and so the slice between the two is in
range.

Nothing is assumed of the text. If it cannot be read as tokens, both readers say so with the same
error.
-/

namespace PlatformOverlay.Java.Indexed

open Text (LineIndex piece? piece?_eq_some_iff)

variable {α : Type} {ts : List Token}

/-! ## Comments by their ends -/

/-- The search over a list that splits in two finds the place of the split and reads within its
bounds. -/
theorem partitionPoint?_append {holds : α → Bool} {as bs : List α} (has : ∀ a ∈ as, holds a = true)
    (hbs : ∀ b ∈ bs, holds b = false) : partitionPoint? holds (as ++ bs) = some as.length := by
  have taken : (as ++ bs).takeWhile holds = as := by
    rw [List.takeWhile_append_of_pos has]
    cases bs with
    | nil => simp
    | cons b bs => simp [hbs b List.mem_cons_self]
  have left : (as ++ bs).dropWhile holds = bs := by
    have := List.takeWhile_append_dropWhile (p := holds) (l := as ++ bs)
    rw [taken] at this
    exact List.append_cancel_left this
  have none : bs.any holds = false := by simpa using hbs
  rw [partitionPoint?, left, none, taken]
  rfl

section around

variable {input : Input} {i : Nat} {t : Span} {as bs ds : List Span}
  (h : input.Around i t as bs ds)

include h

/-- Searched by their ends, the comments in front end with those up to the token before. -/
theorem partitionPoint?_before :
    partitionPoint? (fun c : Span ↦ c.stop ≤ ((input.before? i).map Span.stop).getD 0)
      input.comments = some as.length := by
  have later : ∀ c ∈ bs ++ ds, ((input.before? i).map Span.stop).getD 0 < c.stop := by
    intro c hc
    have positive := h.nonempty c (h.comments ▸ List.mem_append_right as hc)
    cases hb : input.before? i with
    | none => exact Nat.zero_lt_of_lt positive
    | some b =>
      rcases List.mem_append.1 hc with hc | hc
      · exact (h.le_between c hc b hb).trans_lt positive
      · exact (h.before b hb).trans_lt (h.lt_behind c hc)
  rw [h.comments]
  refine partitionPoint?_append (fun a ha ↦ ?_) fun c hc ↦ by simpa using later c hc
  obtain ⟨b, hb, le⟩ := h.front_le a ha
  simpa [Option.mem_def.1 hb] using le

/-- The comments up to the token itself end with those between it and the token in front. -/
theorem partitionPoint?_start : partitionPoint? (fun c : Span ↦ c.stop ≤ t.start) input.comments =
    some (as.length + bs.length) := by
  rw [h.comments, ← List.append_assoc, ← List.length_append]
  refine partitionPoint?_append (fun a ha ↦ ?_) fun d hd ↦ by simpa using h.lt_behind d hd
  rcases List.mem_append.1 ha with ha | ha
  · obtain ⟨b, hb, le⟩ := h.front_le a ha
    simpa using le.trans (h.before b hb)
  · simpa using h.between_le a ha

/-- Every token but the first has one in front of it. -/
theorem isSome_before? : ¬ (0 < i ∧ (input.before? i).isNone) := by
  rintro ⟨positive, none⟩
  rw [Input.before?, if_neg (Nat.ne_of_gt positive), Option.isNone_iff_eq_none,
    List.getElem?_eq_none_iff] at none
  have := (List.getElem?_eq_some_iff.1 h.token).1
  omega

/-- No check fails, and the reader finds the text of the comments between the two tokens. -/
theorem docOf_of_around {doc : Option Snippet} (text : IsTextOf input (input.fresh i bs) doc) :
    docOf input i = .ok doc := by
  rw [docOf, h.token]
  dsimp only
  rw [if_neg (isSome_before? h), partitionPoint?_before h, partitionPoint?_start h]
  dsimp only
  rw [h.comments, if_pos (by simp), List.drop_left, Nat.add_sub_cancel_left, List.take_left,
    Option.map_map, Function.comp_def]
  rw [Input.fresh] at text
  generalize bs.filter _ = leading at text ⊢
  cases doc with
  | none =>
    obtain rfl : leading = [] := text
    rfl
  | some s =>
    obtain ⟨f, l, hf, hl, piece, column⟩ := text
    cases leading with
    | nil => cases hf
    | cons c cs =>
      obtain rfl := Option.some.inj hf
      rw [List.getLast?_eq_getLast_of_ne_nil (List.cons_ne_nil c cs)] at hl
      obtain rfl := Option.some.inj hl
      dsimp only
      rw [piece?_eq_some_iff.2 piece, ← column]

end around

section

variable {text : String} {trailing : List Char}

/-- The comments that the parser looks for in front of a token are those of its word, and its
checks are passed. -/
theorem docOf_ofTokens (e : text.toList = charsOf ts ++ trailing)
    (hne : ∀ t ∈ ts, 0 < t.text.utf8ByteSize) (i : Nat) :
    docOf (Input.ofTokens text ts) i = .ok ((wordsOf ts)[i]?.bind Word.doc) := by
  cases hw : (wordsOf ts)[i]? with
  | none =>
    have none : (Input.ofTokens text ts).tokens[i]? = none := by
      rw [List.getElem?_eq_none_iff, length_tokens]
      exact List.getElem?_eq_none_iff.1 hw
    rw [docOf, none]
    rfl
  | some w =>
    obtain ⟨t, as, bs, ds, around, doc⟩ := exists_around e hne hw
    exact docOf_of_around around doc

/-- The words of a text are what it holds at its tokens. -/
theorem presents_ofTokens (e : text.toList = charsOf ts ++ trailing)
    (hne : ∀ t ∈ ts, 0 < t.text.utf8ByteSize) :
    Presents (Input.ofTokens text ts) (wordsOf ts) where
  length := length_tokens
  token i t ht := by
    have lt := (List.getElem?_eq_some_iff.1 ht).1
    rw [length_tokens] at lt
    have hw := List.getElem?_eq_getElem lt
    obtain ⟨t', ht', kind, piece, start⟩ := getElem?_tokens_of_word e hw
    obtain rfl := Option.some.inj (ht.symm.trans ht')
    exact ⟨_, hw, kind, piece?_eq_some_iff.2 piece, start⟩
  source first next cursor lt bound := by
    have parts : wordsOf ts = (wordsOf ts).take first ++
        (((wordsOf ts).drop first).take (next - first) ++ (wordsOf ts).drop next) := by
      have rest : (wordsOf ts).drop next = ((wordsOf ts).drop first).drop (next - first) := by
        rw [List.drop_drop, Nat.add_sub_of_le (Nat.le_of_lt lt)]
      rw [rest, List.take_append_drop, List.take_append_drop]
    have front : ((wordsOf ts).take first).length = first := by
      rw [List.length_take]
      omega
    have taken : (((wordsOf ts).drop first).take (next - first)).length = next - first := by
      rw [List.length_take, List.length_drop]
      omega
    obtain ⟨f, l, hf, hl, piece⟩ := isPiece_sourceText e parts fun none ↦ by
      rw [none, List.length_nil] at taken
      omega
    rw [front] at hf
    rw [front, taken, Nat.add_sub_of_le (Nat.le_of_lt lt)] at hl
    rw [slice, hf, hl]
    dsimp only
    rw [if_pos (Nat.le_sub_one_of_lt lt), Input.text_ofTokens, piece?_eq_some_iff.2 piece]
  doc := docOf_ofTokens e hne

end

/-! ## Files -/

/-- The offset of a fault is the start of a token or the end of the text. -/
theorem offsetAt_cases (input : Input) (cursor : Nat) :
    offsetAt input cursor = input.text.utf8ByteSize ∨
      ∃ t ∈ input.tokens, t.start = offsetAt input cursor := by
  rw [offsetAt]
  cases ht : input.tokens[cursor]? with
  | none => exact .inl rfl
  | some t => exact .inr ⟨t, List.mem_of_getElem? ht, rfl⟩

/-- The position of a fault is that of the token at the cursor. -/
theorem position_faultAt {text : String} {trailing : List Char}
    (e : text.toList = charsOf ts ++ trailing) (cause : Cause) (cursor : Nat) :
    (Parser.faultAt cause ((wordsOf ts).drop cursor)).position.getD
        ((LineIndex.ofText text).position text.utf8ByteSize) =
      (Input.ofTokens text ts).position (offsetAt (Input.ofTokens text ts) cursor) := by
  rw [Parser.faultAt, List.head?_drop, offsetAt]
  cases hw : (wordsOf ts)[cursor]? with
  | none =>
    rw [List.getElem?_eq_none_iff, ← length_tokens, ← List.getElem?_eq_none_iff] at hw
    rw [hw]
    rfl
  | some w =>
    obtain ⟨t, ht, -, -, start⟩ := getElem?_tokens_of_word e hw
    rw [ht]
    exact start.symm

/-- The reader with a cursor reads every file as the parser does and no check fails; so its errors
are where a token starts, where the text ends or where no token can be read. -/
theorem parse_stays_within (path : Path) (text : String) :
    parse path text = .ok (Java.parse path text) ∧
      ∀ e, Java.parse path text = .error e → ∃ offset,
        e.position = (LineIndex.ofText text).position offset ∧
          match tokenize text with
          | .error e => offset = e.offset
          | .ok lexed => offset = text.utf8ByteSize ∨
              ∃ t ∈ (Input.ofTokens text lexed.tokens).tokens, t.start = offset := by
  rw [parse, Java.parse]
  split
  · exact ⟨rfl, fun e h ↦ by cases h⟩
  · cases ht : tokenize text with
    | error e =>
      refine ⟨rfl, fun e' h ↦ ?_⟩
      cases h
      exact ⟨e.offset, rfl, rfl⟩
    | ok lexed =>
      obtain ⟨e, -, chained⟩ := Lexer.tokenizeChars_iff.1 (tokenize_eq_ok.1 ht)
      have agrees := agrees_compilationUnit
        (presents_ofTokens e chained.utf8ByteSize_pos) (Nat.zero_le _)
      rw [List.drop_zero] at agrees
      dsimp only
      generalize compilationUnit _ 0 = outcome at agrees ⊢
      generalize Parser.compilationUnit (wordsOf lexed.tokens) = result at agrees ⊢
      cases agrees with
      | done unit next le bound => exact ⟨rfl, fun e h ↦ by cases h⟩
      | failed cause next bound =>
        dsimp only
        rw [position_faultAt e]
        refine ⟨rfl, fun e' h ↦ ?_⟩
        cases h
        exact ⟨_, rfl, offsetAt_cases _ _⟩

end PlatformOverlay.Java.Indexed
