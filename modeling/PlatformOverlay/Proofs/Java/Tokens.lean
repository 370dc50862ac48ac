import PlatformOverlay.Proofs.Java.Scan
import PlatformOverlay.Text.Blank

/-!
# Reading a whole text

The tokens of a text are the ones that make it up and each of which ends where the next begins
(`tokenizeChars_iff`), so a text can be cut between tokens and put together again.

`Chained` has both: each of them is a token by itself and is not prolonged by what stands behind it.
It is a property of a list of tokens and not of a run of the lexer, so lists of tokens can be made
up and read back.
-/

namespace PlatformOverlay.Java

def Token.chars (t : Token) : List Char := t.blank.toList ++ t.text.toList

/-- The text that tokens make up. -/
def charsOf (ts : List Token) : List Char := ts.flatMap Token.chars

@[simp] theorem charsOf_nil : charsOf [] = [] := rfl

@[simp] theorem charsOf_cons (t : Token) (ts : List Token) :
    charsOf (t :: ts) = t.blank.toList ++ (t.text.toList ++ charsOf ts) := by
  simp [charsOf, Token.chars]

@[simp] theorem charsOf_append (ts us : List Token) :
    charsOf (ts ++ us) = charsOf ts ++ charsOf us := by
  simp [charsOf]

namespace Lexer

def Skipped (cs : List Char) : Prop := ∀ c ∈ cs, isSkipped c = true

theorem isBlank_of_isSkipped {c : Char} (h : isSkipped c = true) : Text.isBlank c = true := by
  simp only [isSkipped, Bool.or_eq_true, beq_iff_eq] at h
  rcases h with (((rfl | rfl) | rfl) | rfl) | rfl <;> decide

/-- Each token is one, and ends where the next or `k` follows. -/
def Chained : List Token → List Char → Prop
  | [], _ => True
  | t :: ts, k =>
      Skipped t.blank.toList ∧ IsToken t.kind t.text.toList ∧
        Follows t.kind t.text.toList (charsOf ts ++ k) ∧ Chained ts k

/-- The blanks in front of a token are all that is skipped. -/
theorem takeWhile_append_of_skipped {b t : List Char} (hb : Skipped b)
    (ht : ∀ c ∈ t.head?, isSkipped c = false) :
    (b ++ t).takeWhile isSkipped = b ∧ (b ++ t).dropWhile isSkipped = t := by
  have := spanWhile_append_iff.2 ⟨hb, ht⟩
  exact ⟨congrArg Prod.fst this, congrArg Prod.snd this⟩

theorem tokenizeChars_of_skipped {b : List Char} (hb : Skipped b) :
    tokenizeChars b = .ok ⟨[], String.ofList b⟩ := by
  have e := takeWhile_append_of_skipped (t := []) hb (by simp)
  rw [List.append_nil] at e
  rw [tokenizeChars]
  split
  · rw [e.1]
  · simp_all

/-- A token that is scanned behind blanks is the first one of the text. -/
theorem tokenizeChars_of_scan {b t left : List Char} {kind : TokenKind} (hb : Skipped b)
    (h : scan (t ++ left) = some (kind, t, left)) :
    tokenizeChars (b ++ (t ++ left)) =
      (tokenizeChars left).map (Lexed.cons ⟨kind, String.ofList b, String.ofList t⟩) := by
  obtain ⟨c, t, rfl⟩ := List.exists_cons_of_ne_nil (scan_append h).2
  have ht := isSkipped_eq_false_of_isToken (scan_append_iff.1 h).1
  obtain ⟨take, drop⟩ := takeWhile_append_of_skipped hb (t := c :: t ++ left) (by simpa using ht)
  rw [tokenizeChars]
  split
  · simp_all
  · rename_i c' rest hd
    obtain ⟨rfl, rfl⟩ := List.cons.inj (drop.symm.trans hd)
    split
    · simp_all
    · rename_i hs
      cases (hs.symm.trans h)
      rw [take]

/-- Tokens that do not prolong each other come back from their text. -/
theorem tokenizeChars_of_chained {ts : List Token} {trailing : String}
    (htr : Skipped trailing.toList) (h : Chained ts trailing.toList) :
    tokenizeChars (charsOf ts ++ trailing.toList) = .ok ⟨ts, trailing⟩ := by
  induction ts with
  | nil => simp [tokenizeChars_of_skipped htr]
  | cons t ts ih =>
    obtain ⟨hb, ht, hf, h⟩ := h
    rw [charsOf_cons, List.append_assoc, List.append_assoc,
      tokenizeChars_of_scan hb (scan_append_iff.2 ⟨ht, hf⟩), ih h]
    simp [Except.map, Lexed.cons]

/-- The tokens of a text do not prolong each other. -/
theorem chained_of_tokenizeChars {cs : List Char} {ts : List Token} {trailing : String}
    (h : tokenizeChars cs = .ok ⟨ts, trailing⟩) :
    cs = charsOf ts ++ trailing.toList ∧ Skipped trailing.toList ∧
      Chained ts trailing.toList := by
  have skipped : Skipped (cs.takeWhile isSkipped) :=
    List.all_eq_true.1 List.all_takeWhile
  have parts := List.takeWhile_append_dropWhile (p := isSkipped) (l := cs)
  rw [tokenizeChars] at h
  split at h
  · rename_i hd
    cases h
    rw [hd, List.append_nil] at parts
    exact ⟨by simp [parts], by simpa using skipped, trivial⟩
  · rename_i c rest hd
    split at h
    · simp at h
    · rename_i kind text left hs
      cases hl : tokenizeChars left with
      | error => simp [hl, Except.map] at h
      | ok l =>
        obtain ⟨rfl, rfl⟩ : _ = ts ∧ _ = trailing := by
          simpa [hl, Except.map, Lexed.cons] using h
        have shorter : left.length < cs.length := by
          have : left.length < _ := length_lt_of_scan hs
          have := (List.dropWhile_suffix (l := cs) isSkipped).length_le
          rw [hd] at this
          omega
        obtain ⟨e, htr, hc⟩ := chained_of_tokenizeChars hl
        obtain ⟨e', -⟩ := scan_append hs
        simp only at e'
        rw [← e'] at hs
        obtain ⟨ht, hf⟩ := scan_append_iff.1 hs
        refine ⟨?_, htr, by simpa using skipped, by simpa using ht, ?_, hc⟩
        · rw [charsOf_cons, String.toList_ofList, String.toList_ofList, List.append_assoc,
            List.append_assoc, ← e, e', ← hd, parts]
        · simpa [← e] using hf
termination_by cs.length

/-- The tokens of a text are those that make it up and each of which ends where the next
begins. -/
theorem tokenizeChars_iff {cs : List Char} {ts : List Token} {trailing : String} :
    tokenizeChars cs = .ok ⟨ts, trailing⟩ ↔
      cs = charsOf ts ++ trailing.toList ∧ Skipped trailing.toList ∧
      Chained ts trailing.toList := by
  constructor
  · exact chained_of_tokenizeChars
  · rintro ⟨rfl, htr, h⟩
    exact tokenizeChars_of_chained htr h

/-- Tokens are chained when those in front are, before the text of the others, and the others
are. -/
theorem chained_append {ts us : List Token} {k : List Char} :
    Chained (ts ++ us) k ↔ Chained ts (charsOf us ++ k) ∧ Chained us k := by
  induction ts with
  | nil => simp [Chained]
  | cons t ts ih => simp [Chained, ih, and_assoc]

theorem Chained.of_append {ts : List Token} {k k' : List Char} (h : Chained ts (k ++ k')) :
    Chained ts k := by
  induction ts with
  | nil => trivial
  | cons t ts ih =>
    obtain ⟨hb, ht, hf, h⟩ := h
    rw [← List.append_assoc] at hf
    exact ⟨hb, ht, hf.of_append, ih h⟩

theorem IsToken.ne_nil {kind : TokenKind} {t : List Char} (h : IsToken kind t) : t ≠ [] :=
  (scan_append h).2

/-- Tokens stay as they are when what follows does not go on with the last one. -/
theorem Chained.extend {ts : List Token} {k : List Char} (h : Chained ts [])
    (last : ∀ t ∈ ts.getLast?, Follows t.kind t.text.toList k ∧ (t.text = "." → Breaks k)) :
    Chained ts k := by
  induction ts with
  | nil => trivial
  | cons t ts ih =>
    obtain ⟨hb, ht, hf, h⟩ := h
    cases ts with
    | nil => exact ⟨hb, ht, by simpa using (last t rfl).1, trivial⟩
    | cons u us =>
      rw [List.getLast?_cons_cons] at last
      refine ⟨hb, ht, ?_, ih h last⟩
      obtain ⟨-, hu, -, h⟩ := h
      obtain ⟨c, w, hw⟩ := List.exists_cons_of_ne_nil hu.ne_nil
      rw [List.append_nil] at hf
      refine hf.append (by simp [hw]) fun dot ↦ ?_
      -- A text of one character is that of one token, which then is the last one.
      cases us with
      | nil =>
        obtain ⟨-, rfl, rfl⟩ : u.blank = "" ∧ c = '.' ∧ w = [] := by
          simpa [hw, List.append_eq_singleton_iff] using dot
        exact (last u rfl).2 (String.toList_inj.1 hw)
      | cons v vs =>
        obtain ⟨d, x, hx⟩ := List.exists_cons_of_ne_nil h.2.1.ne_nil
        have := congrArg List.length dot
        simp [hw, hx] at this
        omega

end Lexer

theorem tokenize_eq_ok {text : String} {lexed : Lexer.Lexed} :
    tokenize text = .ok lexed ↔ Lexer.tokenizeChars text.toList = .ok lexed := by
  rw [tokenize]
  cases Lexer.tokenizeChars text.toList with
  | error e => exact iff_of_false (by rintro ⟨⟩) (by rintro ⟨⟩)
  | ok l =>
    constructor
    · rintro ⟨⟩
      rfl
    · rintro ⟨⟩
      rfl

end PlatformOverlay.Java
