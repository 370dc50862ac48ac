import PlatformOverlay.Proofs.Java.Lexing.Longest
import PlatformOverlay.Proofs.Text.Piece

/-!
# Tokens cover a text

The tokens of a text stand one behind the other, each is the longest match there and is read as the
same token by itself, and outside of them there are blanks only.  Where reading stops, the text in
front has been read, and no token can be read (`tokenize_covers`).

All of this is said of byte ranges of the text, `Covers` for a text that can be read and `StopsAt`
for one that cannot. The lexer works on a list of characters; that nothing is lost or read twice on
the way is what the ranges show, each of which begins where the blanks behind the one before end.

What stands in a range is said without the scanner, by the pattern of the kind of tokens
(`LongestMatch`), in `PlatformOverlay.Proofs.Java.Lexing.Longest`.
-/

namespace PlatformOverlay.Java

open Text (IsPiece)
open Lexer

/-! ## Byte ranges of tokens -/

/-- The byte range of a token when its blanks begin at the offset. -/
def Token.spanFrom (offset : Nat) (t : Token) : TokenKind × Nat × Nat :=
  (t.kind, offset + t.blank.utf8ByteSize, offset + t.blank.utf8ByteSize + t.text.utf8ByteSize)

variable {offset : Nat} {t : Token} {ts us vs : List Token} {s : TokenKind × Nat × Nat}

theorem Token.utf8Len_chars (t : Token) :
    String.utf8Len t.chars = t.blank.utf8ByteSize + t.text.utf8ByteSize := by
  simp [Token.chars]

theorem utf8Len_charsOf_cons (t : Token) (ts : List Token) :
    String.utf8Len (charsOf (t :: ts)) = String.utf8Len t.chars + String.utf8Len (charsOf ts) :=
  String.utf8Len_append _ _

theorem Token.spans_cons :
    Token.spans offset (t :: ts) =
      t.spanFrom offset :: Token.spans (offset + String.utf8Len t.chars) ts := by
  rw [Token.spans, Token.spanFrom, Token.utf8Len_chars, Nat.add_assoc]

/-- The spans of tokens behind others start where those end. -/
theorem Token.spans_append :
    Token.spans offset (us ++ vs) =
      Token.spans offset us ++ Token.spans (offset + String.utf8Len (charsOf us)) vs := by
  induction us generalizing offset with
  | nil => rfl
  | cons t us ih =>
    rw [List.cons_append, Token.spans_cons, Token.spans_cons, ih, List.cons_append,
      utf8Len_charsOf_cons, Nat.add_assoc]

/-- A span is that of a token behind others. -/
theorem Token.exists_of_mem_spans (h : s ∈ Token.spans offset ts) : ∃ us t vs,
    ts = us ++ t :: vs ∧ s = t.spanFrom (offset + String.utf8Len (charsOf us)) := by
  induction ts generalizing offset with
  | nil => cases h
  | cons t ts ih =>
    rw [Token.spans_cons] at h
    rcases List.mem_cons.1 h with rfl | h
    · exact ⟨[], t, ts, rfl, rfl⟩
    · obtain ⟨us, u, vs, rfl, rfl⟩ := ih h
      refine ⟨t :: us, u, vs, rfl, ?_⟩
      rw [utf8Len_charsOf_cons, Nat.add_assoc]

theorem Token.le_of_mem_spans (h : s ∈ Token.spans offset ts) : offset ≤ s.2.1 := by
  obtain ⟨us, t, vs, -, rfl⟩ := Token.exists_of_mem_spans h
  simp only [Token.spanFrom]
  omega

theorem Token.pairwise_spans (offset : Nat) (ts : List Token) :
    (Token.spans offset ts).Pairwise fun s t ↦ s.2.2 ≤ t.2.1 := by
  induction ts generalizing offset with
  | nil => exact .nil
  | cons t ts ih =>
    rw [Token.spans_cons]
    refine .cons (fun s hs ↦ ?_) (ih _)
    have := Token.le_of_mem_spans hs
    rw [Token.utf8Len_chars] at this
    simp only [Token.spanFrom]
    omega

/-! ## Tokens in a text -/

/-- Between these parts of a text there is a token of the kind. -/
structure Stands (kind : TokenKind) (token back : String) : Prop where
  alone : tokenize token = .ok ⟨[⟨kind, "", token⟩], ""⟩
  longest : ∃ opening body, token.toList = opening ++ body ∧
    LongestMatch kind opening (token ++ back).toList ∧ Completes kind body

/-- The range is that of a token of the kind. -/
def IsTokenAt (text : String) (kind : TokenKind) (start stop : Nat) : Prop :=
  start < stop ∧ ∃ front token back, text = front ++ token ++ back ∧
    front.utf8ByteSize = start ∧ (front ++ token).utf8ByteSize = stop ∧ Stands kind token back

/-- These are the tokens of the text. -/
structure Covers (text : String) (spans : List (TokenKind × Nat × Nat)) : Prop where
  tokens : ∀ s ∈ spans, IsTokenAt text s.1 s.2.1 s.2.2
  ordered : spans.Pairwise fun s t ↦ s.2.2 ≤ t.2.1
  skipped : ∀ i < text.utf8ByteSize, (∃ s ∈ spans, s.2.1 ≤ i ∧ i < s.2.2) ∨
    ∃ c, isSkipped c = true ∧ IsPiece text i (i + 1) (String.singleton c)

/-- Up to the offset the text can be read, and there no token can. -/
def StopsAt (text : String) (offset : Nat) : Prop :=
  ∃ front c back, text = front ++ String.ofList (c :: back) ∧ front.utf8ByteSize = offset ∧
    (∃ lexed, tokenize front = .ok lexed) ∧ isSkipped c = false ∧
    ((∀ kind t, Matches kind t → ¬ t <+: c :: back) ∨
      ∃ kind opening body, (kind = .blockComment ∨ kind = .textBlock) ∧
        c :: back = opening ++ body ∧
        LongestMatch kind opening (c :: back) ∧ NeverCompletes kind body)

theorem tokenize_of_isToken {kind : TokenKind} {token : String} (h : IsToken kind token.toList) :
    tokenize token = .ok ⟨[⟨kind, "", token⟩], ""⟩ := by
  refine tokenize_eq_ok.2 (tokenizeChars_iff.2 ⟨by simp, by simp [Skipped], by simp [Skipped], h,
    (scan_append_iff.1 (by rwa [charsOf_nil, String.toList_empty, List.append_nil,
      List.append_nil])).2,
    trivial⟩)

/-- What is scanned stands in the text as the longest match. -/
theorem Stands.of_scan {kind : TokenKind} {token back : String}
    (h : scan (token ++ back).toList = some (kind, token.toList, back.toList)) :
    Stands kind token back := by
  have found := finds_scan (token ++ back).toList
  rw [h] at found
  obtain ⟨opening, longest, body, e, completes⟩ := found
  rw [String.toList_append] at h
  exact ⟨tokenize_of_isToken (scan_append_iff.1 h).1, opening, body, e, longest, completes⟩

theorem Lexer.Chained.utf8ByteSize_pos {k : List Char} (h : Chained ts k) :
    ∀ t ∈ ts, 0 < t.text.utf8ByteSize := by
  induction ts with
  | nil => simp
  | cons t ts ih =>
    refine List.forall_mem_cons.2 ⟨?_, ih h.2.2.2⟩
    obtain ⟨c, cs, ht⟩ := List.exists_cons_of_ne_nil h.2.1.ne_nil
    rw [← String.utf8Len_toList, ht, String.utf8Len_cons]
    exact Nat.add_pos_right _ c.utf8Size_pos

/-- Each token is what is scanned where it stands. -/
theorem Lexer.Chained.scan {k : List Char} (h : Chained (us ++ t :: vs) k) :
    scan (t.text.toList ++ (charsOf vs ++ k)) = some (t.kind, t.text.toList, charsOf vs ++ k) := by
  obtain ⟨-, -, token, follows, -⟩ := chained_append.1 h
  exact scan_append_iff.2 ⟨token, follows⟩

/-- Blanks between tokens are one byte each. -/
theorem utf8Size_of_isSkipped {c : Char} (h : isSkipped c = true) : c.utf8Size = 1 := by
  simp only [isSkipped, Bool.or_eq_true, beq_iff_eq] at h
  rcases h with (((rfl | rfl) | rfl) | rfl) | rfl <;> decide

/-- A byte of some blanks behind a text is one of them. -/
theorem Lexer.Skipped.exists_at {front b : List Char} (h : Skipped b) {i : Nat}
    (le : String.utf8Len front ≤ i) (lt : i < String.utf8Len (front ++ b)) (rest : List Char) :
    ∃ c a d, isSkipped c = true ∧ front ++ (b ++ rest) = a ++ c :: d ∧ String.utf8Len a = i := by
  induction b generalizing front with
  | nil =>
    rw [List.append_nil] at lt
    exact (Nat.not_lt_of_le le lt).elim
  | cons c b ih =>
    have hc := h c List.mem_cons_self
    rcases Nat.eq_or_lt_of_le le with rfl | le
    · exact ⟨c, front, b ++ rest, hc, rfl, rfl⟩
    · have le : String.utf8Len (front ++ [c]) ≤ i := by
        simp [utf8Size_of_isSkipped hc]
        omega
      simpa using ih (fun d hd ↦ h d (List.mem_cons_of_mem _ hd)) le (by simpa using lt)

/-- A byte behind some text belongs to one of the tokens that follow or to a blank. -/
theorem exists_span_or_skipped {front trailing : List Char} {k : List Char}
    (chained : Chained ts k) (blanks : Skipped trailing) {i : Nat}
    (le : String.utf8Len front ≤ i)
    (lt : i < String.utf8Len (front ++ (charsOf ts ++ trailing))) :
    (∃ s ∈ Token.spans (String.utf8Len front) ts, s.2.1 ≤ i ∧ i < s.2.2) ∨
      ∃ c a b, isSkipped c = true ∧ front ++ (charsOf ts ++ trailing) = a ++ c :: b ∧
        String.utf8Len a = i := by
  induction ts generalizing front with
  | nil => exact .inr (by simpa using blanks.exists_at le (by simpa using lt) [])
  | cons t ts ih =>
    obtain ⟨skipped, -, -, chained⟩ := chained
    rw [charsOf_cons, List.append_assoc] at lt ⊢
    by_cases first : i < String.utf8Len (front ++ t.blank.toList)
    · exact .inr (skipped.exists_at le first _)
    by_cases second : i < String.utf8Len (front ++ t.chars)
    · refine .inl ⟨_, by rw [Token.spans_cons]; exact List.mem_cons_self, ?_⟩
      simp only [String.utf8Len_append, Token.utf8Len_chars, String.utf8Len_toList] at first second
      simp only [Token.spanFrom]
      omega
    · have e : front ++ (t.blank.toList ++ (t.text.toList ++ charsOf ts ++ trailing)) =
          (front ++ t.chars) ++ (charsOf ts ++ trailing) := by simp [Token.chars]
      rw [e] at lt ⊢
      rcases ih chained (Nat.le_of_not_lt second) lt with ⟨s, hs, h⟩ | h
      · rw [String.utf8Len_append] at hs
        exact .inl ⟨s, by rw [Token.spans_cons]; exact List.mem_cons_of_mem _ hs, h⟩
      · exact .inr h

/-- Where reading stops, the tokens in front have been read. -/
theorem Lexer.exists_of_tokenizeChars_error {cs rest : List Char}
    (h : tokenizeChars cs = .error ⟨rest⟩) : ∃ ts b c back, cs = charsOf ts ++ (b ++ rest) ∧
      Skipped b ∧ Chained ts (b ++ rest) ∧ rest = c :: back ∧ isSkipped c = false ∧
      scan rest = none := by
  have skipped : Skipped (cs.takeWhile isSkipped) := List.all_eq_true.1 List.all_takeWhile
  have parts := List.takeWhile_append_dropWhile (p := isSkipped) (l := cs)
  rw [tokenizeChars] at h
  split at h
  · cases h
  · rename_i c after hd
    have other : isSkipped c = false := by
      have := List.head?_dropWhile_not isSkipped cs
      rw [hd] at this
      simpa using this
    split at h
    · rename_i none
      cases h
      exact ⟨[], _, c, after, by rw [← hd, parts]; rfl, skipped, trivial, rfl, other, none⟩
    · rename_i kind text left found
      have inner : tokenizeChars left = .error ⟨rest⟩ := by
        cases hl : tokenizeChars left with
        | error e => simpa [hl, Except.map] using h
        | ok l => simp [hl, Except.map] at h
      have shorter : left.length < cs.length := by
        have : left.length < _ := length_lt_of_scan found
        have := (List.dropWhile_suffix (l := cs) isSkipped).length_le
        rw [hd] at this
        omega
      obtain ⟨ts, b, d, back, rfl, hb, chained, e, hd', none⟩ := exists_of_tokenizeChars_error inner
      have whole := (scan_append found).1
      simp only at whole
      rw [← whole] at found
      obtain ⟨token, follows⟩ := scan_append_iff.1 found
      refine ⟨⟨kind, String.ofList (cs.takeWhile isSkipped), String.ofList text⟩ :: ts, b, d, back,
        ?_, hb, ⟨by simpa using skipped, by simpa using token, by simpa using follows, chained⟩, e,
        hd', none⟩
      rw [charsOf_cons, String.toList_ofList, String.toList_ofList, List.append_assoc,
        List.append_assoc, whole, ← hd, parts]
termination_by cs.length

/-- Chained tokens and blanks cover their text. -/
theorem covers_of_chained {text trailing : String} (e : text.toList = charsOf ts ++ trailing.toList)
    (blanks : Skipped trailing.toList) (chained : Chained ts trailing.toList) :
    Covers text (Token.spans 0 ts) where
  tokens s hs := by
    obtain ⟨us, t, vs, rfl, rfl⟩ := Token.exists_of_mem_spans hs
    have found := chained.scan
    have front : String.utf8Len (charsOf us) + t.blank.utf8ByteSize =
        (String.ofList (charsOf us ++ t.blank.toList)).utf8ByteSize := by
      rw [String.utf8ByteSize_ofList, String.utf8Len_append, String.utf8Len_toList]
    have positive := chained.utf8ByteSize_pos t (by simp)
    simp only [Token.spanFrom, Nat.zero_add]
    refine ⟨by omega, String.ofList (charsOf us ++ t.blank.toList), t.text,
      String.ofList (charsOf vs ++ trailing.toList), ?_, front.symm, ?_, .of_scan ?_⟩
    · rw [← String.toList_inj, e]
      simp
    · rw [String.utf8ByteSize_append, front]
    · simpa using found
  ordered := Token.pairwise_spans 0 ts
  skipped i hi := by
    rw [← String.utf8Len_toList, e] at hi
    have from_start : String.utf8Len [] ≤ i := Nat.zero_le i
    rcases exists_span_or_skipped chained blanks from_start hi with
      h | ⟨c, a, b, hc, parts, size⟩
    · exact .inl h
    · refine .inr ⟨c, hc, String.ofList a, String.ofList b, ?_, ?_, ?_⟩
      · rw [← String.toList_inj, e]
        simpa using parts
      · rw [String.utf8ByteSize_ofList, size]
      · rw [String.utf8ByteSize_append, String.utf8ByteSize_ofList, size]
        simp [utf8Size_of_isSkipped hc]

/-- What reading a text as tokens says about the text. -/
theorem tokenize_covers (text : String) :
    match tokenize text with
    | .ok lexed => Covers text (Token.spans 0 lexed.tokens)
    | .error e => StopsAt text e.offset := by
  cases h : tokenizeChars text.toList with
  | ok lexed =>
    rw [tokenize_eq_ok.2 h]
    obtain ⟨e, blanks, chained⟩ := tokenizeChars_iff.1 h
    exact covers_of_chained e blanks chained
  | error e =>
    obtain ⟨ts, b, c, back, parts, skipped, chained, rest, other, none⟩ :=
      exists_of_tokenizeChars_error h
    have whole : text = String.ofList (charsOf ts ++ b) ++ String.ofList e.rest := by
      rw [← String.toList_inj, parts]
      simp
    rw [tokenize, h]
    refine ⟨String.ofList (charsOf ts ++ b), c, back, rest ▸ whole, ?_, ⟨⟨ts, String.ofList b⟩, ?_⟩,
      other, ?_⟩
    · have size := congrArg String.utf8ByteSize whole
      rw [String.utf8ByteSize_append] at size
      exact (Nat.sub_eq_of_eq_add size).symm
    · refine tokenize_eq_ok.2 (tokenizeChars_iff.2 ⟨by simp, by simpa using skipped, ?_⟩)
      simpa using chained.of_append
    · have found := finds_scan (c :: back)
      rw [← rest, none] at found
      rw [rest] at found
      rcases found with no | ⟨kind, opening, body, e, longest, never⟩
      · exact .inl no
      · refine .inr ⟨kind, opening, body, ?_, e, longest, never⟩
        cases kind <;> first | exact .inl rfl | exact .inr rfl | exact never.elim

end PlatformOverlay.Java
