import PlatformOverlay.Proofs.Java.Words

/-!
# Slices

A single token that is not a comment is a slice (`isSlice_of_isToken`), and so are two slices one
behind the other, if the last word of the first one ends there (`IsSlice.append`).

`Joins` is the condition in the second case, and there are two ways to it that occur again and
again: what follows starts with a character that ends every word (`Joins.of_break`), or it is a dot
behind a name (`Joins.of_dot`).
-/

namespace PlatformOverlay.Java

open Lexer (IsToken Follows Breaks breakChars Chained)

variable {s t : String}

theorem IsSlice.shapesOf_ne_nil (h : IsSlice s) : shapesOf s ≠ [] := by
  obtain ⟨ts, h⟩ := h
  obtain ⟨t, us, rfl, ht, -⟩ := h.starts
  simp [h.shapesOf_eq, ht]

theorem IsSlice.ne_empty (h : IsSlice s) : s ≠ "" := by
  obtain ⟨ts, h⟩ := h
  obtain ⟨t, us, rfl, -, -⟩ := h.starts
  rintro rfl
  have := h.chars
  simp [h.chained.2.1.ne_nil] at this

theorem IsDoc.ne_empty (h : IsDoc s) : s ≠ "" := by
  obtain ⟨cs, h⟩ := h
  obtain ⟨c, us, rfl, -⟩ := h.starts
  rintro rfl
  have := h.chars
  simp [h.chained.2.1.ne_nil] at this

theorem follows_of_breaks {kind : TokenKind} {cs k : List Char} (hk : kind.isComment = false)
    (h : Breaks k) : Follows kind cs k :=
  h.follows (by rintro rfl; simp [TokenKind.isComment] at hk)

theorem toList_text_of_ofChar? {c : Char} {p : Punct} (h : Punct.ofChar? c = some p) :
    p.text.toList = [c] := by
  have parts : ∀ {d q r}, (if c = d then some q else r) = some p → c = d ∧ q = p ∨ r = some p := by
    intro d q r h
    split at h
    · exact .inl ⟨‹_›, Option.some.inj h⟩
    · exact .inr h
  unfold Punct.ofChar? at h
  iterate 12
    rcases parts h with ⟨rfl, rfl⟩ | h
    · decide +kernel
  simp at h

theorem toList_text_of_scan {cs : List Char} {p : Punct} {r : Lexer.Split}
    (h : Lexer.scan cs = some (.punct p, r)) : r.1 = p.text.toList := by
  unfold Lexer.scan at h
  split at h <;> try simp at h
  · obtain ⟨rfl, rfl⟩ := h
    rfl
  · unfold Lexer.scanFrom at h
    split at h
    · simp only [Lexer.wordKind, Option.some.injEq, Prod.mk.injEq] at h
      split at h <;> simp at h
    split at h
    · simp at h
    split at h
    · simp at h
    · obtain ⟨q, hq, e⟩ := Option.map_eq_some_iff.1 h
      obtain ⟨e, rfl⟩ := Prod.mk.inj e
      cases e
      exact (toList_text_of_ofChar? hq).symm

/-- A punctuation token is written in one way. -/
theorem toList_text_of_isToken {p : Punct} {t : List Char} (h : Lexer.IsToken (.punct p) t) :
    t = p.text.toList := toList_text_of_scan h

/-! ## Slices put together -/

theorem IsSliceOf.getLast?_shapesOf {ts : List Token} (h : IsSliceOf ts s) :
    (shapesOf s).getLast? = ts.getLast?.map Token.shape := by
  obtain ⟨us, t, rfl, ht⟩ := h.ends
  simp [h.shapesOf_eq, ht]

/-- No word goes on with what follows. -/
def Ends (w : Shape) (k : List Char) : Prop :=
  Follows w.1 w.2.toList k ∧ (w.2 = "." → Breaks k)

/-- The tokens of a slice are found in front of a text that does not prolong the last of them. -/
theorem IsSliceOf.chained_of_ends {ts : List Token} {k : List Char} (h : IsSliceOf ts s)
    (hk : ∀ w ∈ (shapesOf s).getLast?, Ends w k) : Chained ts k := by
  refine h.chained.extend fun t ht ↦ hk t.shape ?_
  rw [h.getLast?_shapesOf, ht]
  rfl

theorem IsSliceOf.ends_of_breaks {ts : List Token} {k : List Char} (h : IsSliceOf ts s)
    (hk : Breaks k) : ∀ w ∈ (shapesOf s).getLast?, Ends w k := by
  intro w hw
  obtain ⟨us, t, rfl, ht⟩ := h.ends
  obtain rfl : t.shape = w := by simpa [h.getLast?_shapesOf] using hw
  exact ⟨follows_of_breaks ht hk, fun _ ↦ hk⟩

/-- The last word of `s` ends where `t` follows. -/
def Joins (s t : String) : Prop :=
  ∀ w ∈ (shapesOf s).getLast?, ∀ k, Ends w (t.toList ++ k)

/-- Two slices that join up are one, with the words of both. -/
theorem IsSlice.append (hs : IsSlice s) (ht : IsSlice t) (h : Joins s t) :
    IsSlice (s ++ t) ∧ shapesOf (s ++ t) = shapesOf s ++ shapesOf t := by
  obtain ⟨ts, hs⟩ := hs
  obtain ⟨us, ht⟩ := ht
  have slice : IsSliceOf (ts ++ us) (s ++ t) := by
    refine ⟨by simp [hs.chars, ht.chars], ?_, ?_, ht.ends.append_left ts⟩
    · rw [Lexer.chained_append, ht.chars]
      exact ⟨hs.chained_of_ends fun w hw ↦ h w hw [], ht.chained⟩
    · obtain ⟨v, vs, rfl, hv, hb⟩ := hs.starts
      exact ⟨v, vs ++ us, rfl, hv, hb⟩
  refine ⟨⟨_, slice⟩, ?_⟩
  rw [slice.shapesOf_eq, hs.shapesOf_eq, ht.shapesOf_eq, List.filter_append, List.map_append]

/-- The text starts with a character that ends every word. -/
def StartsWithBreak (s : String) : Prop := ∃ c ∈ s.toList.head?, c ∈ breakChars

/-- A slice joins with one that starts with a break. -/
theorem Joins.of_break (hs : IsSlice s) (h : StartsWithBreak t) : Joins s t := by
  obtain ⟨ts, hs⟩ := hs
  obtain ⟨c, hc, hb⟩ := h
  intro w hw k
  refine hs.ends_of_breaks (fun d hd ↦ ?_) w hw
  obtain ⟨l, hl⟩ := List.head?_eq_some_iff.1 hc
  obtain rfl : c = d := by simpa [hl] using hd
  exact hb

/-! ## Words by themselves -/

/-- A token by itself is a slice of one word. -/
theorem isSlice_of_isToken {kind : TokenKind} (h : IsToken kind s.toList)
    (hk : kind.isComment = false) : IsSlice s ∧ shapesOf s = [(kind, s)] := by
  have slice : IsSliceOf [⟨kind, "", s⟩] s := by
    exact ⟨by simp, ⟨by simp [Lexer.Skipped], h, follows_of_breaks hk .nil, trivial⟩,
      ⟨_, _, rfl, hk, rfl⟩, ⟨[], _, rfl, hk⟩⟩
  exact ⟨⟨_, slice⟩, by simp [slice.shapesOf_eq, hk, Token.shape]⟩

instance (kind : TokenKind) (cs : List Char) : Decidable (IsToken kind cs) :=
  inferInstanceAs (Decidable (Lexer.scan cs = some (kind, cs, [])))

theorem isToken_punct (p : Punct) : IsToken (.punct p) p.text.toList := by
  cases p <;> decide +kernel

theorem isToken_keyword : ∀ k ∈ Keyword.all, IsToken (.keyword k) k.text.toList := by
  decide +kernel

theorem IsSlice.isToken_of_getLast? (h : IsSlice s) {w : Shape} (hw : w ∈ (shapesOf s).getLast?) :
    IsToken w.1 w.2.toList := by
  obtain ⟨ts, h⟩ := h
  obtain ⟨us, t, rfl, ht⟩ := h.ends
  obtain rfl : t.shape = w := by simpa [h.getLast?_shapesOf] using hw
  exact (Lexer.chained_append.1 h.chained).2.2.1

theorem IsSlice.exists_of_head? (h : IsSlice s) {w : Shape} (hw : w ∈ (shapesOf s).head?) :
    IsToken w.1 w.2.toList ∧ ∃ k, s.toList = w.2.toList ++ k := by
  obtain ⟨ts, h⟩ := h
  obtain ⟨t, us, rfl, ht, hb⟩ := h.starts
  obtain rfl : t.shape = w := by simpa [h.shapesOf_eq, ht] using hw
  exact ⟨h.chained.2.1, charsOf us, by simp [← h.chars, hb, Token.shape]⟩

/-- A slice whose first word is a break starts with a break. -/
theorem startsWithBreak_of_head? (h : IsSlice s) {p : Punct} {w : Shape}
    (hw : w ∈ (shapesOf s).head?) (hp : w.1 = .punct p) (hb : StartsWithBreak p.text) :
    StartsWithBreak s := by
  obtain ⟨token, k, hk⟩ := h.exists_of_head? hw
  rw [hp] at token
  have text : w.2.toList = p.text.toList := toList_text_of_scan token
  obtain ⟨c, hc, hb⟩ := hb
  obtain ⟨l, hl⟩ := List.head?_eq_some_iff.1 hc
  exact ⟨c, by simp [hk, text, hl], hb⟩

/-- A dot ends a name, a mark other than itself and nothing else. -/
theorem Joins.of_dot (hs : IsSlice s) (ht : t.toList.head? = some '.')
    (last : ∀ w ∈ (shapesOf s).getLast?, w.1 ∈ [.ident, .punct .gt, .punct .rbracket]) :
    Joins s t := by
  intro w hw k
  obtain ⟨l, hl⟩ := List.head?_eq_some_iff.1 ht
  have token := hs.isToken_of_getLast? hw
  have kind := last w hw
  refine ⟨?_, fun dot ↦ ?_⟩
  · have part : Lexer.isIdentPart '.' = false := by decide
    simp only [List.mem_cons, List.not_mem_nil, or_false] at kind
    rcases kind with e | e | e <;> simp [Follows, e, hl, part]
  · have := Lexer.isToken_dot_iff.1 (show IsToken w.1 ['.'] by simpa [dot] using token)
    simp [← this] at kind

/-- A dot and a word behind it. -/
theorem isSlice_dot {kind : TokenKind} (h : IsToken kind s.toList) (hk : kind.isComment = false)
    (hs : s.toList.head? ≠ some '.') :
    IsSlice ("." ++ s) ∧ shapesOf ("." ++ s) = [(.punct .dot, "."), (kind, s)] := by
  have follows : Follows (.punct .dot) ['.'] s.toList := by
    rintro ⟨l, hl⟩
    exact hs (by rw [← hl]; rfl)
  have slice : IsSliceOf [⟨.punct .dot, "", "."⟩, ⟨kind, "", s⟩] ("." ++ s) := by
    refine ⟨by simp, ⟨by simp [Lexer.Skipped], by decide +kernel, by simpa using follows, ?_⟩,
      ⟨_, _, rfl, rfl, rfl⟩, ⟨[_], _, rfl, hk⟩⟩
    exact ⟨by simp [Lexer.Skipped], h, follows_of_breaks hk .nil, trivial⟩
  have dot : (TokenKind.punct .dot).isComment = false := rfl
  exact ⟨⟨_, slice⟩, by simp [slice.shapesOf_eq, hk, Token.shape, dot]⟩

end PlatformOverlay.Java
