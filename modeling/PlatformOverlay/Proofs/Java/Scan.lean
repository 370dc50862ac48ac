import Mathlib.Logic.Basic
import PlatformOverlay.Java.Lexer

/-!
# Reading one token

`scan` reads `t` off the front of `t ++ k` just when `t` is a token by itself and `k` does not go on
with it (`scan_append_iff`).  What a token may be followed by is settled by the next two characters
(`Follows.of_append`, `Follows.append`), and a blank or a bracket ends every token but a line
comment (`Breaks.follows`).

The scanner is a chain of cases on what a text starts with, and each is such an equivalence for a
part of it: a span of characters (`spanWhile_append_iff`), a number (`numberTail_append_iff`), the
end of a comment (`closeComment_append_iff`). So later modules read a token off a text, or put one
in front of another, without going through the scanner again. In one direction the equivalence cuts
a text between tokens, and in the other one it puts tokens together.
-/

namespace PlatformOverlay.Java.Lexer

/-- The whole text is one token of the kind. -/
def IsToken (kind : TokenKind) (t : List Char) : Prop := scan t = some (kind, t, [])

/-- Does a token of the kind end where `k` follows? -/
def Follows (kind : TokenKind) (t k : List Char) : Prop :=
  match kind with
  | .lineComment => ∀ c ∈ k.head?, c = '\n'
  | .ident | .keyword _ => ∀ c ∈ k.head?, isIdentPart c = false
  | .number =>
      (∀ c ∈ k.head?, isNumberPart c = false) ∧
        ('.' ∉ t → ∀ d, isDigit d = true → ¬ ['.', d] <+: k)
  | .stringLiteral => t = ['"', '"'] → ∀ c ∈ k.head?, c ≠ '"'
  | .operator => t = ['/'] → ∀ c ∈ k.head?, c ≠ '/' ∧ c ≠ '*'
  | .punct .dot => ¬ ['.', '.'] <+: k
  | _ => True

/-! ## The parts of the scanner -/

/-- The span is the first part exactly if all of it is kept and what follows starts with
something else. -/
theorem spanWhile_append_iff {keep : Char → Bool} {t k : List Char} :
    spanWhile keep (t ++ k) = (t, k) ↔
      (∀ c ∈ t, keep c = true) ∧ ∀ c ∈ k.head?, keep c = false := by
  induction t with
  | nil =>
    cases k with
    | nil => simp [spanWhile]
    | cons c k => cases h : keep c <;> simp [spanWhile, h]
  | cons c t ih =>
    cases h : keep c with
    | false => simp [spanWhile, h]
    | true => simpa [spanWhile, h] using ih

theorem two_le_of_closeComment {cs : List Char} {s : Split} (h : closeComment cs = some s) :
    2 ≤ s.1.length := by
  fun_induction closeComment cs generalizing s with
  | case1 cs => simp [← Option.some.inj h]
  | case2 c cs _ ih =>
    obtain ⟨s, hs, rfl⟩ := Option.map_eq_some_iff.1 h
    have := ih hs
    simp [taking]
    omega
  | case3 => simp at h

theorem map_taking_eq_some {l : List Char} {o : Option Split} {t k : List Char} :
    o.map (taking l) = some (l ++ t, k) ↔ o = some (t, k) := by
  cases o <;> simp [taking, Prod.ext_iff]

/-- A comment is closed within a text or it is not: what follows plays no part. -/
theorem closeComment_append_iff {t k : List Char} :
    closeComment (t ++ k) = some (t, k) ↔ closeComment t = some (t, []) := by
  fun_induction closeComment t with
  | case1 cs => simp [closeComment]
  | case2 c cs hc ih =>
    cases cs with
    | nil =>
      constructor <;> intro h
      · simpa using two_le_of_closeComment h
      · simp [closeComment] at h
    | cons d cs =>
      have open_ :
          ∀ cs', closeComment (c :: d :: cs') = (closeComment (d :: cs')).map (taking [c]) :=
        fun cs' ↦ closeComment.eq_2 c (d :: cs') (by simpa using hc cs)
      rw [List.cons_append, List.cons_append, open_]
      exact (map_taking_eq_some (l := [c])).trans (ih.trans map_taking_eq_some.symm)
  | case3 =>
    constructor <;> intro h
    · simpa using two_le_of_closeComment h
    · simp at h

theorem ne_nil_of_closeQuote {q : Char} {cs : List Char} {s : Split}
    (h : closeQuote q cs = some s) : s.1 ≠ [] := by
  fun_induction closeQuote q cs generalizing s <;> simp_all [taking] <;> grind

theorem closeQuote_append_iff {q : Char} (hq : q ≠ '\\') {t k : List Char} :
    closeQuote q (t ++ k) = some (t, k) ↔ closeQuote q t = some (t, []) := by
  fun_induction closeQuote q t with
  | case1 =>
    constructor <;> intro h
    · exact absurd rfl (ne_nil_of_closeQuote h)
    · simp at h
  | case2 cs => simp [closeQuote]
  | case3 c cs hc ih =>
    rw [List.cons_append, List.cons_append, closeQuote, if_neg hc]
    exact (map_taking_eq_some (l := ['\\', c])).trans (ih.trans map_taking_eq_some.symm)
  | case4 cs =>
    cases cs <;> simp [closeQuote, hq]
  | case5 c cs alone h2 h3 =>
    rcases h3 with rfl | rfl
    · simp [closeQuote, h2]
    · cases cs with
      | cons d cs => exact (alone d cs rfl rfl).elim
      | nil =>
        cases k with
        | nil => simp [closeQuote, h2]
        | cons d k => simp [closeQuote, taking, Prod.ext_iff, Option.map_eq_some_iff]
  | case6 c cs alone h2 h3 ih =>
    rw [List.cons_append, closeQuote.eq_3, if_neg h2, if_neg h3]
    · exact (map_taking_eq_some (l := [c])).trans (ih.trans map_taking_eq_some.symm)
    · rintro d cs' rfl
      simp at h3

theorem three_le_of_closeTextBlock {cs : List Char} {s : Split}
    (h : closeTextBlock cs = some s) : 3 ≤ s.1.length := by
  fun_induction closeTextBlock cs generalizing s with
  | case1 => simp at h
  | case2 c cs ih =>
    obtain ⟨s, hs, rfl⟩ := Option.map_eq_some_iff.1 h
    have := ih hs
    simp [taking]
    omega
  | case3 cs => simp [← Option.some.inj h]
  | case4 c cs _ _ ih =>
    obtain ⟨s, hs, rfl⟩ := Option.map_eq_some_iff.1 h
    have := ih hs
    simp [taking]
    omega

theorem closeTextBlock_append_iff {t k : List Char} :
    closeTextBlock (t ++ k) = some (t, k) ↔ closeTextBlock t = some (t, []) := by
  induction t using closeTextBlock.induct with
  | case1 =>
    constructor <;> intro h
    · simpa using three_le_of_closeTextBlock h
    · simpa using three_le_of_closeTextBlock h
  | case2 c cs ih =>
    rw [List.cons_append, List.cons_append, closeTextBlock, closeTextBlock]
    exact (map_taking_eq_some (l := ['\\', c])).trans (ih.trans map_taking_eq_some.symm)
  | case3 cs => simp [closeTextBlock]
  | case4 c cs h1 h2 ih =>
    -- The quotes that close the block are not begun in `t` and ended in `k`.
    rcases cs with _ | ⟨d, _ | ⟨e, cs⟩⟩
    · constructor <;> intro h
      · simpa using three_le_of_closeTextBlock h
      · simpa using three_le_of_closeTextBlock h
    · constructor <;> intro h
      · simpa using three_le_of_closeTextBlock h
      · simpa using three_le_of_closeTextBlock h
    · have step : ∀ cs', closeTextBlock (c :: d :: e :: cs') =
          (closeTextBlock (d :: e :: cs')).map (taking [c]) := fun cs' ↦
        closeTextBlock.eq_4 c (d :: e :: cs') (by simpa using h1 d (e :: cs))
          (by rintro _ rfl ⟨⟩; exact h2 cs rfl rfl)
      rw [List.cons_append, List.cons_append, List.cons_append, step, step]
      exact (map_taking_eq_some (l := [c])).trans (ih.trans map_taking_eq_some.symm)

theorem numberTail_cons_of_part {c : Char} (h : isNumberPart c = true) (cs : List Char) :
    numberTail (c :: cs) = taking [c] (numberTail cs) := by
  simp [numberTail, taking, h]

theorem numberTail_of_not_part {cs : List Char} (h : ∀ c ∈ cs.head?, isNumberPart c = false) :
    numberTail cs = fraction cs := by
  cases cs with
  | nil => rfl
  | cons c cs => simp [numberTail, taking, h c rfl]

theorem fraction_of_digit {d : Char} (h : isDigit d = true) (cs : List Char) :
    fraction ('.' :: d :: cs) = taking ['.', d] (spanWhile isNumberPart cs) := by
  simp [fraction, h]

theorem fraction_of_not_digit {k : List Char} (h : ∀ d, isDigit d = true → ¬ ['.', d] <+: k) :
    fraction k = ([], k) := by
  unfold fraction
  split
  · rename_i d cs
    have : isDigit d = false := by simpa using fun hd ↦ h d hd (by simp)
    simp [this]
  · rfl

/-- A fraction is a dot and digits, as far as they go. -/
theorem fraction_append_iff {c : Char} {t k : List Char} :
    fraction (c :: t ++ k) = (c :: t, k) ↔
      '.' = c ∧ ∃ d u, t = d :: u ∧ isDigit d = true ∧ (∀ c ∈ u, isNumberPart c = true) ∧
        ∀ c ∈ k.head?, isNumberPart c = false := by
  by_cases h : ∃ d, isDigit d = true ∧ ['.', d] <+: c :: t ++ k
  · obtain ⟨d, hd, cs, e⟩ := h
    cases t with
    | nil =>
      obtain ⟨rfl, rfl⟩ : '.' = c ∧ d :: cs = k := by simpa using e
      simp [fraction_of_digit hd, taking]
    | cons d' u =>
      obtain ⟨rfl, rfl, -⟩ : '.' = c ∧ d = d' ∧ cs = u ++ k := by simpa using e
      have whole : spanWhile isNumberPart (u ++ k) = (u, k) ↔ _ := spanWhile_append_iff
      rw [List.cons_append, List.cons_append, fraction_of_digit hd]
      constructor
      · intro e
        exact ⟨rfl, d, u, rfl, hd, whole.1 (by simpa [taking, Prod.ext_iff] using e)⟩
      · rintro ⟨-, _, _, ⟨⟩, -, hu⟩
        simp [whole.2 hu, taking]
  · rw [fraction_of_not_digit fun d hd hp ↦ h ⟨d, hd, hp⟩]
    constructor
    · simp
    · rintro ⟨rfl, d, u, rfl, hd, -⟩
      exact (h ⟨d, hd, by simp⟩).elim

/-- A number goes on as far as its characters do, and over one dot with a digit behind it. -/
theorem numberTail_append_iff {t k : List Char} :
    numberTail (t ++ k) = (t, k) ↔ numberTail t = (t, []) ∧
      (∀ c ∈ k.head?, isNumberPart c = false) ∧
        ('.' ∉ t → ∀ d, isDigit d = true → ¬ ['.', d] <+: k) := by
  induction t with
  | nil => 
    by_cases hk : ∀ c ∈ k.head?, isNumberPart c = false
    · rw [List.nil_append, numberTail_of_not_part hk]
      constructor
      · intro e
        refine ⟨rfl, hk, ?_⟩
        rintro - d hd ⟨cs, rfl⟩
        simp [fraction_of_digit hd, taking] at e
      · rintro ⟨-, -, h⟩
        exact fraction_of_not_digit (h (by simp))
    · constructor
      · intro e
        cases k with
        | nil => simp at hk
        | cons c k =>
          rw [List.nil_append, numberTail_cons_of_part (by simpa using hk)] at e
          simp [taking] at e
      · exact fun h ↦ absurd h.2.1 hk
  | cons c t ih =>
    cases h : isNumberPart c with
    | true =>
      have hc : c ≠ '.' := by
        rintro rfl
        simp [isNumberPart, isDigit, isLetter] at h
      simp only [Prod.ext_iff] at ih
      simpa [numberTail_cons_of_part h, taking, Prod.ext_iff, hc.symm] using ih
    | false =>
      have whole := fraction_append_iff (c := c) (t := t) (k := [])
      rw [List.append_nil] at whole
      rw [numberTail_of_not_part (by simpa using h), numberTail_of_not_part (by simpa using h),
        fraction_append_iff, whole]
      constructor
      · rintro ⟨rfl, d, u, rfl, hd, hu, hk⟩
        exact ⟨⟨rfl, d, u, rfl, hd, hu, by simp⟩, hk, by simp⟩
      · rintro ⟨⟨rfl, d, u, rfl, hd, hu, -⟩, hk, -⟩
        exact ⟨rfl, d, u, rfl, hd, hu, hk⟩

/-! ## Tokens that their first character decides -/

/-- A word ends where no character of a word follows. -/
theorem follows_wordKind {w t k : List Char} :
    Follows (wordKind w) t k ↔ ∀ c ∈ k.head?, isIdentPart c = false := by
  unfold wordKind
  split <;> rfl

theorem eq_of_ofChar?_dot {c : Char} (h : Punct.ofChar? c = some .dot) : c = '.' := by
  simp only [Punct.ofChar?, ite_eq_iff, Option.some.injEq, reduceCtorEq, and_false, and_true,
    or_false, false_or] at h
  exact h.2.2.2.2.2.2.2.2

/-- For all tokens that are known by their first character: a token is found in front of a text
exactly if it is one by itself and what follows does not prolong it. -/
theorem scanFrom_append_iff {kind : TokenKind} {c : Char} {t k : List Char} (slash : c ≠ '/')
    (dot : c ≠ '.') :
    scanFrom c (t ++ k) = some (kind, c :: t, k) ↔
      scanFrom c t = some (kind, c :: t, []) ∧ Follows kind (c :: t) k := by
  unfold scanFrom
  split
  -- Names and keywords: how far the span goes does not depend on which of the two it is.
  · have name : spanWhile isIdentPart (t ++ k) = (t, k) ↔ _ := spanWhile_append_iff
    have whole : spanWhile isIdentPart (t ++ []) = (t, []) ↔ _ := spanWhile_append_iff
    rw [List.append_nil] at whole
    simp only [taking, Option.some.injEq, Prod.ext_iff, List.singleton_append, List.cons.injEq,
      true_and] at name whole ⊢
    constructor
    · rintro ⟨rfl, h⟩
      have e := whole.2 ⟨(name.1 h).1, by simp⟩
      rw [h.1, e.1]
      exact ⟨⟨rfl, rfl, e.2⟩, follows_wordKind.2 (name.1 h).2⟩
    · rintro ⟨⟨rfl, h⟩, h'⟩
      have e := name.2 ⟨(whole.1 h).1, follows_wordKind.1 h'⟩
      rw [e.1, h.1]
      exact ⟨rfl, rfl, e.2⟩
  split
  · have tail := numberTail_append_iff (t := t) (k := k)
    simp only [taking, Option.some.injEq, Prod.ext_iff, List.singleton_append, List.cons.injEq,
      true_and] at tail ⊢
    constructor
    · rintro ⟨rfl, h⟩
      exact ⟨⟨rfl, (tail.1 h).1⟩, by simpa [Follows, dot.symm] using (tail.1 h).2⟩
    · rintro ⟨⟨rfl, h⟩, h'⟩
      exact ⟨rfl, tail.2 ⟨h, by simpa [Follows, dot.symm] using h'⟩⟩
  split
  · cases t with
    | cons _ _ => simp
    | nil =>
      simp only [List.nil_append, Option.some.injEq, Prod.mk.injEq, and_true]
      constructor
      · rintro rfl
        simp [Follows, slash]
      · exact fun h ↦ h.1
  · cases h : Punct.ofChar? c with
    | none => simp
    | some p =>
      have other : p ≠ .dot := by
        rintro rfl
        exact dot (eq_of_ofChar?_dot h)
      have free : Follows (.punct p) [c] k := by cases p <;> simp_all [Follows]
      cases t with
      | cons _ _ => simp
      | nil =>
        simp only [List.nil_append, Option.map_some, Option.some.injEq, Prod.mk.injEq, and_true]
        constructor
        · rintro rfl
          exact ⟨rfl, free⟩
        · exact fun h ↦ h.1

/-! ## Whole tokens -/

theorem scan_lineComment (cs : List Char) :
    scan ('/' :: '/' :: cs) = some (.lineComment, taking ['/', '/'] (spanWhile (· != '\n') cs)) :=
  rfl

/-- A slash and a star begin a block comment. -/
theorem scan_blockComment (cs : List Char) :
    scan ('/' :: '*' :: cs) =
      (closeComment cs).map fun s ↦ (.blockComment, taking ['/', '*'] s) :=
  rfl

theorem scan_textBlock (cs : List Char) :
    scan ('"' :: '"' :: '"' :: cs) =
      (closeTextBlock cs).map fun s ↦ (.textBlock, taking ['"', '"', '"'] s) :=
  rfl

theorem scan_ellipsis (cs : List Char) :
    scan ('.' :: '.' :: '.' :: cs) = some (.punct .ellipsis, ['.', '.', '.'], cs) :=
  rfl

/-- Without a start of its own, a token is read from its first character. -/
theorem scan_otherwise {c : Char} {cs : List Char} (line : ¬ ['/', '/'] <+: c :: cs)
    (block : ¬ ['/', '*'] <+: c :: cs) (quote : c ≠ '"') (apostrophe : c ≠ '\'')
    (dots : ¬ ['.', '.', '.'] <+: c :: cs) : scan (c :: cs) = scanFrom c cs := by
  refine scan.eq_7 c cs ?_ ?_ (fun _ h ↦ absurd h quote) quote apostrophe ?_
  · rintro r rfl rfl
    exact line ⟨r, rfl⟩
  · rintro r rfl rfl
    exact block ⟨r, rfl⟩
  · rintro r rfl rfl
    exact dots ⟨r, rfl⟩

/-- A text that starts with no slash, dot or quotation mark is scanned by its first character. -/
theorem scan_eq_scanFrom {c : Char} (slash : c ≠ '/') (dot : c ≠ '.') (quote : c ≠ '"')
    (apostrophe : c ≠ '\'') (cs : List Char) : scan (c :: cs) = scanFrom c cs :=
  scan_otherwise (by simp [slash.symm]) (by simp [slash.symm]) quote apostrophe
    (by simp [dot.symm])

/-- A slash that begins no comment is an operator. -/
theorem scan_slash {cs : List Char} (h : ∀ c ∈ cs.head?, c ≠ '/' ∧ c ≠ '*') :
    scan ('/' :: cs) = some (.operator, ['/'], cs) := by
  refine scan_otherwise ?_ ?_ (by decide) (by decide) (by simp)
  · rintro ⟨r, e⟩
    obtain rfl : '/' :: r = cs := by simpa using e
    simp at h
  · rintro ⟨r, e⟩
    obtain rfl : '*' :: r = cs := by simpa using e
    simp at h

/-- A dot that is not one of three is a token. -/
theorem scan_dot {cs : List Char} (h : ¬ ['.', '.'] <+: cs) :
    scan ('.' :: cs) = some (.punct .dot, ['.'], cs) :=
  scan_otherwise (by simp) (by simp) (by decide) (by decide) (by simpa using h)

/-- A quote that is not one of three begins a string literal. -/
theorem scan_quote {cs : List Char} (h : ¬ ['"', '"'] <+: cs) :
    scan ('"' :: cs) = (closeQuote '"' cs).map fun s ↦ (.stringLiteral, taking ['"'] s) :=
  scan.eq_4 cs (by rintro _ rfl; simp at h)

/-- The characterization passes through a mapped scan. -/
theorem map_kind_iff {kind kind' : TokenKind} {l t k : List Char} {o o' : Option Split}
    (h : o = some (t, k) ↔ o' = some (t, [])) (follows : Follows kind' (l ++ t) k) :
    (o.map fun s ↦ (kind', taking l s)) = some (kind, l ++ t, k) ↔
      (o'.map fun s ↦ (kind', taking l s)) = some (kind, l ++ t, []) ∧
        Follows kind (l ++ t) k := by
  have same : ∀ {o : Option Split} {k : List Char},
      (o.map fun s ↦ (kind', taking l s)) = some (kind, l ++ t, k) ↔
        kind' = kind ∧ o = some (t, k) := by
    rintro ⟨⟩ k <;> simp [taking, Prod.ext_iff]
  rw [same, same, h]
  constructor
  · rintro ⟨rfl, h⟩
    exact ⟨⟨rfl, h⟩, follows⟩
  · exact fun h ↦ h.1

theorem isToken_slash_iff {kind : TokenKind} : IsToken kind ['/'] ↔ .operator = kind := by
  simp [IsToken, show scan ['/'] = some (.operator, ['/'], []) from rfl]

theorem isToken_dot_iff {kind : TokenKind} : IsToken kind ['.'] ↔ .punct .dot = kind := by
  simp [IsToken, show scan ['.'] = some (.punct .dot, ['.'], []) from rfl]

/-- The characterization of tokens for texts that start with a slash. -/
theorem scan_append_iff_slash {kind : TokenKind} {t k : List Char} :
    scan ('/' :: t ++ k) = some (kind, '/' :: t, k) ↔
      IsToken kind ('/' :: t) ∧ Follows kind ('/' :: t) k := by
  cases t with
  | nil =>
    rw [isToken_slash_iff, List.singleton_append]
    by_cases h : ∀ c ∈ k.head?, c ≠ '/' ∧ c ≠ '*'
    · simp only [scan_slash h, Option.some.injEq, Prod.mk.injEq, and_true]
      exact ⟨fun e ↦ ⟨e, e ▸ fun _ ↦ h⟩, fun e ↦ e.1⟩
    · constructor
      · intro e
        cases k with
        | nil => simp at h
        | cons c k =>
          have : c = '/' ∨ c = '*' := by grind
          rcases this with rfl | rfl
          · simp [scan_lineComment, taking] at e
          · simp [scan_blockComment, taking] at e
      · rintro ⟨rfl, h'⟩
        exact absurd (h' rfl) h
  | cons c t =>
    by_cases slash : c = '/'
    · subst slash
      have line : spanWhile (· != '\n') (t ++ k) = (t, k) ↔ _ := spanWhile_append_iff
      have whole : spanWhile (· != '\n') (t ++ []) = (t, []) ↔ _ := spanWhile_append_iff
      rw [List.append_nil] at whole
      simp only [IsToken, scan_lineComment, List.cons_append, taking, Option.some.injEq,
        Prod.ext_iff, List.nil_append, List.cons.injEq, true_and] at line whole ⊢
      rw [line, whole]
      constructor
      · rintro ⟨rfl, h, h'⟩
        exact ⟨⟨rfl, h, by simp⟩, by simpa [Follows] using h'⟩
      · rintro ⟨⟨rfl, h, -⟩, h'⟩
        exact ⟨rfl, h, by simpa [Follows] using h'⟩
    by_cases star : c = '*'
    · subst star
      exact map_kind_iff (l := ['/', '*']) closeComment_append_iff trivial
    · have h : ∀ cs, scan ('/' :: c :: cs) = some (.operator, ['/'], c :: cs) :=
        fun cs ↦ scan_slash (by simp [slash, star])
      simp [IsToken, h]

theorem scan_append_iff_dot {kind : TokenKind} {t k : List Char} :
    scan ('.' :: t ++ k) = some (kind, '.' :: t, k) ↔
      IsToken kind ('.' :: t) ∧ Follows kind ('.' :: t) k := by
  match t with
  | [] =>
    rw [isToken_dot_iff, List.singleton_append]
    by_cases h : ['.', '.'] <+: k
    · obtain ⟨k, rfl⟩ := h
      constructor
      · simp [scan_ellipsis]
      · rintro ⟨rfl, h⟩
        exact (h (by simp)).elim
    · simp only [scan_dot h, Option.some.injEq, Prod.mk.injEq, and_true]
      exact ⟨fun e ↦ ⟨e, e ▸ h⟩, fun e ↦ e.1⟩
  | [c] =>
    have whole : ¬ IsToken kind ['.', c] := by
      simp [IsToken, show ¬['.', '.'] <+: [c] → scan ['.', c] = some (.punct .dot, ['.'], [c])
        from scan_dot]
    by_cases h : ['.', '.'] <+: c :: k
    · obtain ⟨k', e⟩ := h
      obtain ⟨rfl, rfl⟩ : '.' = c ∧ '.' :: k' = k := by simpa using e
      simp [scan_ellipsis, whole]
    · simp [scan_dot h, whole]
  | c :: d :: t =>
    by_cases h : ['.', '.'] <+: c :: d :: t
    · obtain ⟨t', e⟩ := h
      obtain ⟨rfl, rfl, rfl⟩ : '.' = c ∧ '.' = d ∧ t' = t := by simpa using e
      cases t' with
      | nil =>
        simp only [IsToken, scan_ellipsis, List.cons_append, List.nil_append, Option.some.injEq,
          Prod.mk.injEq, and_true]
        exact ⟨fun e ↦ ⟨e, e ▸ trivial⟩, fun e ↦ e.1⟩
      | cons _ _ => simp [IsToken, scan_ellipsis]
    · have h' : ¬ ['.', '.'] <+: c :: d :: (t ++ k) := by simpa using h
      simp [IsToken, scan_dot h, scan_dot h']

theorem scan_append_iff_quote {kind : TokenKind} {t k : List Char} :
    scan ('"' :: t ++ k) = some (kind, '"' :: t, k) ↔
      IsToken kind ('"' :: t) ∧ Follows kind ('"' :: t) k := by
  by_cases h : ['"', '"'] <+: t
  · obtain ⟨t, rfl⟩ := h
    exact map_kind_iff (l := ['"', '"', '"']) closeTextBlock_append_iff trivial
  by_cases h' : ['"', '"'] <+: t ++ k
  · -- Only together with `k` are there three quotes.
    constructor
    · intro e
      obtain ⟨cs, hcs⟩ := h'
      rw [List.cons_append, ← hcs] at e
      obtain ⟨s, -, e⟩ := Option.map_eq_some_iff.1 e
      have : ['"', '"', '"'] ++ s.1 = '"' :: t := congrArg (·.2.1) e
      exact (h ⟨s.1, by simpa using this⟩).elim
    · rintro ⟨e, f⟩
      match t with
      | [] => simp [IsToken, scan_quote, closeQuote] at e
      | [c] =>
        obtain ⟨cs, hcs⟩ := h'
        obtain ⟨rfl, rfl⟩ : '"' = c ∧ '"' :: cs = k := by simpa using hcs
        obtain rfl : .stringLiteral = kind := by
          simpa [IsToken, scan_quote, closeQuote, taking] using e
        exact (f rfl '"' rfl rfl).elim
      | c :: d :: t => exact (h (by simpa using h')).elim
  · rw [IsToken, List.cons_append, scan_quote h, scan_quote h']
    refine map_kind_iff (l := ['"']) (closeQuote_append_iff (by decide)) ?_
    rintro e c hc rfl
    cases k with
    | nil => simp at hc
    | cons c k =>
      obtain rfl : c = '"' := by simpa using hc
      obtain rfl : t = ['"'] := by simpa using e
      exact h' (by simp)

/-- A token is found in front of a text exactly if it is one by itself and what follows does not
prolong it. Printing is read back by this. -/
theorem scan_append_iff {kind : TokenKind} {t k : List Char} :
    scan (t ++ k) = some (kind, t, k) ↔ IsToken kind t ∧ Follows kind t k := by
  cases t with
  | nil =>
    constructor
    · exact fun h ↦ absurd rfl (scan_append h).2
    · exact fun h ↦ absurd rfl (scan_append h.1).2
  | cons c t =>
    by_cases slash : c = '/'
    · exact slash ▸ scan_append_iff_slash
    by_cases dot : c = '.'
    · exact dot ▸ scan_append_iff_dot
    by_cases quote : c = '"'
    · exact quote ▸ scan_append_iff_quote
    by_cases apostrophe : c = '\''
    · subst apostrophe
      exact map_kind_iff (l := ['\'']) (closeQuote_append_iff (by decide)) trivial
    · rw [IsToken, List.cons_append, scan_eq_scanFrom slash dot quote apostrophe,
        scan_eq_scanFrom slash dot quote apostrophe, scanFrom_append_iff slash dot]

theorem isSkipped_eq_false_of_isToken {kind : TokenKind} {t : List Char}
    (h : IsToken kind t) : ∀ c ∈ t.head?, isSkipped c = false := by
  intro c hc
  obtain ⟨t, rfl⟩ : ∃ t', t = c :: t' := by
    cases t with
    | nil => simp at hc
    | cons d t => exact ⟨t, by simpa using hc⟩
  refine Bool.eq_false_iff.2 fun skipped ↦ ?_
  have : c = ' ' ∨ c = '\t' ∨ c = '\r' ∨ c = '\n' ∨ c = '\x0c' := by
    simpa [isSkipped, or_assoc] using skipped
  have none : scanFrom c t = none := by
    rcases this with rfl | rfl | rfl | rfl | rfl <;> rfl
  rw [IsToken, scan_eq_scanFrom (by grind) (by grind) (by grind) (by grind), none] at h
  simp at h

/-- A token that is spelled like a name is one by what the word is. -/
theorem wordKind_of_isToken {kind : TokenKind} {t : List Char} (h : IsToken kind t)
    (word : kind = .ident ∨ ∃ k, kind = .keyword k) :
    t.all isIdentPart = true ∧ wordKind t = kind := by
  rw [IsToken] at h
  unfold scan at h
  split at h
  case h_7 c cs _ _ _ _ _ _ =>
    unfold scanFrom at h
    split at h
    next start =>
      obtain ⟨hkind, e⟩ := Prod.mk.inj (Option.some.inj h)
      have whole : c :: cs.takeWhile isIdentPart = c :: cs := (Prod.mk.inj e).1
      refine ⟨?_, ?_⟩
      · rw [← whole, List.all_cons, List.all_takeWhile, isIdentPart, start]
        rfl
      · rw [← hkind, ← whole]
        rfl
    · split at h
      · obtain rfl | ⟨k, rfl⟩ := word <;> cases h
      · split at h
        · obtain rfl | ⟨k, rfl⟩ := word <;> cases h
        · obtain ⟨p, -, e⟩ := Option.map_eq_some_iff.1 h
          obtain rfl | ⟨k, rfl⟩ := word <;> cases e
  all_goals obtain rfl | ⟨k, rfl⟩ := word <;> simp at h

/-- An identifier has characters of identifiers only. -/
theorem isIdentPart_of_isToken {t : List Char} (h : IsToken .ident t) : t.all isIdentPart = true :=
  (wordKind_of_isToken h (.inl rfl)).1

/-- A keyword is spelled as it is. -/
theorem toList_text_of_keyword {k : Keyword} {t : List Char} (h : IsToken (.keyword k) t) :
    t = k.text.toList := by
  have kind := (wordKind_of_isToken h (.inr ⟨k, rfl⟩)).2
  rw [wordKind] at kind
  split at kind
  next k' found =>
    obtain rfl := TokenKind.keyword.inj kind
    have text := List.find?_some found
    rw [decide_eq_true_eq] at text
    rw [text, String.toList_ofList]
  · cases kind

/-! ## What may follow a token -/

/-- Blanks and marks with which no token goes on. -/
def breakChars : List Char :=
  [' ', '\t', '\r', '\n', '\x0c', ';', ',', '(', ')', '<', '>', '\x7b', '\x7d', '[', ']', '@']

def Breaks (k : List Char) : Prop := ∀ c ∈ k.head?, c ∈ breakChars

theorem Breaks.nil : Breaks [] := by simp [Breaks]

/-- What is true of no break character is false of each. -/
theorem eq_false_of_mem_breakChars {p : Char → Bool} (h : breakChars.any p = false) {c : Char}
    (hc : c ∈ breakChars) : p c = false :=
  Bool.eq_false_iff.2 (List.any_eq_false.1 h c hc)

theorem not_mem_breakChars_of_isDigit {d : Char} (h : isDigit d = true) : d ∉ breakChars := by
  intro hd
  rw [eq_false_of_mem_breakChars (by decide : breakChars.any isDigit = false) hd] at h
  cases h

/-- Only the next two characters count, and the second one only behind a dot. -/
theorem Follows.mono {kind : TokenKind} {t k k' : List Char} (h : Follows kind t k)
    (head : ∀ c ∈ k'.head?, c ∈ k.head?)
    (pre : ∀ d, d ∉ breakChars → ['.', d] <+: k' → ['.', d] <+: k) : Follows kind t k' := by
  unfold Follows at h ⊢
  split
  · exact fun c hc ↦ h c (head c hc)
  · exact fun c hc ↦ h c (head c hc)
  · exact fun c hc ↦ h c (head c hc)
  · exact ⟨fun c hc ↦ h.1 c (head c hc), fun point d hd hp ↦
      h.2 point d hd (pre d (not_mem_breakChars_of_isDigit hd) hp)⟩
  · exact fun e c hc ↦ h e c (head c hc)
  · exact fun e c hc ↦ h e c (head c hc)
  · exact fun hp ↦ h (pre '.' (by decide) hp)
  · trivial

/-- What a token is followed by can be cut off behind. -/
theorem Follows.of_append {kind : TokenKind} {t k k' : List Char}
    (h : Follows kind t (k ++ k')) : Follows kind t k :=
  h.mono (by cases k <;> simp) fun _ _ hp ↦ hp.trans (List.prefix_append k k')

/-- More can be added behind it, unless the two together prolong the token: a dot and a digit
after a number. -/
theorem Follows.append {kind : TokenKind} {t k k' : List Char} (h : Follows kind t k)
    (ne : k ≠ []) (dot : k = ['.'] → Breaks k') : Follows kind t (k ++ k') := by
  refine h.mono (by cases k <;> simp_all) ?_
  rintro d hd ⟨l, hl⟩
  match k with
  | [c] =>
    obtain ⟨rfl, rfl⟩ : '.' = c ∧ d :: l = k' := by simpa using hl
    exact (hd (dot rfl d rfl)).elim
  | c :: c' :: k =>
    obtain ⟨rfl, rfl, -⟩ : '.' = c ∧ d = c' ∧ l = k ++ k' := by simpa using hl
    simp

/-- A break ends every token but a line comment. -/
theorem Breaks.follows {kind : TokenKind} {t k : List Char} (h : Breaks k)
    (line : kind ≠ .lineComment) : Follows kind t k := by
  have part : ∀ c ∈ breakChars, isIdentPart c = false :=
    fun _ ↦ eq_false_of_mem_breakChars (by decide)
  have digit : ∀ c ∈ breakChars, isNumberPart c = false :=
    fun _ ↦ eq_false_of_mem_breakChars (by decide)
  have other : ∀ c ∈ breakChars, c ≠ '"' ∧ c ≠ '/' ∧ c ≠ '*' ∧ c ≠ '.' := by simp [breakChars]
  have dot : ∀ d, ¬ ['.', d] <+: k := by
    rintro d ⟨l, rfl⟩
    exact (other '.' (h '.' rfl)).2.2.2 rfl
  unfold Follows
  split
  · exact absurd rfl line
  · exact fun c hc ↦ part c (h c hc)
  · exact fun c hc ↦ part c (h c hc)
  · exact ⟨fun c hc ↦ digit c (h c hc), fun _ d _ ↦ dot d⟩
  · exact fun _ c hc ↦ (other c (h c hc)).1
  · exact fun _ c hc ↦ ⟨(other c (h c hc)).2.1, (other c (h c hc)).2.2.1⟩
  · exact dot '.'
  · trivial

end PlatformOverlay.Java.Lexer
