import Mathlib.Data.List.Forall2
import PlatformOverlay.Java.Reindent
import PlatformOverlay.Proofs.Java.Words

/-!
# Re-indented text reads as before

Re-indenting a text changes the blanks at the start of its lines and drops carriage returns at their
ends (`Respaced`).  Only comments and text blocks contain line ends, so the text reads as the same
tokens but for what is inside those (`Respaced.exists_tokens`).  To re-indent it once more, from
where it was moved to, changes nothing (`reindent_reindent`).

`Respaced` forgets by how much lines are moved, which no token depends on. Its constructors are the
places where two texts may differ, so that an induction on it goes along both texts at once, and
`Carries` says of one part of the scanner that it gets as far in the one as in the other. How far
that is: a token within a line is there again (`scan_cases`), and the two that may go on to further
lines end at marks that are no indentation (`carries_closeComment`, `carries_closeTextBlock`).
-/

namespace PlatformOverlay.Java

open Lexer

/-- The second text is the first with other indentation, and without some of the carriage
returns at the ends of lines. -/
inductive Respaced : List Char → List Char → Prop
  | nil : Respaced [] []
  | keep (c : Char) {cs cs' : List Char} : Respaced cs cs' → Respaced (c :: cs) (c :: cs')
  | drop {cs cs' : List Char} : (∀ c ∈ cs'.head?, c = '\n') → Respaced cs cs' →
      Respaced ('\r' :: cs) cs'
  | line {a a' cs cs' : List Char} : (∀ c ∈ a, isIndent c = true) →
      (∀ c ∈ a', isIndent c = true) → Respaced cs cs' →
        Respaced ('\n' :: (a ++ cs)) ('\n' :: (a' ++ cs'))

namespace Respaced

variable {cs cs' t left : List Char} {c : Char}

/-- A character that is no line end is there in both texts. -/
theorem cons_inv (h : Respaced (c :: cs) cs') (hr : c ≠ '\r') (hn : c ≠ '\n') :
    ∃ cs'', cs' = c :: cs'' ∧ Respaced cs cs'' := by
  cases h with
  | keep _ h => exact ⟨_, rfl, h⟩
  | drop => exact (hr rfl).elim
  | line => exact (hn rfl).elim

theorem of_cons (h : Respaced cs (c :: cs')) (hn : c ≠ '\n') :
    ∃ cs'', cs = c :: cs'' ∧ Respaced cs'' cs' := by
  cases h with
  | keep _ h => exact ⟨_, rfl, h⟩
  | drop hc => exact (hn (hc c rfl)).elim
  | line => exact (hn rfl).elim

/-- Within a line nothing changes but its end. -/
theorem append_inv (h : Respaced (t ++ left) cs') (hn : '\n' ∉ t) :
    ∃ t' r left', t = t' ++ r ∧ (∀ c ∈ r, c = '\r') ∧ cs' = t' ++ left' ∧
      Respaced left left' ∧ (r ≠ [] → ∀ c ∈ left'.head?, c = '\n') := by
  induction t generalizing cs' with
  | nil => exact ⟨[], [], cs', rfl, by simp, rfl, h, by simp⟩
  | cons c t ih =>
    have hnt : '\n' ∉ t := fun ht ↦ hn (List.mem_cons_of_mem _ ht)
    generalize e : c :: t ++ left = l at h
    cases h with
    | nil => simp at e
    | keep d h =>
      obtain ⟨rfl, rfl⟩ := List.cons.inj e
      obtain ⟨t', r, left', rfl, hr, rfl, hl, hh⟩ := ih h hnt
      exact ⟨c :: t', r, left', rfl, hr, rfl, hl, hh⟩
    | drop hc h =>
      obtain ⟨rfl, rfl⟩ := List.cons.inj e
      obtain ⟨t', r, left', rfl, hr, rfl, hl, hh⟩ := ih h hnt
      cases t' with
      | nil => exact ⟨[], '\r' :: r, left', rfl, by simpa using hr, rfl, hl, fun _ ↦ hc⟩
      | cons d t' => exact (hnt (by simp [hc d rfl])).elim
    | line _ _ h => exact (hn (by simp [(List.cons.inj e).1])).elim

theorem append_inv_of_plain (h : Respaced (t ++ left) cs') (hn : '\n' ∉ t)
    (hr : t.getLast? ≠ some '\r') :
    ∃ left', cs' = t ++ left' ∧ Respaced left left' := by
  obtain ⟨t', r, left', rfl, hall, rfl, hl, -⟩ := h.append_inv hn
  rcases List.eq_nil_or_concat r with rfl | ⟨r, c, rfl⟩
  · exact ⟨left', by simp, hl⟩
  · rw [List.concat_eq_append] at hr hall
    rw [← List.append_assoc, List.getLast?_append] at hr
    exact (hr (by simp [hall c (by simp)])).elim

theorem of_append_nil (h : Respaced [] cs') : cs' = [] := by
  cases h
  rfl

/-- What ends a token still does, a line comment aside. -/
theorem follows {kind : TokenKind} {k k' : List Char} (h : Respaced k k')
    (hf : Follows kind t k) (other : kind ≠ .lineComment) : Follows kind t k' := by
  by_cases hk : k'.head? = some '\n'
  · refine Breaks.follows (fun c hc ↦ ?_) other
    obtain rfl := Option.some.inj (hk.symm.trans hc)
    decide
  · refine hf.mono (fun c hc ↦ ?_) ?_
    · obtain ⟨l, rfl⟩ := List.head?_eq_some_iff.1 hc
      obtain ⟨_, rfl, -⟩ := h.of_cons fun e ↦ hk (e ▸ hc)
      rfl
    · rintro d hd ⟨l, rfl⟩
      obtain ⟨_, rfl, h'⟩ := h.of_cons (by decide)
      obtain ⟨_, rfl, -⟩ := h'.of_cons fun e ↦ hd (e ▸ by decide)
      simp

/-! ## Tokens that span lines -/

/-- A comment goes on through text without a star. -/
theorem closeComment_append_of_plain {p : List Char} (hp : '*' ∉ p) :
    closeComment (p ++ cs) = (closeComment cs).map (taking p) := by
  induction p with
  | nil => cases h : closeComment cs <;> simp [h, taking]
  | cons c p ih =>
    rw [List.cons_append, closeComment, ih (by simp_all)]
    · cases closeComment cs <;> simp [taking]
    · rintro _ rfl
      simp at hp

/-- Where the first scan succeeds, so does the second, and leaves the re-indented rest. -/
def Carries (o o' : Option Split) : Prop := ∀ s ∈ o, ∃ s' ∈ o', Respaced s.2 s'.2

theorem Carries.map_taking {o o' : Option Split} (h : Carries o o') (p p' : List Char) :
    Carries (o.map (taking p)) (o'.map (taking p')) := by
  intro s hs
  obtain ⟨r, hr, rfl⟩ := Option.map_eq_some_iff.1 hs
  obtain ⟨r', hr', h⟩ := h r hr
  exact ⟨taking p' r', by simp [Option.mem_def.1 hr'], h⟩

theorem carries_some {p p' l l' : List Char} (h : Respaced l l') :
    Carries (some (p, l)) (some (p', l')) := by
  rintro _ ⟨⟩
  exact ⟨_, rfl, h⟩

theorem not_mem_indent {a : List Char} {c : Char} (ha : ∀ c ∈ a, isIndent c = true)
    (hc : isIndent c = false) (hn : c ≠ '\n') : c ∉ '\n' :: a := by
  intro hm
  rcases List.mem_cons.1 hm with rfl | hm
  · exact hn rfl
  · simp [ha c hm] at hc

/-- Re-indentation keeps where a comment ends: stars and slashes are no indentation. -/
theorem carries_closeComment (h : Respaced cs cs') :
    Carries (closeComment cs) (closeComment cs') := by
  induction h with
  | nil => simp [Carries, closeComment]
  | @keep c cs cs' h ih =>
    by_cases closes : ∃ l, c = '*' ∧ cs = '/' :: l
    · obtain ⟨l, rfl, rfl⟩ := closes
      obtain ⟨l', rfl, hl⟩ := h.cons_inv (by decide) (by decide)
      exact carries_some hl
    · rw [closeComment.eq_2 c cs fun l hc hl ↦ closes ⟨l, hc, hl⟩, closeComment.eq_2 c cs']
      · exact ih.map_taking _ _
      · rintro l rfl rfl
        obtain ⟨l', rfl, -⟩ := h.of_cons (by decide)
        exact closes ⟨l', rfl, rfl⟩
  | @drop cs cs' hc h ih =>
    intro s hs
    rw [closeComment.eq_2 _ _ (by simp)] at hs
    obtain ⟨r, hr, rfl⟩ := Option.map_eq_some_iff.1 hs
    exact ih r hr
  | @line a a' cs cs' ha ha' h ih =>
    rw [← List.cons_append, ← List.cons_append,
      closeComment_append_of_plain (not_mem_indent ha rfl (by decide)),
      closeComment_append_of_plain (not_mem_indent ha' rfl (by decide))]
    exact ih.map_taking _ _

/-- The part of a text block behind a backslash. -/
def closeEscaped : List Char → Option Split
  | [] => none
  | c :: cs => (closeTextBlock cs).map (taking [c])

theorem closeTextBlock_backslash :
    closeTextBlock ('\\' :: cs) = (closeEscaped cs).map (taking ['\\']) := by
  cases cs with
  | nil => rfl
  | cons c cs =>
    rw [closeTextBlock, closeEscaped]
    cases closeTextBlock cs <;> simp [taking]

/-- A text block goes on through text without quotes and backslashes. -/
theorem closeTextBlock_append_of_plain {p : List Char} (hp : '\\' ∉ p) (hq : '"' ∉ p) :
    closeTextBlock (p ++ cs) = (closeTextBlock cs).map (taking p) := by
  induction p with
  | nil => cases h : closeTextBlock cs <;> simp [h, taking]
  | cons c p ih =>
    rw [List.cons_append, closeTextBlock.eq_4, ih (by simp_all) (by simp_all)]
    · cases closeTextBlock cs <;> simp [taking]
    · rintro _ _ rfl
      simp at hp
    · rintro _ rfl
      simp at hq

/-- Re-indentation keeps where a text block ends. A backslash at the end of a line is why the
part behind one is a case of its own. -/
theorem carries_closeTextBlock (h : Respaced cs cs') :
    Carries (closeTextBlock cs) (closeTextBlock cs') ∧
      Carries (closeEscaped cs) (closeEscaped cs') := by
  induction h with
  | nil => simp [Carries, closeTextBlock, closeEscaped]
  | @keep c cs cs' h ih =>
    refine ⟨?_, ih.1.map_taking _ _⟩
    by_cases esc : c = '\\'
    · rw [esc, closeTextBlock_backslash, closeTextBlock_backslash]
      exact ih.2.map_taking _ _
    by_cases closes : ∃ l, c = '"' ∧ cs = '"' :: '"' :: l
    · obtain ⟨l, rfl, rfl⟩ := closes
      obtain ⟨_, rfl, h'⟩ := h.cons_inv (by decide) (by decide)
      obtain ⟨_, rfl, hl⟩ := h'.cons_inv (by decide) (by decide)
      exact carries_some hl
    · rw [closeTextBlock.eq_4 c cs (fun _ _ e ↦ absurd e esc) fun l hc hl ↦ closes ⟨l, hc, hl⟩,
        closeTextBlock.eq_4 c cs' fun _ _ e ↦ absurd e esc]
      · exact ih.1.map_taking _ _
      · rintro l rfl rfl
        obtain ⟨_, rfl, h'⟩ := h.of_cons (by decide)
        obtain ⟨l', rfl, -⟩ := h'.of_cons (by decide)
        exact closes ⟨l', rfl, rfl⟩
  -- Behind a backslash the dropped return would have been the escaped character. The line feed that
  -- follows takes its place.
  | @drop cs cs' hc h ih =>
    constructor
    · intro s hs
      rw [closeTextBlock.eq_4 _ _ (by simp) (by simp)] at hs
      obtain ⟨r, hr, rfl⟩ := Option.map_eq_some_iff.1 hs
      exact ih.1 r hr
    · intro s hs
      obtain ⟨r, hr, rfl⟩ := Option.map_eq_some_iff.1 hs
      obtain ⟨r', hr', h'⟩ := ih.1 r hr
      cases cs' with
      | nil => simp [closeTextBlock] at hr'
      | cons c cs' =>
        obtain rfl := hc c rfl
        rw [closeTextBlock.eq_4 _ _ (by simp) (by simp)] at hr'
        obtain ⟨r'', hr'', rfl⟩ := Option.map_eq_some_iff.1 hr'
        exact ⟨taking ['\n'] r'', by simp [closeEscaped, hr''], h'⟩
  | @line a a' cs cs' ha ha' h ih =>
    have step : ∀ {a : List Char} cs, (∀ c ∈ a, isIndent c = true) →
        closeTextBlock (a ++ cs) = (closeTextBlock cs).map (taking a) := fun cs ha ↦
      closeTextBlock_append_of_plain
        (fun hm ↦ not_mem_indent ha rfl (by decide) (List.mem_cons_of_mem _ hm))
        (fun hm ↦ not_mem_indent ha rfl (by decide) (List.mem_cons_of_mem _ hm))
    have behind := ih.1.map_taking a a'
    rw [← step cs ha, ← step cs' ha'] at behind
    refine ⟨?_, behind.map_taking _ _⟩
    rw [closeTextBlock.eq_4 _ _ (by simp) (by simp), closeTextBlock.eq_4 _ _ (by simp) (by simp)]
    exact behind.map_taking _ _

end Respaced

/-! ## Tokens within a line -/

namespace Lexer

/-- No line ends within the text or could end right behind it. -/
def InLine (t : List Char) : Prop := '\n' ∉ t ∧ t.getLast? ≠ some '\r'

/-- A text of characters that are no line ends lies within a line. -/
theorem inLine_of_forall {t : List Char} {p : Char → Bool} (h : ∀ c ∈ t, p c = true)
    (hn : p '\n' = false) (hr : p '\r' = false) : InLine t := by
  constructor
  · intro hm
    simp [h _ hm] at hn
  · intro hl
    simp [h _ (List.mem_of_getLast? hl)] at hr

theorem InLine.cons {t : List Char} {c : Char} (h : InLine t) (ne : t ≠ []) (hn : c ≠ '\n') :
    InLine (c :: t) := by
  obtain ⟨d, t, rfl⟩ := List.exists_cons_of_ne_nil ne
  exact ⟨by simpa [hn.symm] using h.1, by simpa using h.2⟩

/-- A literal in quotes lies within a line, since a line end does not stand in one. -/
theorem inLine_closeQuote {q : Char} {cs : List Char} {s : Split} (hn : q ≠ '\n') (hr : q ≠ '\r')
    (h : closeQuote q cs = some s) : InLine s.1 := by
  fun_induction closeQuote q cs generalizing s with
  | case1 => simp at h
  | case2 => simp at h
  | case3 c cs hc ih =>
    obtain ⟨r, hr, rfl⟩ := Option.map_eq_some_iff.1 h
    have ne := ne_nil_of_closeQuote hr
    exact ((ih hr).cons ne hc).cons (by simp) (by decide)
  | case4 cs =>
    obtain rfl := Option.some.inj h
    exact ⟨by simpa using hn.symm, by simpa using hr⟩
  | case5 => simp at h
  | case6 c cs _ hq hc ih =>
    obtain ⟨r, hr, rfl⟩ := Option.map_eq_some_iff.1 h
    exact (ih hr).cons (ne_nil_of_closeQuote hr) fun e ↦ hc (.inl e)

theorem mem_numberTail {c : Char} {cs : List Char} (h : c ∈ (numberTail cs).1) :
    isNumberPart c = true ∨ c = '.' := by
  rcases List.mem_append.1 h with h | h
  · exact .inl (List.all_eq_true.1 List.all_takeWhile c h)
  · unfold fraction at h
    split at h
    · split at h
      · rename_i hd
        rcases List.mem_append.1 h with h | h
        · rcases List.mem_cons.1 h with rfl | h
          · exact .inr rfl
          · obtain rfl := List.mem_singleton.1 h
            exact .inl (by simp [isNumberPart, hd])
        · exact .inl (List.all_eq_true.1 List.all_takeWhile c h)
      · simp at h
    · simp at h

/-- Words, numbers and operators lie within a line. -/
theorem inLine_of_scanFrom {kind : TokenKind} {c : Char} {cs : List Char} {s : Split}
    (h : scanFrom c cs = some (kind, s)) : InLine s.1 := by
  unfold scanFrom at h
  split at h
  · rename_i hc
    obtain ⟨-, rfl⟩ := Prod.mk.inj (Option.some.inj h)
    refine inLine_of_forall (p := isIdentPart) (fun d hd ↦ ?_) rfl rfl
    rcases List.mem_cons.1 hd with rfl | hd
    · simp [isIdentPart, hc]
    · exact List.all_eq_true.1 List.all_takeWhile d hd
  split at h
  · rename_i hc
    obtain ⟨-, rfl⟩ := Prod.mk.inj (Option.some.inj h)
    refine inLine_of_forall (p := fun c ↦ isNumberPart c || c == '.') (fun d hd ↦ ?_) rfl rfl
    rcases List.mem_cons.1 hd with rfl | hd
    · simp [isNumberPart, hc]
    · simpa using mem_numberTail hd
  split at h
  · rename_i hc
    obtain ⟨-, rfl⟩ := Prod.mk.inj (Option.some.inj h)
    exact inLine_of_forall (p := isOperator) (by simpa using hc) rfl rfl
  · obtain ⟨p, hp, e⟩ := Option.map_eq_some_iff.1 h
    obtain ⟨-, rfl⟩ := Prod.mk.inj e
    exact inLine_of_forall (p := fun c ↦ (Punct.ofChar? c).isSome) (by simp [hp]) rfl rfl

/-- A token of the kind lies within a line. -/
def IsPlain (kind : TokenKind) : Prop := kind.isComment = false ∧ kind ≠ .textBlock

theorem isPlain_of_scanFrom {kind : TokenKind} {c : Char} {cs : List Char} {s : Split}
    (h : scanFrom c cs = some (kind, s)) : IsPlain kind := by
  unfold scanFrom at h
  split at h
  · obtain ⟨rfl, -⟩ := Prod.mk.inj (Option.some.inj h)
    unfold wordKind
    split <;> exact ⟨rfl, by simp⟩
  split at h
  · obtain ⟨rfl, -⟩ := Prod.mk.inj (Option.some.inj h)
    exact ⟨rfl, by simp⟩
  split at h
  · obtain ⟨rfl, -⟩ := Prod.mk.inj (Option.some.inj h)
    exact ⟨rfl, by simp⟩
  · obtain ⟨p, hp, e⟩ := Option.map_eq_some_iff.1 h
    obtain ⟨rfl, -⟩ := Prod.mk.inj e
    exact ⟨rfl, by simp⟩

/-- A token lies within a line or is a comment or a text block. -/
theorem scan_cases {kind : TokenKind} {cs : List Char} {s : Split}
    (h : scan cs = some (kind, s)) :
    (IsPlain kind ∧ InLine s.1) ∨
      (∃ l, cs = '/' :: '/' :: l ∧ kind = .lineComment ∧
        s = taking ['/', '/'] (spanWhile (· != '\n') l)) ∨
      (∃ l r, cs = '/' :: '*' :: l ∧ kind = .blockComment ∧ closeComment l = some r ∧
        s = taking ['/', '*'] r) ∨
      ∃ l r, cs = '"' :: '"' :: '"' :: l ∧ kind = .textBlock ∧ closeTextBlock l = some r ∧
        s = taking ['"', '"', '"'] r := by
  unfold scan at h
  split at h
  · obtain ⟨rfl, rfl⟩ := Prod.mk.inj (Option.some.inj h)
    exact .inr (.inl ⟨_, rfl, rfl, rfl⟩)
  · obtain ⟨r, hr, e⟩ := Option.map_eq_some_iff.1 h
    obtain ⟨rfl, rfl⟩ := Prod.mk.inj e
    exact .inr (.inr (.inl ⟨_, r, rfl, rfl, hr, rfl⟩))
  · obtain ⟨r, hr, e⟩ := Option.map_eq_some_iff.1 h
    obtain ⟨rfl, rfl⟩ := Prod.mk.inj e
    exact .inr (.inr (.inr ⟨_, r, rfl, rfl, hr, rfl⟩))
  · obtain ⟨r, hr, e⟩ := Option.map_eq_some_iff.1 h
    obtain ⟨rfl, rfl⟩ := Prod.mk.inj e
    exact .inl ⟨⟨rfl, by simp⟩,
      (inLine_closeQuote (by decide) (by decide) hr).cons (ne_nil_of_closeQuote hr) (by decide)⟩
  · obtain ⟨r, hr, e⟩ := Option.map_eq_some_iff.1 h
    obtain ⟨rfl, rfl⟩ := Prod.mk.inj e
    exact .inl ⟨⟨rfl, by simp⟩,
      (inLine_closeQuote (by decide) (by decide) hr).cons (ne_nil_of_closeQuote hr) (by decide)⟩
  · obtain ⟨rfl, rfl⟩ := Prod.mk.inj (Option.some.inj h)
    exact .inl ⟨⟨rfl, by simp⟩, inLine_of_forall (p := (· == '.')) (by simp) rfl rfl⟩
  · exact .inl ⟨isPlain_of_scanFrom h, inLine_of_scanFrom h⟩
  · simp at h

end Lexer

/-! ## Texts -/

namespace Respaced

variable {cs cs' t left : List Char} {kind : TokenKind}

theorem head_lineFeed (h : Respaced cs cs') (hc : ∀ c ∈ cs.head?, c = '\n') :
    ∀ c ∈ cs'.head?, c = '\n' := by
  cases h with
  | nil => exact hc
  | keep => exact hc
  | drop => simp at hc
  | line => simp

/-- What is left of a line is re-indented as such. -/
theorem exists_spanLine (h : Respaced cs cs') :
    ∃ u left', spanWhile (· != '\n') cs' = (u, left') ∧
      Respaced (spanWhile (· != '\n') cs).2 left' := by
  obtain ⟨t, k, e⟩ : ∃ t k, spanWhile (· != '\n') cs = (t, k) := ⟨_, _, rfl⟩
  obtain rfl : t ++ k = cs := by simpa [e] using spanWhile_append (· != '\n') cs
  obtain ⟨inside, behind⟩ := spanWhile_append_iff.1 e
  obtain ⟨u, r, left', rfl, -, rfl, hk, hr⟩ := h.append_inv fun hm ↦ by simpa using inside _ hm
  refine ⟨u, left', spanWhile_append_iff.2 ⟨fun c hc ↦ inside c (by simp [hc]), ?_⟩, by rwa [e]⟩
  intro c hc
  by_cases ne : r = []
  · simp [hk.head_lineFeed (by simpa using behind) c hc]
  · simp [hr ne c hc]

/-- A token that lies within a line is there again, and so is one of another kind that has
changed itself. -/
theorem exists_scan (h : Respaced cs cs') (hs : scan cs = some (kind, t, left)) :
    ∃ t' left', scan cs' = some (kind, t', left') ∧ Respaced left left' ∧
      (IsPlain kind → t' = t) := by
  obtain ⟨rfl, -⟩ : t ++ left = cs ∧ _ := scan_append hs
  obtain ⟨plain, inLine⟩ | ⟨l, e, rfl, e'⟩ | ⟨l, r, e, rfl, hr, e'⟩ | ⟨l, r, e, rfl, hr, e'⟩ :=
    scan_cases hs
  · obtain ⟨ht, hf⟩ := scan_append_iff.1 hs
    obtain ⟨left', rfl, hl⟩ := h.append_inv_of_plain inLine.1 inLine.2
    refine ⟨t, left', scan_append_iff.2 ⟨ht, hl.follows hf ?_⟩, hl, fun _ ↦ rfl⟩
    rintro rfl
    simp [IsPlain, TokenKind.isComment] at plain
  · rw [e] at h
    obtain ⟨_, rfl, h'⟩ := h.cons_inv (by decide) (by decide)
    obtain ⟨l', rfl, hl⟩ := h'.cons_inv (by decide) (by decide)
    obtain ⟨rfl, rfl⟩ := Prod.mk.inj e'
    obtain ⟨u, left', line, hleft⟩ := hl.exists_spanLine
    exact ⟨_, left', by rw [scan_lineComment, line]; rfl, hleft, fun p ↦ absurd p.1 (by decide)⟩
  · rw [e] at h
    obtain ⟨_, rfl, h'⟩ := h.cons_inv (by decide) (by decide)
    obtain ⟨l', rfl, hl⟩ := h'.cons_inv (by decide) (by decide)
    obtain ⟨r', hr', hleft⟩ := carries_closeComment hl r hr
    obtain ⟨-, rfl⟩ := Prod.mk.inj e'
    exact ⟨_, _, by rw [scan_blockComment, hr']; rfl, hleft, fun p ↦ absurd p.1 (by decide)⟩
  · rw [e] at h
    obtain ⟨_, rfl, h'⟩ := h.cons_inv (by decide) (by decide)
    obtain ⟨_, rfl, h''⟩ := h'.cons_inv (by decide) (by decide)
    obtain ⟨l', rfl, hl⟩ := h''.cons_inv (by decide) (by decide)
    obtain ⟨r', hr', hleft⟩ := (carries_closeTextBlock hl).1 r hr
    obtain ⟨-, rfl⟩ := Prod.mk.inj e'
    exact ⟨_, _, by rw [scan_textBlock, hr']; rfl, hleft, fun p ↦ absurd rfl p.2⟩

theorem isSkipped_of_isIndent {c : Char} (h : isIndent c = true) : isSkipped c = true := by
  rcases Bool.or_eq_true_iff.1 h with h | h <;> simp [isSkipped, h]

/-- Blanks can be dropped in front of both texts. -/
theorem dropWhile_isSkipped (h : Respaced cs cs') :
    Respaced (cs.dropWhile isSkipped) (cs'.dropWhile isSkipped) := by
  induction h with
  | nil => exact .nil
  | keep c h ih =>
    cases hc : isSkipped c with
    | true => simpa [hc] using ih
    | false => simpa [hc] using .keep c h
  | drop _ _ ih => simpa [show isSkipped '\r' = true from rfl] using ih
  | @line a a' cs cs' ha ha' _ ih =>
    have blank : ∀ {a : List Char} (l : List Char), (∀ c ∈ a, isIndent c = true) →
        ('\n' :: (a ++ l)).dropWhile isSkipped = l.dropWhile isSkipped := by
      intro a l ha
      have : ∀ c ∈ '\n' :: a, isSkipped c = true := by
        intro c hc
        rcases List.mem_cons.1 hc with rfl | hc
        · rfl
        · exact isSkipped_of_isIndent (ha c hc)
      rw [← List.cons_append, List.dropWhile_append_of_pos this]
    rw [blank cs ha, blank cs' ha']
    exact ih

/-- Blanks in front of a token become blanks, and none become none. -/
theorem exists_skipped {b : List Char} (h : Respaced (b ++ cs) cs') (hb : Skipped b)
    (hcs : ∀ c ∈ cs.head?, isSkipped c = false) :
    ∃ b' cs'', cs' = b' ++ cs'' ∧ Skipped b' ∧ Respaced cs cs'' ∧ (b = [] → b' = []) := by
  refine ⟨cs'.takeWhile isSkipped, cs'.dropWhile isSkipped, List.takeWhile_append_dropWhile.symm,
    List.all_eq_true.1 List.all_takeWhile, ?_, ?_⟩
  · simpa [(takeWhile_append_of_skipped hb hcs).2] using h.dropWhile_isSkipped
  · rintro rfl
    cases cs with
    | nil => simp [of_append_nil h]
    | cons c cs =>
      have hc := hcs c rfl
      have ne : ∀ d, isSkipped d = true → c ≠ d := by
        rintro _ hd rfl
        simp [hd] at hc
      obtain ⟨_, rfl, -⟩ := h.cons_inv (ne _ rfl) (ne _ rfl)
      simp [hc]

/-- The same token, but that the lines of a comment or text block may have other indentation. -/
def Alike (t t' : Token) : Prop :=
  t'.kind = t.kind ∧ (IsPlain t.kind → t'.text = t.text) ∧ (t.blank = "" → t'.blank = "")

/-- A re-indented text has the same tokens, up to indentation within comments and text blocks.
By induction on the tokens, each of which is carried over with what is left. -/
theorem exists_tokens {ts : List Token} (h : Respaced (charsOf ts) cs') (hts : Chained ts []) :
    ∃ ts', cs' = charsOf ts' ∧ Chained ts' [] ∧ List.Forall₂ Alike ts ts' := by
  induction ts generalizing cs' with
  | nil => exact ⟨[], of_append_nil h, trivial, .nil⟩
  | cons t ts ih =>
    obtain ⟨hb, ht, hf, hts⟩ := hts
    rw [List.append_nil] at hf
    rw [charsOf_cons] at h
    have start : ∀ c ∈ (t.text.toList ++ charsOf ts).head?, isSkipped c = false := by
      obtain ⟨c, u, hu⟩ := List.exists_cons_of_ne_nil ht.ne_nil
      have := isSkipped_eq_false_of_isToken ht
      simp_all
    obtain ⟨b', _, rfl, hb', h', empty⟩ := h.exists_skipped hb start
    obtain ⟨t', left', hs', hl, text⟩ := h'.exists_scan (scan_append_iff.2 ⟨ht, hf⟩)
    obtain ⟨ts', rfl, hts', alike⟩ := ih hl hts
    obtain ⟨rfl, -⟩ := scan_append hs'
    obtain ⟨ht', hf'⟩ := scan_append_iff.1 hs'
    refine ⟨⟨t.kind, String.ofList b', String.ofList t'⟩ :: ts', by simp, ?_, .cons ?_ alike⟩
    · exact ⟨by simpa using hb', by simpa using ht', by simpa using hf', hts'⟩
    · refine ⟨rfl, fun plain ↦ ?_, fun hb ↦ ?_⟩
      · simp [text plain]
      · simp [empty (by simp [hb])]

end Respaced

/-! ## Re-indenting -/

/-- A text is its first line and the later ones, each behind a line feed. -/
theorem exists_splitChars (cs : List Char) :
    ∃ first rest, Text.splitChars '\n' cs = first :: rest ∧
      cs = first ++ rest.flatMap ('\n' :: ·) ∧ ∀ l ∈ first :: rest, '\n' ∉ l := by
  induction cs with
  | nil => exact ⟨[], [], rfl, rfl, by simp⟩
  | cons c cs ih =>
    obtain ⟨first, rest, e, hcs, hl⟩ := ih
    rw [Text.splitChars_cons, e]
    by_cases hc : c = '\n'
    · refine ⟨[], first :: rest, if_pos hc, ?_, ?_⟩
      · rw [hc, List.flatMap_cons, ← List.cons_append.symm]
        simp [hcs]
      · simpa using hl
    · refine ⟨c :: first, rest, if_neg hc, by simp [← hcs], ?_⟩
      simpa [Ne.symm hc] using hl

theorem splitChars_lines {first : List Char} {rest : List (List Char)}
    (h : ∀ l ∈ first :: rest, '\n' ∉ l) :
    Text.splitChars '\n' (first ++ rest.flatMap ('\n' :: ·)) = first :: rest := by
  induction rest generalizing first with
  | nil =>
    induction first with
    | nil => rfl
    | cons c first ih =>
      obtain ⟨hc, hl⟩ : ¬ '\n' = c ∧ '\n' ∉ first := by simpa using h
      rw [List.cons_append, Text.splitChars_cons, if_neg (Ne.symm hc), ih (by simpa using hl)]
      rfl
  | cons line rest ih =>
    have later := ih fun l hl ↦ h l (List.mem_cons_of_mem _ hl)
    induction first with
    | nil => rw [List.nil_append, List.flatMap_cons, List.cons_append, Text.splitChars_cons,
        if_pos rfl, later]
    | cons c first ih' =>
      have hc : '\n' ≠ c ∧ '\n' ∉ first := by simpa using h (c :: first) List.mem_cons_self
      rw [List.cons_append, Text.splitChars_cons, if_neg (Ne.symm hc.1), ih']
      · rfl
      · intro l hl
        rcases List.mem_cons.1 hl with rfl | hl
        · exact hc.2
        · exact h l (List.mem_cons_of_mem _ hl)

/-- Only carriage returns are dropped at the end of a line. -/
theorem exists_dropReturns (line : List Char) :
    ∃ r, line = dropReturns line ++ r ∧ ∀ c ∈ r, c = '\r' := by
  refine ⟨(line.reverse.takeWhile (· == '\r')).reverse, ?_, ?_⟩
  · rw [dropReturns, ← List.reverse_append, List.takeWhile_append_dropWhile, List.reverse_reverse]
  · intro c hc
    have := List.all_eq_true.1 List.all_takeWhile c (List.mem_reverse.1 hc)
    simpa using this

theorem exists_unindent (column : Nat) (line : List Char) :
    ∃ a, line = a ++ unindent column line ∧ ∀ c ∈ a, isIndent c = true := by
  fun_induction unindent column line with
  | case1 column c cs hc ih =>
    obtain ⟨a, e, ha⟩ := ih
    exact ⟨c :: a, by simp [← e], by simpa [hc] using ha⟩
  | case2 => exact ⟨[], rfl, by simp⟩
  | case3 => exact ⟨[], rfl, by simp⟩

namespace Respaced

theorem keep_append (l : List Char) {cs cs' : List Char} (h : Respaced cs cs') :
    Respaced (l ++ cs) (l ++ cs') := by
  induction l with
  | nil => exact h
  | cons c l ih => exact .keep c ih

/-- Carriage returns at the end of a line can be dropped. -/
theorem drop_append {r cs cs' : List Char} (hr : ∀ c ∈ r, c = '\r') (h : Respaced cs cs')
    (hn : ∀ c ∈ cs'.head?, c = '\n') : Respaced (r ++ cs) cs' := by
  induction r with
  | nil => exact h
  | cons c r ih =>
    obtain ⟨rfl, hrest⟩ := List.forall_mem_cons.1 hr
    exact .drop hn (ih hrest)

end Respaced

/-- Lines that are re-indented one by one are a re-indented text. -/
theorem respaced_lines {indent : List Char} (hi : ∀ c ∈ indent, isIndent c = true) (column : Nat)
    {r : List Char} (hr : ∀ c ∈ r, c = '\r') (rest : List (List Char)) :
    Respaced (r ++ rest.flatMap ('\n' :: ·))
      (rest.flatMap fun line ↦ '\n' :: reindentLine column indent line) := by
  induction rest generalizing r with
  | nil => exact .drop_append hr .nil (by simp)
  | cons line rest ih =>
    refine .drop_append hr ?_ (by simp)
    obtain ⟨s, hline, hs⟩ := exists_dropReturns line
    obtain ⟨a, hdrop, ha⟩ := exists_unindent column (dropReturns line)
    rw [List.flatMap_cons, List.flatMap_cons, reindentLine]
    generalize unindent column (dropReturns line) = x at hdrop ⊢
    have source : '\n' :: line ++ rest.flatMap ('\n' :: ·) =
        '\n' :: (a ++ (x ++ (s ++ rest.flatMap ('\n' :: ·)))) := by
      rw [hline, hdrop]
      simp
    rw [source]
    cases x with
    | nil => exact .line ha (show ∀ c ∈ [], isIndent c = true by simp) (ih hs)
    | cons c x => simpa using Respaced.line ha hi (.keep_append (c :: x) (ih hs))

variable {text : String} {column n : Nat}

/-- All lines but the first are re-indented. -/
theorem toList_reindent {indent : String} {first : List Char} {rest : List (List Char)}
    (h : Text.splitChars '\n' text.toList = first :: rest) :
    (reindent text column indent).toList = first ++
    (rest.map (reindentLine column indent.toList)).flatMap ('\n' :: ·) := by
  rw [reindent, h]
  simp [List.flatMap_map]

/-- Re-indenting a text only changes its indentation. -/
theorem respaced_reindent :
    Respaced text.toList
      (reindent text column (String.ofList (List.replicate n ' '))).toList := by
  obtain ⟨first, rest, e, hcs, -⟩ := exists_splitChars text.toList
  rw [toList_reindent e, hcs, List.flatMap_map]
  refine .keep_append first (respaced_lines (r := []) ?_ column (by simp) rest)
  intro c hc
  rw [String.toList_ofList] at hc
  obtain rfl := List.eq_of_mem_replicate hc
  rfl

theorem unindent_replicate (n : Nat) (l : List Char) :
    unindent n (List.replicate n ' ' ++ l) = l := by
  induction n with
  | zero => cases l <;> rfl
  | succ n ih => simpa [List.replicate_succ, unindent, isIndent] using ih

theorem dropReturns_eq_self {line : List Char} (h : line.getLast? ≠ some '\r') :
    dropReturns line = line := by
  rcases List.eq_nil_or_concat line with rfl | ⟨l, c, rfl⟩
  · rfl
  · rw [List.concat_eq_append] at h ⊢
    have : (c == '\r') = false := by simpa using h
    simp [dropReturns, this]

theorem getLast?_dropReturns (line : List Char) : (dropReturns line).getLast? ≠ some '\r' := by
  intro h
  rw [dropReturns, List.getLast?_reverse] at h
  have := List.head?_dropWhile_not (· == '\r') line.reverse
  rw [h] at this
  simp at this

theorem reindentLine_nil (indent : List Char) : reindentLine n indent [] = [] := by
  cases n <;> rfl

/-- A line that has been put at a column is left there. -/
theorem reindentLine_reindentLine (line : List Char) :
    reindentLine n (List.replicate n ' ') (reindentLine column (List.replicate n ' ') line) =
      reindentLine column (List.replicate n ' ') line := by
  obtain ⟨a, hdrop, -⟩ := exists_unindent column (dropReturns line)
  have last := getLast?_dropReturns line
  cases h : unindent column (dropReturns line) with
  | nil =>
    have : reindentLine column (List.replicate n ' ') line = [] := by rw [reindentLine, h]
    rw [this, reindentLine_nil]
  | cons c l =>
    have : reindentLine column (List.replicate n ' ') line = List.replicate n ' ' ++ c :: l := by
      rw [reindentLine, h]
    rw [this, reindentLine, dropReturns_eq_self, unindent_replicate]
    rw [hdrop, h] at last
    simpa using last

theorem not_mem_reindentLine {line : List Char} (h : '\n' ∉ line) :
    '\n' ∉ reindentLine column (List.replicate n ' ') line := by
  obtain ⟨r, hr, -⟩ := exists_dropReturns line
  obtain ⟨a, ha, -⟩ := exists_unindent column (dropReturns line)
  rw [hr, ha] at h
  rw [reindentLine]
  split
  · simp
  · rename_i c l hc
    rw [hc] at h
    intro hm
    rcases List.mem_append.1 hm with hm | hm
    · simpa using List.eq_of_mem_replicate hm
    · exact h (List.mem_append_left r (List.mem_append_right a hm))

/-- Re-indented lines are the lines of the text that they make up. -/
theorem splitChars_reindentLines {first : List Char} {rest : List (List Char)}
    (h : ∀ l ∈ first :: rest, '\n' ∉ l) :
    Text.splitChars '\n' (first ++
        (rest.map (reindentLine column (List.replicate n ' '))).flatMap ('\n' :: ·)) =
      first :: rest.map (reindentLine column (List.replicate n ' ')) := by
  obtain ⟨hfirst, hrest⟩ := List.forall_mem_cons.1 h
  refine splitChars_lines (List.forall_mem_cons.2 ⟨hfirst, fun l hm ↦ ?_⟩)
  obtain ⟨line, hline, rfl⟩ := List.mem_map.1 hm
  exact not_mem_reindentLine (hrest line hline)

/-- A snippet that has been put at a column is left there, since its lines are. -/
theorem reindent_reindent (text : String) (column n : Nat) :
    reindent (reindent text column (String.ofList (List.replicate n ' '))) n
      (String.ofList (List.replicate n ' ')) =
        reindent text column (String.ofList (List.replicate n ' ')) := by
  obtain ⟨first, rest, e, -, hl⟩ := exists_splitChars text.toList
  have again :
      Text.splitChars '\n' (reindent text column (String.ofList (List.replicate n ' '))).toList =
      first :: rest.map (reindentLine column (List.replicate n ' ')) := by
    rw [toList_reindent e, String.toList_ofList, splitChars_reindentLines hl]
  rw [← String.toList_inj, toList_reindent again, toList_reindent e, List.map_map]
  congr 2
  refine List.map_congr_left fun line _ ↦ ?_
  simpa using reindentLine_reindentLine line

/-! ## Slices and comments -/

/-- What is left of the shape of a word under re-indentation: the kind, and the text of an
operator. -/
def Shape.outline (s : Shape) : Shape := (s.1, if s.1 = .operator then s.2 else "")

namespace Respaced

/-- Tokens that are alike have the same outline. -/
theorem Alike.outline_shape {t t' : Token} (h : Alike t t') :
    t'.shape.outline = t.shape.outline := by
  obtain ⟨kind, text, -⟩ := h
  by_cases hk : t.kind = .operator
  · have same : t'.shape = t.shape := by
      rw [Token.shape, Token.shape, kind, text (by simp [hk, IsPlain, TokenKind.isComment])]
    rw [same]
  · simp [Shape.outline, Token.shape, kind, hk]

variable {ts ts' : List Token}

theorem map_kind (h : List.Forall₂ Alike ts ts') : ts'.map Token.kind = ts.map Token.kind := by
  induction h with
  | nil => rfl
  | cons ht _ ih => simp [ht.1, ih]

theorem map_outline (h : List.Forall₂ Alike ts ts') :
    ((ts'.filter fun t ↦ !t.kind.isComment).map Token.shape).map Shape.outline =
      ((ts.filter fun t ↦ !t.kind.isComment).map Token.shape).map Shape.outline := by
  induction h with
  | nil => rfl
  | @cons t t' _ _ ht _ ih =>
    cases hk : t.kind.isComment <;> simp_all [ht.1, ht.outline_shape]

theorem endsInWord (h : List.Forall₂ Alike ts ts') (hts : EndsInWord ts) : EndsInWord ts' := by
  obtain ⟨us, t, rfl, ht⟩ := hts
  have kinds := map_kind h
  rw [List.map_append] at kinds
  obtain ⟨vs, ws, rfl, -, hws⟩ := List.map_eq_append_iff.1 kinds
  obtain ⟨u, rfl, hu⟩ := List.map_eq_singleton_iff.1 hws
  exact ⟨vs, u, rfl, hu ▸ ht⟩

end Respaced

/-- A slice stays one, with the same kinds of words and the same operators. -/
theorem IsSlice.reindent (h : IsSlice text) :
    IsSlice (reindent text column (String.ofList (List.replicate n ' '))) ∧
      (shapesOf (reindent text column (String.ofList (List.replicate n ' ')))).map Shape.outline =
        (shapesOf text).map Shape.outline := by
  obtain ⟨ts, h⟩ := h
  have respaced : Respaced text.toList
      (Java.reindent text column (String.ofList (List.replicate n ' '))).toList := respaced_reindent
  rw [← h.chars] at respaced
  obtain ⟨ts', chars, chained, alike⟩ := respaced.exists_tokens h.chained
  have slice :
      IsSliceOf ts' (Java.reindent text column (String.ofList (List.replicate n ' '))) := by
    refine ⟨chars.symm, chained, ?_, Respaced.endsInWord alike h.ends⟩
    obtain ⟨t, us, rfl, ht, hb⟩ := h.starts
    obtain ⟨t', us', hat, -, rfl⟩ := List.forall₂_cons_left_iff.1 alike
    exact ⟨t', us', rfl, hat.1 ▸ ht, hat.2.2 hb⟩
  refine ⟨⟨ts', slice⟩, ?_⟩
  rw [slice.shapesOf_eq, h.shapesOf_eq]
  exact Respaced.map_outline alike

/-- A re-indented comment text is one still. -/
theorem IsDoc.reindent (h : IsDoc text) :
    IsDoc (reindent text column (String.ofList (List.replicate n ' '))) := by
  obtain ⟨cs, h⟩ := h
  have respaced : Respaced text.toList
      (Java.reindent text column (String.ofList (List.replicate n ' '))).toList := respaced_reindent
  rw [← h.chars] at respaced
  obtain ⟨cs', chars, chained, alike⟩ := respaced.exists_tokens h.chained
  refine ⟨cs', chars.symm, chained, ?_, fun c hc ↦ ?_⟩
  · obtain ⟨c, us, rfl, hb⟩ := h.starts
    obtain ⟨c', us', hat, -, rfl⟩ := List.forall₂_cons_left_iff.1 alike
    exact ⟨c', us', rfl, hat.2.2 hb⟩
  · obtain ⟨d, hd, hk⟩ : ∃ d ∈ cs, d.kind = c.kind := by
      have := List.mem_map_of_mem (f := Token.kind) hc
      rw [Respaced.map_kind alike] at this
      simpa using this
    exact hk ▸ h.comments d hd

end PlatformOverlay.Java
