import PlatformOverlay.Proofs.Java.Parser.Leaf
import PlatformOverlay.Proofs.Java.Slice

/-!
# Parts that are kept as text

What a parser takes as text, a group, a name, a type, the lead of a parameter or text up to a mark,
is a slice that the parser takes again wherever its words stand.  Each kind of text has a predicate,
a lemma that what was read satisfies it, and one that words which spell such a text are read as it.

| text | predicate | has been read | is read back |
| --- | --- | --- | --- |
| a qualified name | `IsQualifiedName` | `isQualifiedName_of_eq_ok` | `qualifiedName_of_spells` |
| a group | `IsGroup` | `block_eq_ok` | `sourceOf_balanced_of_spells` |
| a type | `IsType` | `type_eq_ok` | `type_of_spells` |
| a lead | `IsLead` | `withSource_modifiers_eq_ok` | `withSource_modifiers_of_spells` |
| a text up to a mark | `IsTextUntil` | `isTextUntil_of_eq_ok` | `textUntil_of_spells` |

All of them are a `IsPart`: a slice with a property of its words that does not depend on more than
their outlines. So re-indenting such a text keeps the predicate (`IsPart.reindent`).
-/

namespace PlatformOverlay.Java.Parser

open Lexer (IsToken)

variable {s : String} {ws rest taken : List Word}

/-! ## Words that spell a text -/

/-- The words are those of the text. -/
structure Spells (ws : List Word) (s : String) : Prop where
  shapes : ws.map Word.shape = shapesOf s
  source : sourceText ws = s

/-- A single token is spelled by a single word. -/
theorem Spells.of_isToken {kind : TokenKind} (h : IsToken kind s.toList)
    (hk : kind.isComment = false) (hs : Spells ws s) :
    ∃ w, ws = [w] ∧ w.kind = kind ∧ w.text = s := by
  obtain ⟨w, rfl, hw⟩ := List.map_eq_singleton_iff.1 (hs.shapes.trans (isSlice_of_isToken h hk).2)
  exact ⟨w, rfl, congrArg Prod.fst hw, congrArg Prod.snd hw⟩

/-- Words of a text spell their source text. -/
theorem spells_of_fromText (h : FromText (taken ++ rest)) (ne : taken ≠ []) :
    Spells taken (sourceText taken) :=
  ⟨(h.isSlice ne).2.symm, rfl⟩

theorem Spells.ne_nil (h : Spells ws s) (hs : IsSlice s) : ws ≠ [] := by
  rintro rfl
  exact hs.shapesOf_ne_nil h.shapes.symm

/-- The text is a slice, and what `P` says holds of all words with the same outlines. -/
structure IsPart (P : List Word → Prop) (s : String) : Prop where
  slice : IsSlice s
  holds : ∀ ws, ws.map (fun w ↦ w.shape.outline) = (shapesOf s).map Shape.outline → P ws

namespace IsPart

variable {P : List Word → Prop}

/-- A property that words of the same outline share is one of the source text. -/
theorem of_fromText (h : FromText (taken ++ rest)) (ne : taken ≠ [])
    (hP : ∀ ws, SameOutlines ws taken → P ws) : IsPart P (sourceText taken) := by
  obtain ⟨slice, shapes⟩ := h.isSlice ne
  refine ⟨slice, fun ws hws ↦ hP ws ?_⟩
  rw [SameOutlines, hws, shapes, List.map_map]
  rfl

/-- All words that spell the text have the property. -/
theorem of_spells (h : IsPart P s) (hs : Spells ws s) : P ws := by
  refine h.holds ws ?_
  rw [← hs.shapes, List.map_map]
  rfl

/-- The property outlasts re-indentation, which keeps outlines. -/
theorem reindent (h : IsPart P s) (column n : Nat) :
    IsPart P (reindent s column (String.ofList (List.replicate n ' '))) := by
  have ⟨slice, shapes⟩ :
      IsSlice (Java.reindent s column (String.ofList (List.replicate n ' '))) ∧ _ :=
    h.slice.reindent
  exact ⟨slice, fun ws hws ↦ h.holds ws (hws.trans shapes)⟩

end IsPart

theorem exists_spells (h : IsSlice s) : ∃ ws, Spells ws s := by
  obtain ⟨ts, h⟩ := h
  exact ⟨wordsAfter .atStart ts, h.map_shape, h.sourceText_eq⟩

theorem IsPart.append {t : String} {P Q : List Word → Prop} (hs : IsPart P s) (ht : IsSlice t)
    (hj : Joins s t) (h : ∀ ws vs, P ws →
      vs.map (fun w ↦ w.shape.outline) = (shapesOf t).map Shape.outline → Q (ws ++ vs)) :
    IsPart Q (s ++ t) := by
  obtain ⟨slice, shapes⟩ := hs.slice.append ht hj
  refine ⟨slice, fun ws hws ↦ ?_⟩
  rw [shapes, List.map_append] at hws
  obtain ⟨us, vs, rfl, hus, hvs⟩ := List.map_eq_append_iff.1 hws
  exact h us vs (hs.holds us hus) hvs

/-! ## Names -/

/-- A name without dots. -/
def IsName (s : String) : Prop := IsToken .ident s.toList

theorem IsName.isSlice (h : IsName s) : IsSlice s ∧ shapesOf s = [(.ident, s)] :=
  isSlice_of_isToken h rfl

theorem Spells.of_isName (h : IsName s) (hs : Spells ws s) :
    ∃ w, ws = [w] ∧ w.kind = .ident ∧ w.text = s :=
  hs.of_isToken h rfl

theorem FromText.isToken {w : Word} (h : FromText (w :: ws)) : IsToken w.kind w.text.toList := by
  obtain ⟨g, ts, k, -, hts, e⟩ := h
  obtain ⟨cs, t, us, rfl, -, -, rfl, -⟩ := wordsAfter_eq_cons e.symm
  exact (Lexer.chained_append.1 hts).2.2.1

theorem isName_of_ident {what : String} (h : FromText ws) (hi : ident what ws = .ok (s, rest)) :
    IsName s := by
  obtain ⟨w, rfl, hw, rfl⟩ := ident_eq_ok.1 hi
  rw [IsName, ← hw]
  exact FromText.isToken h

/-- A name and further segments behind dots. -/
def dotted (first : String) (segments : List String) : String :=
  first ++ String.join (segments.map ("." ++ ·))

def IsQualifiedName (s : String) : Prop :=
  ∃ first segments, IsName first ∧ (∀ x ∈ segments, IsName x) ∧ s = dotted first segments

theorem dotted_cons {first x : String} {segments : List String} :
    dotted first (x :: segments) = dotted (first ++ ("." ++ x)) segments := by
  simp [dotted, String.append_assoc]

theorem head?_of_isName (h : IsName s) : s.toList.head? ≠ some '.' := by
  intro hd
  obtain ⟨l, hl⟩ := List.head?_eq_some_iff.1 hd
  rw [IsName, hl, IsToken] at h
  by_cases dots : ['.', '.'] <+: l
  · obtain ⟨k, rfl⟩ := dots
    simp [Lexer.scan_ellipsis] at h
  · simp [Lexer.scan_dot dots] at h

/-- A name with segments is a slice of its names and dots. -/
theorem isSlice_dotted {first : String} {segments : List String} (hf : IsSlice first)
    (last : ∀ w ∈ (shapesOf first).getLast?, w.1 = .ident) (hs : ∀ x ∈ segments, IsName x) :
    IsSlice (dotted first segments) ∧ shapesOf (dotted first segments) =
      shapesOf first ++ segments.flatMap fun x ↦ [(.punct .dot, "."), (.ident, x)] := by
  induction segments generalizing first with
  | nil => simp [dotted, hf]
  | cons x segments ih =>
    obtain ⟨hx, hs⟩ := List.forall_mem_cons.1 hs
    obtain ⟨slice, shapes⟩ := isSlice_dot hx rfl (head?_of_isName hx)
    obtain ⟨slice', shapes'⟩ := hf.append slice (.of_dot hf (by simp) (by simp_all))
    rw [dotted_cons]
    obtain ⟨h, h'⟩ := ih slice' (by simp [shapes', shapes]) hs
    refine ⟨h, ?_⟩
    rw [h', shapes', shapes]
    simp

theorem IsQualifiedName.isSlice (h : IsQualifiedName s) : IsSlice s := by
  obtain ⟨first, segments, hf, hs, rfl⟩ := h
  obtain ⟨slice, shapes⟩ := hf.isSlice
  exact (isSlice_dotted slice (by simp [shapes]) hs).1

theorem Spells.of_dotted {first : String} {segments : List String} (hf : IsName first)
    (hs : ∀ x ∈ segments, IsName x) (h : Spells ws (dotted first segments)) :
    ∃ w vs, ws = w :: vs ∧ w.shape = (.ident, first) ∧
      vs.map Word.shape = segments.flatMap fun x ↦ [(.punct .dot, "."), (.ident, x)] := by
  obtain ⟨slice, shapes⟩ := hf.isSlice
  have shapes' := (isSlice_dotted slice (by simp [shapes]) hs).2
  rw [shapes] at shapes'
  obtain ⟨w, vs, rfl, hw, hvs⟩ := List.map_eq_cons_iff.1 (h.shapes.trans shapes')
  exact ⟨w, vs, rfl, hw, hvs⟩

/-- Words that spell segments start with a dot and a name. -/
theorem exists_of_shapes_segments {x : String} {xs : List String}
    (h : ws.map Word.shape = (x :: xs).flatMap fun x ↦ [(.punct .dot, "."), (.ident, x)]) :
    ∃ d w vs, ws = d :: w :: vs ∧ d.kind = .punct .dot ∧ w.shape = (.ident, x) ∧
      vs.map Word.shape = xs.flatMap fun x ↦ [(.punct .dot, "."), (.ident, x)] := by
  obtain ⟨d, _, rfl, hd, h⟩ := List.map_eq_cons_iff.1 h
  obtain ⟨w, vs, rfl, hw, hvs⟩ := List.map_eq_cons_iff.1 h
  exact ⟨d, w, vs, rfl, congrArg Prod.fst hd, hw, hvs⟩

/-- Segments are read back, with further ones behind them. -/
theorem segments_append {xs : List String} {ws rest : List Word}
    (h : ws.map Word.shape = xs.flatMap fun x ↦ [(.punct .dot, "."), (.ident, x)]) :
    segments (ws ++ rest) = (String.join (xs.map ("." ++ ·)) ++ (segments rest).1,
      (segments rest).2) := by
  induction xs generalizing ws with
  | nil =>
    obtain rfl := List.map_eq_nil_iff.1 h
    simp
  | cons x xs ih =>
    obtain ⟨d, w, ws, rfl, kd, hw, hws⟩ := exists_of_shapes_segments h
    have kw : w.kind = .ident := congrArg Prod.fst hw
    have text : w.text = x := congrArg Prod.snd hw
    rw [List.cons_append, List.cons_append, segments, if_pos ⟨kd, kw⟩, ih hws, text]
    simp [String.append_assoc]

/-- A qualified name is read back from the words that spell it. -/
theorem qualifiedName_of_spells {what : String} (h : IsQualifiedName s) (hs : Spells ws s)
    (hr : isAt (.punct .dot) rest = false) :
    qualifiedName what (ws ++ rest) = .ok (s, rest) := by
  obtain ⟨first, xs, hf, hxs, rfl⟩ := h
  obtain ⟨w, vs, rfl, hw, hvs⟩ := hs.of_dotted hf hxs
  have kind : w.kind = .ident := congrArg Prod.fst hw
  have text : w.text = first := congrArg Prod.snd hw
  refine qualifiedName_eq_ok.2 ⟨w, vs ++ rest, rfl, kind, ?_, ?_⟩
  · rw [segments_append hvs, segments_eq_of_not_dot hr, text, dotted]
    simp
  · rw [segments_append hvs, segments_eq_of_not_dot hr]

theorem isAt_ident_of_spells (h : IsQualifiedName s) (hs : Spells ws s) :
    isAt .ident ws = true := by
  obtain ⟨first, xs, hf, hxs, rfl⟩ := h
  obtain ⟨w, vs, rfl, hw, -⟩ := hs.of_dotted hf hxs
  have kind : w.kind = .ident := congrArg Prod.fst hw
  simp [isAt_cons, kind]

/-- A path is read on by the segments behind it. -/
theorem importPath_append {path : String} {xs : List String} {ws rest : List Word}
    (h : ws.map Word.shape = xs.flatMap fun x ↦ [(.punct .dot, "."), (.ident, x)]) :
    importPath path (ws ++ rest) = importPath (dotted path xs) rest := by
  induction xs generalizing ws path with
  | nil =>
    obtain rfl := List.map_eq_nil_iff.1 h
    simp [dotted]
  | cons x xs ih =>
    obtain ⟨d, w, ws, rfl, kd, hw, hws⟩ := exists_of_shapes_segments h
    have kw : w.kind = .ident := congrArg Prod.fst hw
    have text : w.text = x := congrArg Prod.snd hw
    have star : isAtText .operator "*" (w :: (ws ++ rest)) = false := by
      simp [isAtText_cons, hw]
    rw [List.cons_append, List.cons_append, importPath_eq,
      bind_of_ok (eat_of_isAt (by simp [isAt_cons, kd])), if_pos rfl, List.tail_cons,
      lookAhead_bind, star, if_neg (by simp), bind_of_ok (ident_cons kw), ih hws, text,
      dotted_cons, String.append_assoc]

theorem segments_eq (ws : List Word) (h : FromText ws) :
    ∃ xs : List String, (∀ x ∈ xs, IsName x) ∧ (segments ws).1 =
      String.join (xs.map ("." ++ ·)) := by
  fun_induction segments ws with
  | case1 d w ws hw rest ih =>
    have later : FromText (w :: ws) := h.of_cons
    obtain ⟨xs, hxs, e⟩ := ih (later.of_cons)
    refine ⟨w.text :: xs, ?_, ?_⟩
    · refine List.forall_mem_cons.2 ⟨?_, hxs⟩
      rw [IsName, ← hw.2]
      exact FromText.isToken later
    · simp [rest, e, String.append_assoc]
  | case2 => exact ⟨[], by simp, by simp⟩
  | case3 => exact ⟨[], by simp, by simp⟩

/-- What is read as a qualified name is one. -/
theorem isQualifiedName_of_eq_ok {what : String} (h : FromText ws)
    (hq : qualifiedName what ws = .ok (s, rest)) : IsQualifiedName s := by
  obtain ⟨w, vs, rfl, hw, rfl, -⟩ := qualifiedName_eq_ok.1 hq
  obtain ⟨xs, hxs, e⟩ := segments_eq vs (h.of_cons)
  refine ⟨w.text, xs, ?_, hxs, by rw [e, dotted]⟩
  rw [IsName, ← hw]
  exact FromText.isToken h

theorem dotted_append_singleton {first x : String} {segments : List String} :
    dotted first segments ++ "." ++ x = dotted first (segments ++ [x]) := by
  simp [dotted, String.append_assoc]

theorem isQualifiedName_of_importPath {first : String} {xs : List String} {ws : List Word}
    {wildcard : Bool} (h : FromText ws) (hf : IsName first) (hxs : ∀ x ∈ xs, IsName x)
    (hp : importPath (dotted first xs) ws = .ok ((s, wildcard), rest)) : IsQualifiedName s := by
  have here : IsQualifiedName (dotted first xs) := ⟨first, xs, hf, hxs, rfl⟩
  rw [importPath_eq] at hp
  obtain ⟨dot, vs, he, hp₁⟩ := bind_eq_ok.1 hp
  have suffix := Shortens.eat ws dot vs he
  cases dot with
  | false =>
    cases hp₁
    exact here
  | true =>
    rw [if_pos rfl, lookAhead_bind] at hp₁
    split at hp₁
    · cases hp₁
      exact here
    · obtain ⟨x, us, hi, hp₂⟩ := bind_eq_ok.1 hp₁
      obtain ⟨taken, rfl⟩ := suffix
      have later := h.of_append
      have hx := isName_of_ident later hi
      obtain ⟨w, rfl, -, -⟩ := ident_eq_ok.1 hi
      rw [dotted_append_singleton] at hp₂
      exact isQualifiedName_of_importPath (later.of_cons) hf
        (by simpa [or_imp, forall_and] using ⟨hxs, hx⟩) hp₂
termination_by ws.length

/-! ## Groups -/

/-- The text is a group from `opening` to the mark that closes it. -/
def IsGroup (opening closing : Punct) : String → Prop :=
  IsPart fun ws ↦ isAt (.punct opening) ws = true ∧
    ∀ rest, balanced opening closing (ws ++ rest) = .ok ((), rest)

section

variable {opening closing : Punct}

theorem isGroup_of_eq_ok (h : FromText ws) (ho : isAt (.punct opening) ws = true)
    (hg : sourceOf (balanced opening closing) ws = .ok (s, rest)) :
    IsGroup opening closing s := by
  obtain ⟨v, inner, w, rfl, -, again⟩ := balanced_local (sourceOf_eq_ok hg)
  have e : v :: (inner ++ w :: rest) = (v :: (inner ++ [w])) ++ rest := by simp
  rw [e] at h hg
  obtain ⟨-, rfl⟩ := sourceOf_append_iff.1 hg
  refine .of_fromText h (by simp) fun ws hws ↦ ⟨?_, fun rest ↦ again ws rest hws.sameKinds⟩
  rw [hws.sameKinds.isAt]
  simpa [isAt_cons] using ho

/-- A group is read back from the words that spell it. -/
theorem sourceOf_balanced_of_spells (h : IsGroup opening closing s) (hs : Spells ws s) :
    sourceOf (balanced opening closing) (ws ++ rest) = .ok (s, rest) :=
  sourceOf_append_iff.2 ⟨(h.of_spells hs).2 rest, hs.source⟩

theorem isAt_of_isGroup (h : IsGroup opening closing s) (hs : Spells ws s) :
    isAt (.punct opening) (ws ++ rest) = true :=
  isAt_append_of_isAt (h.of_spells hs).1

theorem startsWithBreak_of_isGroup (h : IsGroup opening closing s)
    (ho : StartsWithBreak opening.text) : StartsWithBreak s := by
  obtain ⟨ws, hs⟩ := exists_spells h.slice
  obtain ⟨w, vs, rfl, hw⟩ := exists_of_isAt (h.of_spells hs).1
  exact startsWithBreak_of_head? h.slice (by rw [← hs.shapes]; rfl) hw ho

theorem block_of_spells {column : Nat} (h : IsGroup .lbrace .rbrace s) (hs : Spells ws s) :
    block column (ws ++ rest) = .ok (⟨s, column⟩, rest) := by
  rw [block, lookAhead_bind, if_pos (isAt_of_isGroup h hs),
    bind_of_ok (sourceOf_balanced_of_spells h hs)]
  rfl

/-- What is read as a block is a group in braces. -/
theorem block_eq_ok {column : Nat} {b : Snippet} (h : FromText ws)
    (hb : block column ws = .ok (b, rest)) :
    IsGroup .lbrace .rbrace b.text ∧ b.column = column := by
  rw [block, lookAhead_bind] at hb
  split at hb
  · rename_i ho
    obtain ⟨text, _, hg, e⟩ := bind_eq_ok.1 hb
    cases e
    exact ⟨isGroup_of_eq_ok h ho hg, rfl⟩
  · exact (failExpecting_ne_ok hb).elim

end

/-! ## Types -/

/-- The words are read as a type, to which what follows may be added. -/
def ReadsAsType (ws : List Word) : Prop :=
  (∀ w ∈ ws.getLast?, w.kind ∈ endsType) ∧ ∀ rest, typeWords (ws ++ rest) = typeTail () rest

def StartsWithName (ws : List Word) : Prop :=
  ∃ w vs, ws = w :: vs ∧ w.kind = .ident ∧ ∀ v ∈ vs.head?, v.kind ∈ continuesType

/-- The text of a type. -/
def IsType : String → Prop := IsPart ReadsAsType

/-- The text of a type with no annotations in front of it. -/
def IsPlainType : String → Prop := IsPart fun ws ↦ ReadsAsType ws ∧ StartsWithName ws

theorem IsPlainType.isType (h : IsPlainType s) : IsType s :=
  ⟨h.slice, fun ws hws ↦ (h.holds ws hws).1⟩

/-- A type ends here. -/
def EndsType (ws : List Word) : Prop := ∀ kind ∈ continuesType, isAt kind ws = false

/-- A type ends in front of any token that continues none. -/
theorem EndsType.of_isAt {kind : TokenKind} (h : isAt kind ws = true) (hk : kind ∉ continuesType) :
    EndsType ws := by
  intro k hk'
  rw [isAt_eq_of_isAt h]
  exact decide_eq_false (by rintro rfl; exact hk hk')

/-- Where a type ends, no part of it is read. -/
theorem typeTail_of_endsType (h : EndsType ws) : typeTail () ws = .ok ((), ws) := by
  have dot := h (.punct .dot) (by simp [continuesType])
  have lt := h (.punct .lt) (by simp [continuesType])
  have lbracket := h (.punct .lbracket) (by simp [continuesType])
  rw [typeTail_eq, if_neg (by simp [dot]), if_neg (by simp [lt]),
    if_neg (by simp [isAtBrackets, lbracket])]
  rfl

/-- Words that are read as a type to the end read as a type. -/
theorem ReadsAsType.of_typeWords (h : typeWords ws = .ok ((), [])) : ReadsAsType ws := by
  obtain ⟨ann, name, tail, rfl, -, -, -, last, again⟩ := typeWords_local h
  rw [List.append_nil]
  exact ⟨fun w hw ↦ last w (by simpa [List.getLast?_append] using hw), fun rest ↦ again _ rest rfl⟩

/-- Words that read as a type do so in front of anything that continues no type. -/
theorem ReadsAsType.type_eq_ok (h : ReadsAsType ws) (hr : EndsType rest) :
    type (ws ++ rest) = .ok (sourceText ws, rest) :=
  sourceOf_append_iff.2 ⟨by rw [h.2, typeTail_of_endsType hr], rfl⟩

/-- A type is read back from the words that spell it. -/
theorem type_of_spells (h : IsType s) (hs : Spells ws s) (hr : EndsType rest) :
    type (ws ++ rest) = .ok (s, rest) := by
  rw [(h.of_spells hs).type_eq_ok hr, hs.source]

/-- What is read as a type is one. If it starts with an identifier, then it has no annotations
in front. -/
theorem type_eq_ok (h : FromText ws) (ht : type ws = .ok (s, rest)) :
    IsType s ∧ (isAt .ident ws = true → IsPlainType s) ∧
      ∃ taken, ws = taken ++ rest ∧ Spells taken s := by
  obtain ⟨ann, name, tail, e, hann, hname, first, last, again⟩ :=
    typeWords_local (sourceOf_eq_ok ht)
  have e' : ann ++ name :: (tail ++ rest) = (ann ++ name :: tail) ++ rest := by simp
  rw [e, e'] at h ht
  obtain ⟨-, rfl⟩ := sourceOf_append_iff.1 ht
  have ne : ann ++ name :: tail ≠ [] := by simp
  have reads : ∀ ws, SameOutlines ws (ann ++ name :: tail) → ReadsAsType ws := by
    intro ws hws
    refine ⟨fun w hw ↦ ?_, fun rest ↦ again ws rest hws.sameKinds⟩
    have kinds := congrArg List.getLast? hws.sameKinds
    rw [List.getLast?_map, List.getLast?_map, Option.mem_def.1 hw, eq_comm,
      Option.map_some, Option.map_eq_some_iff] at kinds
    obtain ⟨v, hv, hk⟩ := kinds
    exact hk ▸ last v (by simpa [List.getLast?_append] using hv)
  refine ⟨.of_fromText h ne reads, fun hi ↦ .of_fromText h ne fun ws hws ↦ ⟨reads ws hws, ?_⟩,
    _, e.trans e', spells_of_fromText h ne⟩
  rcases hann with rfl | hann
  · obtain ⟨w, vs, rfl, hw, hvs⟩ := hws.sameKinds.cons_inv
    refine ⟨w, vs, rfl, hw.trans hname, fun v hv ↦ ?_⟩
    obtain ⟨us, rfl⟩ := List.head?_eq_some_iff.1 hv
    cases tail with
    | nil => simp [SameKinds] at hvs
    | cons u tail =>
      obtain ⟨_, _, e, hu, -⟩ := hvs.cons_inv
      cases e
      exact hu ▸ first u rfl
  · have : isAt (.punct .atSign) (ann ++ (name :: (tail ++ rest))) = true :=
      isAt_append_of_isAt hann
    rw [← e, isAt_eq_of_isAt hi] at this
    simp at this

theorem isSlice_brackets :
    IsSlice "[]" ∧ shapesOf "[]" = [(.punct .lbracket, "["), (.punct .rbracket, "]")] := by
  obtain ⟨l, hl⟩ := isSlice_of_isToken (isToken_punct .lbracket) rfl
  obtain ⟨r, hr⟩ := isSlice_of_isToken (isToken_punct .rbracket) rfl
  have := l.append r (.of_break l ⟨']', by decide +kernel, by decide⟩)
  rw [hl, hr] at this
  exact this

theorem ReadsAsType.append_brackets {l r : Word} (h : ReadsAsType ws)
    (hl : l.kind = .punct .lbracket) (hr : r.kind = .punct .rbracket) :
    ReadsAsType (ws ++ [l, r]) := by
  refine ⟨by simp [hr, endsType], fun rest ↦ ?_⟩
  rw [List.append_assoc, h.2, List.cons_append, List.cons_append, typeTail_eq,
    if_neg (by simp [isAt_cons, hl]), if_neg (by simp [isAt_cons, hl]),
    if_pos (by simp [isAtBrackets, isAt_cons, hl, hr])]
  rfl

theorem StartsWithName.append_brackets {l r : Word} (h : StartsWithName ws)
    (hl : l.kind = .punct .lbracket) : StartsWithName (ws ++ [l, r]) := by
  obtain ⟨w, vs, rfl, hw, hvs⟩ := h
  refine ⟨w, vs ++ [l, r], rfl, hw, ?_⟩
  cases vs with
  | nil => simp [hl, continuesType]
  | cons v vs => simpa using hvs

/-- All brackets behind a text continue it, if each pair does. -/
theorem isPart_append_brackets {P : List Word → Prop} {ws : List Word} (h : IsPart P s)
    (hb : ∀ {ws l r}, P ws → l.kind = .punct .lbracket → r.kind = .punct .rbracket →
      P (ws ++ [l, r])) : IsPart P (s ++ (brackets ws).1) := by
  fun_induction brackets ws generalizing s with
  | case1 l r ws _ rest =>
    rename_i ih
    rw [← String.append_assoc]
    refine ih
      (h.append isSlice_brackets.1 (.of_break h.slice ⟨'[', by decide +kernel, by decide⟩) ?_)
    intro us vs hus hvs
    rw [isSlice_brackets.2] at hvs
    obtain ⟨l', _, rfl, hl, h'⟩ := List.map_eq_cons_iff.1 hvs
    obtain ⟨r', rfl, hr⟩ := List.map_eq_singleton_iff.1 h'
    exact hb hus (congrArg Prod.fst hl) (congrArg Prod.fst hr)
  | case2 => simpa using h
  | case3 => simpa using h

/-- Brackets behind the name of what is declared belong to its type. -/
theorem IsType.append_brackets (h : IsType s) : IsType (s ++ (brackets ws).1) :=
  isPart_append_brackets h .append_brackets

theorem IsPlainType.append_brackets (h : IsPlainType s) : IsPlainType (s ++ (brackets ws).1) :=
  isPart_append_brackets h fun hp hl hr ↦ ⟨hp.1.append_brackets hl hr, hp.2.append_brackets hl⟩

/-- A type can be followed by a dot, with which its last token does not go on. -/
theorem Joins.of_isType (h : IsType s) {t : String} (ht : t.toList.head? = some '.') :
    Joins s t := by
  obtain ⟨ws, hs⟩ := exists_spells h.slice
  refine .of_dot h.slice ht fun w hw ↦ ?_
  rw [← hs.shapes, List.getLast?_map] at hw
  obtain ⟨v, hv, rfl⟩ := Option.map_eq_some_iff.1 hw
  exact (h.of_spells hs).1 v hv

/-! ## Annotations and modifiers of a parameter -/

/-- The text of the annotations and modifiers in front of the type of a parameter. -/
structure IsLead (s : String) : Prop where
  slice : IsSlice s
  reads : ∀ ws rest, ws.map Word.shape = shapesOf s → isAt .ident rest = true →
    modifierAt rest = none → ∃ r, modifiers (ws ++ rest) = .ok (r, rest)

/-- The modifiers of a parameter are read back from the words that spell them. -/
theorem withSource_modifiers_of_spells (h : IsLead s) (hs : Spells ws s)
    (hi : isAt .ident rest = true) (hm : modifierAt rest = none) :
    ∃ r, withSource modifiers (ws ++ rest) = .ok ((some s, r), rest) := by
  obtain ⟨r, hr⟩ := h.reads ws rest hs.shapes hi hm
  obtain ⟨w, ws, rfl⟩ := List.exists_cons_of_ne_nil (hs.ne_nil h.slice)
  exact ⟨r, withSource_append_iff.2 ⟨hr, congrArg some hs.source⟩⟩

/-- The source of what is read as the modifiers in front of a name is such a text, or nothing
was read. -/
theorem withSource_modifiers_eq_ok {source : Option String} {r : List Annotation × Modifiers}
    (h : FromText ws) (hm : withSource modifiers ws = .ok ((source, r), rest))
    (hi : isAt .ident rest = true) : (∀ s ∈ source, IsLead s) ∧ (source = none → rest = ws) := by
  obtain ⟨taken, rfl, -, again⟩ := modifiersAfter_local (withSource_eq_ok hm) hi
  obtain ⟨-, rfl⟩ := withSource_append_iff.1 hm
  cases taken with
  | nil => simp [sourceText?]
  | cons w taken =>
    obtain ⟨slice, shapes⟩ := h.isSlice (List.cons_ne_nil w taken)
    refine ⟨?_, by simp [sourceText?]⟩
    rintro _ ⟨⟩
    exact ⟨slice, fun ws rest hs hi hm ↦ again ws rest (hs.trans shapes) hi hm _⟩

/-! ## Text up to a mark -/

/-- The text goes on up to one of the marks. -/
def IsTextUntil (stop : List Word → Bool) (marks : List TokenKind) : String → Prop :=
  IsPart fun ws ↦ ∀ rest, (∃ kind ∈ marks, isAt kind rest = true) →
    seek stop 0 (ws ++ rest) = .ok rest

section

variable {stop : List Word → Bool} {marks : List TokenKind}

/-- A text up to one of the marks is read back in front of any of them. -/
theorem textUntil_of_spells (h : IsTextUntil stop marks s) (hs : Spells ws s)
    (hr : ∃ kind ∈ marks, isAt kind rest = true) :
    textUntil stop (ws ++ rest) = .ok (some s, rest) := by
  refine textUntil_eq_ok.2 ⟨ws, rfl, h.of_spells hs rest hr, ?_⟩
  obtain ⟨w, ws, rfl⟩ := List.exists_cons_of_ne_nil (hs.ne_nil h.slice)
  exact congrArg some hs.source

/-- What is read as a text up to a mark is one. -/
theorem isTextUntil_of_eq_ok (h : FromText ws) (ht : textUntil stop ws = .ok (some s, rest))
    (hm : stop rest = true → ∀ kind ∈ marks, ∀ rest', isAt kind rest' = true →
      stop rest' = true ∧ StopsNoEarlier stop rest rest') : IsTextUntil stop marks s := by
  obtain ⟨taken, rfl, hs, source⟩ := textUntil_eq_ok.1 ht
  obtain ⟨taken', e, hstop, again⟩ := seek_local hs
  obtain rfl := List.append_cancel_right e
  cases taken with
  | nil => simp [sourceText?] at source
  | cons w taken =>
    obtain rfl := Option.some.inj source
    refine .of_fromText h (by simp) ?_
    rintro ws hws rest' ⟨kind, hk, hr⟩
    obtain ⟨hstop', early⟩ := hm hstop kind hk rest' hr
    exact again ws rest' hws early (ne_nil_of_isAt hr) hstop'

theorem stop_of_textUntil {text : Option String} (h : textUntil stop ws = .ok (text, rest)) :
    stop rest = true := by
  obtain ⟨taken, rfl, hs, -⟩ := textUntil_eq_ok.1 h
  obtain ⟨taken', e, hstop, -⟩ := seek_local hs
  exact hstop

theorem textUntil_none_of_stop (h : stop ws = true) (ne : ws ≠ []) :
    textUntil stop ws = .ok (none, ws) := by
  obtain ⟨w, ws, rfl⟩ := List.exists_cons_of_ne_nil ne
  exact textUntil_eq_ok.2 ⟨[], rfl, by rw [seek_cons, if_pos ⟨rfl, h⟩], rfl⟩

end

end PlatformOverlay.Java.Parser
