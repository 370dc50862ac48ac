import PlatformOverlay.Proofs.Java.Printer.Layout

/-!
# Printed layouts are sound

A segment is a layout that stands between spaces, or in front of a text that starts with a mark
(`Segment`).  Texts are segments, and segments are put together with blanks and marks, so that the
lines of declarations are segments, and the layout of a file is sound (`sound_unitPieces`).

The lemmas are the ways in which the printer puts texts together: one after the other with a blank
(`Segment.blank`), a mark behind or in front (`Segment.append_punct`, `Segment.punct_cons`), commas
between (`segment_separated`), parentheses around (`segment_parenthesized`). A part that may be
missing, such as a clause of a head, is known by what it does behind any segment (`Continues`).
-/

open PlatformOverlay.Java.Parser

namespace PlatformOverlay.Java.Printer

open Lexer (IsToken)

variable {ps qs : List Piece} {s : String}

/-! ## Segments -/

/-- A text in front starts with a character that ends every word. -/
def BreaksNext (ps : List Piece) : Prop := ∀ t, ps.head? = some (.text t) → StartsWithBreak t

/-- A layout that starts with a text and may go on with spaces or marks. -/
structure Segment (ps : List Piece) : Prop where
  starts : ∃ t, ps.head? = some (.text t)
  sound : ∀ qs, Sound qs → BreaksNext qs → Sound (ps ++ qs)

theorem eq_dot_of_text {p : Punct} (h : p.text = ".") : p = .dot := by
  cases p <;> simp [Punct.text] at h ⊢

/-- Punctuation but the dot joins up with anything. -/
theorem joins_punct {p : Punct} (h : p ≠ .dot) (t : String) : Joins p.text t := by
  intro w hw k
  rw [(isSlice_of_isToken (isToken_punct p) rfl).2] at hw
  obtain rfl : (.punct p, p.text) = w := by simpa using hw
  refine ⟨?_, fun dot ↦ absurd (eq_dot_of_text dot) h⟩
  cases p with
  | dot => exact absurd rfl h
  | _ => trivial

/-- Punctuation but dots ends every token in front of it. -/
theorem startsWithBreak_punct {p : Punct} (h : p ≠ .dot) (h' : p ≠ .ellipsis) :
    StartsWithBreak p.text := by
  cases p with
  | dot => exact absurd rfl h
  | ellipsis => exact absurd rfl h'
  | _ => exact ⟨_, rfl, by decide⟩

namespace Segment

theorem text (h : IsSlice s) : Segment [.text s] :=
  ⟨⟨s, rfl⟩, fun _ hqs hb ↦ ⟨h, fun t ht ↦ .of_break h (hb t ht), hqs⟩⟩

theorem token {kind : TokenKind} (h : IsToken kind s.toList) (hk : kind.isComment = false) :
    Segment [.text s] :=
  .text (isSlice_of_isToken h hk).1

theorem head?_append (h : Segment ps) : (ps ++ qs).head? = ps.head? := by
  obtain ⟨t, ht⟩ := h.starts
  rw [List.head?_append, ht, Option.some_or]

/-- Segments one behind the other, if the second starts in a way that ends the last token of the
first. -/
theorem append (hp : Segment ps) (hq : Segment qs) (hb : BreaksNext qs) : Segment (ps ++ qs) := by
  refine ⟨?_, fun rs hrs hb' ↦ ?_⟩
  · rw [hp.head?_append]
    exact hp.starts
  · rw [List.append_assoc]
    refine hp.sound _ (hq.sound _ hrs hb') ?_
    rwa [BreaksNext, hq.head?_append]

/-- With a blank between them nothing has to be asked. -/
theorem blank (hp : Segment ps) (hq : Segment qs) : Segment (ps ++ .space .blank :: qs) := by
  refine ⟨?_, fun rs hrs hb ↦ ?_⟩
  · rw [hp.head?_append]
    exact hp.starts
  · rw [List.append_assoc]
    have starts : ∃ t, (qs ++ rs).head? = some (.text t) := by
      rw [hq.head?_append]
      exact hq.starts
    exact hp.sound _ ⟨trivial, starts, hq.sound _ hrs hb⟩ (by simp [BreaksNext])

/-- A text in front of a segment that it joins up with. -/
theorem cons (hs : IsSlice s) (hq : Segment qs) (hj : ∀ t, qs.head? = some (.text t) → Joins s t) :
    Segment (.text s :: qs) :=
  ⟨⟨s, rfl⟩, fun rs hrs hb ↦ ⟨hs, fun t ht ↦ hj t (hq.head?_append ▸ ht), hq.sound rs hrs hb⟩⟩

/-- Anything may stand directly behind a mark. -/
theorem punct_cons {p : Punct} (h : p ≠ .dot) (hq : Segment qs) : Segment (.text p.text :: qs) :=
  .cons (isSlice_of_isToken (isToken_punct p) rfl).1 hq fun t _ ↦ joins_punct h t

theorem punct (p : Punct) : Segment [.text p.text] := .token (isToken_punct p) rfl

/-- A mark behind a layout. -/
theorem append_punct {p : Punct} (hp : Segment ps) (h : p ≠ .dot) (h' : p ≠ .ellipsis) :
    Segment (ps ++ [.text p.text]) := by
  refine hp.append (.punct p) fun t ht ↦ ?_
  obtain rfl : p.text = t := by simpa using ht
  exact startsWithBreak_punct h h'

end Segment

/-- Layouts that may stand behind a segment. -/
def Continues (qs : List Piece) : Prop := ∀ ps, Segment ps → Segment (ps ++ qs)

namespace Continues

theorem nil : Continues [] := fun ps h ↦ by rwa [List.append_nil]

theorem blank (h : Segment qs) : Continues (.space .blank :: qs) := fun _ hp ↦ hp.blank h

/-- A segment that starts with a break can continue any other. -/
theorem segment (h : Segment qs) (hb : BreaksNext qs) : Continues qs := fun _ hp ↦ hp.append h hb

theorem punct {p : Punct} (h : p ≠ .dot) (h' : p ≠ .ellipsis) : Continues [.text p.text] :=
  fun _ hp ↦ hp.append_punct h h'

/-- A group, if there is one. -/
theorem group {opening closing : Punct} {part : Option String}
    (h : ∀ s ∈ part, IsGroup opening closing s) (h₁ : opening ≠ .dot) (h₂ : opening ≠ .ellipsis) :
    Continues (part.toList.map .text) := by
  cases part with
  | none => exact nil
  | some g =>
    have group := h g rfl
    refine segment (.text group.slice) fun t ht ↦ ?_
    obtain rfl : g = t := by simpa using ht
    exact startsWithBreak_of_isGroup group (startsWithBreak_punct h₁ h₂)

/-- A part behind a keyword continues any segment. -/
theorem introduced {word : String} {part : Option String} (hw : IsSlice word)
    (h : ∀ s ∈ part, IsSlice s) : Continues (introduced word part) := by
  cases part with
  | none => exact nil
  | some s => exact blank ((Segment.text hw).blank (.text (h s rfl)))

end Continues

theorem isSlice_keyword {k : Keyword} (h : k ∈ Keyword.all) : IsSlice k.text :=
  (isSlice_of_isToken (isToken_keyword k h) rfl).1

/-! ## Words that are printed -/

/-- The modifier `non-sealed` is three words, the middle one an operator. -/
theorem isSlice_nonSealed : IsSlice "non-sealed" ∧
    shapesOf "non-sealed" = [(.ident, "non"), (.operator, "-"), (.ident, "sealed")] := by
  have slice : IsSliceOf [⟨.ident, "", "non"⟩, ⟨.operator, "", "-"⟩, ⟨.ident, "", "sealed"⟩]
      "non-sealed" := by
    refine ⟨by decide +kernel, ?_, ⟨_, _, rfl, rfl, rfl⟩, [_, _], _, rfl, rfl⟩
    refine ⟨by simp [Lexer.Skipped], by decide +kernel, ?_, by simp [Lexer.Skipped],
      by decide +kernel, ?_,
      by simp [Lexer.Skipped], by decide +kernel, ?_, trivial⟩
    · simp [Lexer.Follows, Lexer.isIdentPart, Lexer.isIdentStart, Lexer.isLetter, Lexer.isDigit]
    · simp [Lexer.Follows]
    · simp [Lexer.Follows]
  exact ⟨⟨_, slice⟩, by rw [slice.shapesOf_eq]; rfl⟩

theorem isToken_modifier {m : Modifier} (h : m ∈ Modifier.reserved) :
    IsToken (.keyword (.modifier m)) m.keyword.toList :=
  isToken_keyword (.modifier m) (List.mem_append_right _ (List.mem_map_of_mem h))

theorem isName_sealed : IsName "sealed" :=
  (by decide +kernel : IsToken .ident "sealed".toList)

/-- Modifiers are reserved words, or one of the two that are not. -/
theorem modifier_cases (m : Modifier) : m ∈ Modifier.reserved ∨ m = .sealed ∨ m = .nonSealed := by
  cases m <;> decide

theorem isSlice_modifier (m : Modifier) : IsSlice m.keyword := by
  rcases modifier_cases m with h | rfl | rfl
  · exact (isSlice_of_isToken (isToken_modifier h) rfl).1
  · exact isName_sealed.isSlice.1
  · exact isSlice_nonSealed.1

/-! ## Parts of declarations -/

theorem segment_annotationPieces {a : Annotation} (h : a.WellFormed) :
    Segment (annotationPieces a) := by
  refine .punct_cons (p := .atSign) (by decide) ?_
  exact Continues.group h.arguments (by decide) (by decide) _ (.text h.name.isSlice)

/-- Modifiers in front of a segment, each with a blank. -/
theorem segment_modifierPieces (ms : Modifiers) (h : Segment ps) :
    Segment (modifierPieces ms ++ ps) := by
  rw [modifierPieces]
  induction ms.keywords with
  | nil => exact h
  | cons m ms ih =>
    rw [List.flatMap_cons, List.append_assoc]
    exact (Segment.text (isSlice_modifier m)).blank ih

theorem segment_paramPieces {p : Param} (h : p.WellFormed) : Segment (paramPieces p) := by
  have name : Segment [.text p.name] := .text h.name.isSlice.1
  have type : Segment [.text p.type] := .text h.type.slice
  have declared : Segment (.text p.type :: (if p.varargs then [.text "..."] else []) ++
      [.space .blank, .text p.name]) := by
    cases p.varargs with
    | true =>
      have ellipsis : Segment [.text Punct.ellipsis.text] := .punct .ellipsis
      refine (Segment.cons h.type.slice ellipsis fun t ht ↦ ?_).blank name
      obtain rfl : Punct.ellipsis.text = t := by simpa using ht
      exact Parser.Joins.of_isType h.type.isType rfl
    | false => exact type.blank name
  rw [paramPieces, List.append_assoc]
  cases hl : p.lead with
  | none => exact declared
  | some s => exact (Segment.text (h.lead s hl).slice).blank declared

/-- Layouts with commas between them are one. -/
theorem segment_separated {pss : List (List Piece)} (h : ∀ p ∈ pss, Segment p) (ne : pss ≠ []) :
    Segment (separated pss) := by
  induction pss with
  | nil => exact absurd rfl ne
  | cons p pss ih =>
    obtain ⟨hp, hps⟩ := List.forall_mem_cons.1 h
    cases pss with
    | nil => exact hp
    | cons q pss =>
      rw [separated]
      have comma : Segment (p ++ [.text ","]) :=
        hp.append_punct (p := .comma) (by decide) (by decide)
      have := comma.blank (ih hps (by simp))
      rwa [List.append_assoc] at this

/-- What stands in parentheses is a part of its own. -/
theorem segment_parenthesized {params : List Param} (h : ∀ p ∈ params, p.WellFormed) :
    Segment (.text "(" :: paramsPieces params ++ [.text ")"]) := by
  refine .punct_cons (p := .lparen) (by decide) ?_
  rw [paramsPieces]
  by_cases ne : params = []
  · rw [ne]
    exact .punct .rparen
  · refine (segment_separated ?_ (by simpa using ne)).append_punct (p := .rparen)
      (by decide) (by decide)
    exact List.forall_mem_map.2 fun p hp ↦ segment_paramPieces (h p hp)

/-- Parameters in parentheses continue a name. -/
theorem continues_parenthesized {params : List Param} (h : ∀ p ∈ params, p.WellFormed) :
    Continues (.text "(" :: paramsPieces params ++ [.text ")"]) := by
  refine .segment (segment_parenthesized h) fun t ht ↦ ?_
  obtain rfl : "(" = t := by simpa using ht
  exact startsWithBreak_punct (p := .lparen) (by decide) (by decide)

theorem continues_clausePieces {keyword : String} {types : List String} (hk : IsSlice keyword)
    (h : ∀ t ∈ types, IsType t) : Continues (clausePieces keyword types) := by
  rw [clausePieces]
  split
  · exact .nil
  next ne =>
    refine .blank ((Segment.text hk).blank (segment_separated ?_ (by simpa using ne)))
    exact List.forall_mem_map.2 fun t ht ↦ .text (h t ht).slice

theorem isName_permits : IsName "permits" :=
  (by decide +kernel : IsToken .ident "permits".toList)

theorem segment_kindPieces (kind : TypeKind) : Segment (kindPieces kind) := by
  cases kind with
  | classType => exact .text (isSlice_keyword (k := .classWord) (by decide))
  | interfaceType => exact .text (isSlice_keyword (k := .interfaceWord) (by decide))
  | enumType => exact .text (isSlice_keyword (k := .enumWord) (by decide))
  | recordType => exact .token (by decide +kernel : IsToken .ident "record".toList) rfl
  | annotationType =>
    exact .punct_cons (p := .atSign) (by decide)
      (.text (isSlice_keyword (k := .interfaceWord) (by decide)))

/-- The head of a declaration is a segment: each clause follows with a blank or in parentheses. -/
theorem segment_headPieces {decl : TypeDecl} (h : decl.HeadWellFormed) :
    Segment (headPieces decl) := by
  have name : Continues (.space .blank :: .text decl.name :: decl.typeParams.toList.map .text) :=
    .blank (Continues.group h.typeParams (by decide) (by decide) _ (.text h.name.isSlice.1))
  have components : Continues (if decl.kind = .recordType then
      .text "(" :: paramsPieces decl.components ++ [.text ")"] else []) := by
    split
    · exact continues_parenthesized h.components
    · exact .nil
  have brace : Continues [.space .blank, .text "\x7b"] := .blank (.punct .lbrace)
  have extending :=
    continues_clausePieces (isSlice_keyword (k := .extendsWord) (by decide)) h.extending
  have implementing :=
    continues_clausePieces (isSlice_keyword (k := .implementsWord) (by decide)) h.implementing
  have permitting := continues_clausePieces isName_permits.isSlice.1 h.permitting
  refine brace _ (permitting _ (implementing _ (extending _ (components _ (name _ ?_)))))
  exact segment_modifierPieces decl.modifiers (segment_kindPieces decl.kind)

theorem segment_typeParamsPieces {typeParams : Option String}
    (h : ∀ s ∈ typeParams, IsGroup .lt .gt s) (hp : Segment ps) :
    Segment (typeParamsPieces typeParams ++ ps) := by
  cases typeParams with
  | none => exact hp
  | some s => exact (Segment.text (h s rfl).slice).blank hp

/-- Moving a snippet keeps it a text up to the same marks. -/
theorem isTextUntil_snippet {stop : List Word → Bool} {marks : List TokenKind} {s : Snippet}
    (h : IsTextUntil stop marks s.text) (level : Nat) : IsTextUntil stop marks (snippet level s) :=
  h.reindent s.column (4 * level)

theorem segment_contentPieces {kind : TypeKind} {name : String} {c : Content}
    (h : c.WellFormed kind name) (level : Nat) : Segment (contentPieces level c) := by
  have semi : Continues [.text ";"] := .punct (p := .semi) (by decide) (by decide)
  have throws {part : Option String} (h : ∀ s ∈ part, IsTextUntil endsThrows throwsMarks s) :
      Continues (introduced "throws" part) :=
    .introduced (isSlice_keyword (k := .throwsWord) (by decide)) fun s hs ↦ (h s hs).slice
  have body {b : Snippet} (h : IsGroup .lbrace .rbrace b.text) :
      Continues [.space .blank, .text (snippet level b)] :=
        .blank (.text (isGroup_snippet h level).slice)
  cases c with
  | field f =>
    have init : Continues (introduced "=" (f.init.map (snippet level))) := by
      refine .introduced
        (isSlice_of_isToken (by decide +kernel : IsToken .operator "=".toList) rfl).1
        fun s hs ↦ ?_
      obtain ⟨i, hi, rfl⟩ := Option.map_eq_some_iff.1 hs
      exact (isTextUntil_snippet (h.init i hi) level).slice
    exact semi _ (init _ ((Segment.text h.type.slice).blank (.text h.name.isSlice.1)))
  | method m =>
    have name :
        Segment (typeParamsPieces m.typeParams ++ [.text m.result, .space .blank, .text m.name]) :=
      segment_typeParamsPieces h.typeParams
        ((Segment.text h.result.slice).blank (.text h.name.isSlice.1))
    have default : Continues (introduced "default" m.defaultValue) :=
      .introduced (isSlice_modifier .default) fun s hs ↦ (h.defaultValue s hs).slice
    have front :
        Segment (typeParamsPieces m.typeParams ++ [.text m.result, .space .blank, .text m.name] ++
          (.text "(" :: paramsPieces m.params ++ [.text ")"]) ++ introduced "throws" m.throws ++
          introduced "default" m.defaultValue) :=
      default _ (throws h.throws _ (continues_parenthesized h.params _ name))
    cases hb : m.body with
    | some b =>
      have whole := body (h.body b hb) _ front
      simpa [contentPieces, hb] using whole
    | none =>
      have whole := semi _ front
      simpa [contentPieces, hb] using whole
  | constructor c =>
    have name : Segment (typeParamsPieces c.typeParams ++ [.text c.name]) :=
      segment_typeParamsPieces h.typeParams (.text h.name.isSlice.1)
    have params : Continues (if c.compact then [] else
        .text "(" :: paramsPieces c.params ++ [.text ")"]) := by
      split
      · exact .nil
      · exact continues_parenthesized h.params
    have pieces : contentPieces level (.constructor c) =
        typeParamsPieces c.typeParams ++ [.text c.name] ++ (if c.compact then [] else
          .text "(" :: paramsPieces c.params ++ [.text ")"]) ++ introduced "throws" c.throws ++
          [.space .blank, .text (snippet level c.body)] := by
      simp [contentPieces]
    rw [pieces]
    exact body h.body _ (throws h.throws _ (params _ name))
  | initializer b => exact .text (isGroup_snippet h level).slice

theorem getLast?_shapesOf_of_isQualifiedName (h : IsQualifiedName s) :
    ∀ w ∈ (shapesOf s).getLast?, w.1 = .ident := by
  obtain ⟨first, segments, hf, hs, rfl⟩ := h
  obtain ⟨slice, shapes⟩ := hf.isSlice
  rw [(isSlice_dotted slice (by simp [shapes]) hs).2, shapes]
  rcases List.eq_nil_or_concat segments with rfl | ⟨front, x, rfl⟩
  · simp
  · rw [List.concat_eq_append, List.flatMap_append, ← List.append_assoc, List.getLast?_append]
    simp

theorem segment_importPieces {i : Import} (h : i.WellFormed) : Segment (importPieces i) := by
  have path : Segment [.text i.path] := .text h.path.isSlice
  have named : Segment (.text i.path :: (if i.wildcard then [.text ".*"] else [])) := by
    cases i.wildcard with
    | false => exact path
    | true =>
      have star : IsSlice ".*" :=
        (isSlice_dot (by decide +kernel : IsToken .operator "*".toList) rfl (by decide +kernel)).1
      refine .cons h.path.isSlice (.text star) fun t ht ↦ ?_
      obtain rfl : ".*" = t := by simpa using ht
      refine .of_dot h.path.isSlice (by decide +kernel) fun w hw ↦ ?_
      rw [getLast?_shapesOf_of_isQualifiedName h.path w hw]
      decide
  have imported : Segment ((if i.isStatic then [.text "static", .space .blank] else []) ++
      .text i.path :: (if i.wildcard then [.text ".*"] else [])) := by
    cases i.isStatic with
    | false => exact named
    | true => exact (Segment.text (isSlice_modifier .static)).blank named
  have line := (Segment.text (isSlice_keyword (k := .importWord) (by decide))).blank imported
  have pieces : importPieces i = ([.text "import"] ++ .space .blank ::
      ((if i.isStatic then [.text "static", .space .blank] else []) ++
        .text i.path :: (if i.wildcard then [.text ".*"] else []))) ++ [.text ";"] := by
    simp [importPieces]
  rw [pieces]
  exact line.append_punct (p := .semi) (by decide) (by decide)

/-! ## Lines -/

/-- Lines of segments are sound, since each is ended by a line feed. -/
theorem sound_lines {level : Nat} {apart : Bool} {doc : Option String} {ls : List (List Piece)}
    (h : ∀ l ∈ ls, Segment l) (hd : ∀ d ∈ doc, IsDoc d) (hq : Sound qs) (hb : BreaksNext qs) :
    Sound (lines level apart doc ls ++ qs) ∧ BreaksNext (lines level apart doc ls ++ qs) := by
  induction ls generalizing apart doc with
  | nil => exact ⟨hq, hb⟩
  | cons l ls ih =>
    obtain ⟨hl, hls⟩ := List.forall_mem_cons.1 h
    obtain ⟨sound, breaks⟩ := @ih false none hls (by simp)
    have starts : ∃ t, (l ++ (lines level false none ls ++ qs)).head? = some (.text t) := by
      rw [hl.head?_append]
      exact hl.starts
    rw [lines, List.cons_append, List.cons_append, List.append_assoc]
    exact ⟨⟨hd, starts, hl.sound _ sound breaks⟩, by simp [BreaksNext]⟩

theorem sound_line {level : Nat} {apart : Bool} (h : Segment ps) (hq : Sound qs)
    (hb : BreaksNext qs) :
    Sound (.space (.line apart level none) :: ps ++ qs) := by
  have := (@sound_lines _ level apart none [ps] (by simpa using h) (by simp) hq hb).1
  simpa [lines] using this

theorem sound_itemPieces {kind : TypeKind} {name : String} {i : Item} (h : i.WellFormed kind name)
    (level : Nat) (apart : Bool) (hq : Sound qs) (hb : BreaksNext qs) :
    Sound (itemPieces level apart i ++ qs) ∧ BreaksNext (itemPieces level apart i ++ qs) := by
  refine sound_lines ?_ (forall_isDoc_snippet h.doc level) hq hb
  intro l hl
  rcases List.mem_append.1 hl with hl | hl
  · obtain ⟨a, ha, rfl⟩ := List.mem_map.1 hl
    exact segment_annotationPieces (h.annotations a ha)
  · rw [List.mem_singleton.1 hl]
    exact segment_modifierPieces i.modifiers (segment_contentPieces h.content level)

theorem sound_constantsPieces {constants : Option Snippet} (level : Nat) (kind : TypeKind)
    (hasMembers : Bool) (h : ∀ s ∈ constants, IsTextUntil endsConstants [.punct .semi] s.text)
    (hq : Sound qs) (hb : BreaksNext qs) :
    Sound (constantsPieces level kind hasMembers constants ++ qs) ∧
      BreaksNext (constantsPieces level kind hasMembers constants ++ qs) := by
  cases constants with
  | some s =>
    refine ⟨sound_line ?_ hq hb, by simp [constantsPieces, BreaksNext]⟩
    have text : Segment [.text (snippet level s)] :=
      .text (isTextUntil_snippet (h s rfl) level).slice
    exact text.append_punct (p := .semi) (by decide) (by decide)
  | none =>
    rw [constantsPieces]
    split
    · exact ⟨sound_line (.punct .semi) hq hb, by simp [BreaksNext]⟩
    · exact ⟨hq, hb⟩

theorem sound_membersPieces {level : Nat} {ms : List Member}
    (h : ∀ m ∈ ms, ∀ apart qs, Sound qs → BreaksNext qs →
      Sound (memberPieces level apart m ++ qs) ∧ BreaksNext (memberPieces level apart m ++ qs))
    (first : Bool) (hq : Sound qs) (hb : BreaksNext qs) :
    Sound (membersPieces level first ms ++ qs) ∧
    BreaksNext (membersPieces level first ms ++ qs) := by
  induction ms generalizing first with
  | nil => exact ⟨hq, hb⟩
  | cons m ms ih =>
    obtain ⟨hm, hms⟩ := List.forall_mem_cons.1 h
    obtain ⟨sound, breaks⟩ := ih hms false
    rw [membersPieces, List.append_assoc]
    exact hm _ _ sound breaks

/-- The pieces of a declaration are sound in front of sound pieces, by induction on the types in
it. -/
theorem sound_typePieces {decl : TypeDecl} (h : decl.All TypeDecl.WellFormed) (level : Nat)
    (apart : Bool) (hq : Sound qs) (hb : BreaksNext qs) :
    Sound (typePieces level apart decl ++ qs) ∧ BreaksNext (typePieces level apart decl ++ qs) := by
  induction h generalizing level apart qs with
  | @mk decl here nested ih =>
    have each : ∀ m ∈ decl.members, ∀ apart qs, Sound qs → BreaksNext qs →
        Sound (memberPieces (level + 1) apart m ++ qs) ∧
          BreaksNext (memberPieces (level + 1) apart m ++ qs) := by
      intro m hm apart qs hq hb
      cases m with
      | item i => exact sound_itemPieces (here.items i hm) (level + 1) apart hq hb
      | type t => exact ih t hm (level + 1) apart hq hb
    have close : Sound ([.space (.line false level none), .text "\x7d"] ++ qs) :=
      sound_line (.punct .rbrace) hq hb
    obtain ⟨members, members'⟩ := sound_membersPieces each
      (constantsPieces (level + 1) decl.kind (!decl.members.isEmpty) decl.enumConstants).isEmpty
        close
      (by simp [BreaksNext])
    obtain ⟨constants, constants'⟩ :=
      sound_constantsPieces (level + 1) decl.kind (!decl.members.isEmpty)
      here.constants members members'
    rw [typePieces_eq]
    simp only [List.append_assoc] at constants constants' ⊢
    refine sound_lines ?_ (forall_isDoc_snippet here.head.doc level) constants constants'
    intro l hl
    rcases List.mem_append.1 hl with hl | hl
    · obtain ⟨a, ha, rfl⟩ := List.mem_map.1 hl
      exact segment_annotationPieces (here.head.annotations a ha)
    · rw [List.mem_singleton.1 hl]
      exact segment_headPieces here.head

theorem sound_typesPieces {ts : List TypeDecl} (h : ∀ t ∈ ts, t.All TypeDecl.WellFormed)
    (first : Bool) : Sound (typesPieces first ts) ∧ BreaksNext (typesPieces first ts) := by
  induction ts generalizing first with
  | nil => exact ⟨trivial, by simp [typesPieces, BreaksNext]⟩
  | cons t ts ih =>
    obtain ⟨ht, hts⟩ := List.forall_mem_cons.1 h
    obtain ⟨sound, breaks⟩ := ih hts false
    exact sound_typePieces ht 0 (!first) sound breaks

/-- The pieces of a well-formed file are sound: its print is tokenized into the words of its
pieces. -/
theorem sound_unitPieces {u : CompilationUnit} (h : u.WellFormed) : Sound (unitPieces u) := by
  obtain ⟨types, types'⟩ := sound_typesPieces h.types (u.package.isNone && u.imports.isEmpty)
  have header := forall_isDoc_snippet h.header 0
  have importLines : ∀ l ∈ u.imports.map importPieces, Segment l :=
    List.forall_mem_map.2 fun i hi ↦ segment_importPieces (h.imports i hi)
  rw [unitPieces]
  cases hp : u.package with
  | none =>
    rw [hp] at types types'
    exact (sound_lines importLines header types types').1
  | some p =>
    rw [hp] at types types'
    obtain ⟨imports, imports'⟩ :=
      @sound_lines _ 0 true none _ importLines (by simp) types types'
    rw [List.append_assoc]
    refine (sound_lines ?_ header imports imports').1
    intro l hl
    rcases List.mem_append.1 hl with hl | hl
    · obtain ⟨a, ha, rfl⟩ := List.mem_map.1 hl
      exact segment_annotationPieces (h.packageAnnotations a ha)
    · rw [List.mem_singleton.1 hl]
      have name : Segment [.text p] := .text (h.package p hp).isSlice
      exact ((Segment.text (isSlice_keyword (k := .packageWord) (by decide))).blank
        name).append_punct
        (p := .semi) (by decide) (by decide)

end PlatformOverlay.Java.Printer
