import PlatformOverlay.Proofs.Java.Parser.WellFormed
import PlatformOverlay.Proofs.Java.Printer.Sound

/-!
# Reading parts of declarations back

Words that fit the layout of a part of a declaration are read as that part, and as no more if what
follows does not go on with it.

`Fits` relates words to the pieces of a layout: to each text belong the words that spell it, and a
space in front of a word shows in its comments and its column only. Each lemma takes the words of a
part off the front, with whatever stands behind them.
-/

namespace PlatformOverlay.Java.Parser

open Lexer (IsToken)
open Printer

variable {ps qs : List Piece} {ws vs rest : List Word} {s : String}

/-! ## Words of a layout -/

/-- A piece that is a token is spelled by one word. -/
theorem fits_token {kind : TokenKind} (h : IsToken kind s.toList) (hk : kind.isComment = false)
    (hf : Fits (.text s :: ps) ws rest) :
    ∃ w vs, ws = w :: vs ∧ w.shape = (kind, s) ∧ Fits ps vs rest := by
  obtain ⟨us, vs, rfl, hs, hvs⟩ := hf
  obtain ⟨w, rfl, hw, ht⟩ := hs.of_isToken h hk
  exact ⟨w, vs, rfl, Prod.ext hw ht, hvs⟩

theorem fits_punct (p : Punct) (hf : Fits (.text p.text :: ps) ws rest) :
    ∃ w vs, ws = w :: vs ∧ w.kind = .punct p ∧ Fits ps vs rest := by
  obtain ⟨w, vs, rfl, hw, hvs⟩ := fits_token (isToken_punct p) rfl hf
  exact ⟨w, vs, rfl, congrArg Prod.fst hw, hvs⟩

theorem fits_keyword {k : Keyword} (h : k ∈ Keyword.all) (hf : Fits (.text k.text :: ps) ws rest) :
    ∃ w vs, ws = w :: vs ∧ w.kind = .keyword k ∧ Fits ps vs rest := by
  obtain ⟨w, vs, rfl, hw, hvs⟩ := fits_token (isToken_keyword k h) rfl hf
  exact ⟨w, vs, rfl, congrArg Prod.fst hw, hvs⟩

/-- A piece that is a name is spelled by an identifier. -/
theorem fits_name (h : IsName s) (hf : Fits (.text s :: ps) ws rest) :
    ∃ w vs, ws = w :: vs ∧ w.kind = .ident ∧ w.text = s ∧ Fits ps vs rest := by
  obtain ⟨w, vs, rfl, hw, hvs⟩ := fits_token h rfl hf
  exact ⟨w, vs, rfl, congrArg Prod.fst hw, congrArg Prod.snd hw, hvs⟩

/-- A reader is not at another kind of token. -/
theorem isAt_of_kind {w : Word} {kind kind' : TokenKind} (h : w.kind = kind) (ne : kind ≠ kind') :
    isAt kind' (w :: ws) = false := by
  rw [isAt_cons, h, decide_eq_false ne]

theorem not_isAt_of_mem {kinds : List TokenKind} {kind : TokenKind}
    (h : ∃ k ∈ kinds, isAt k ws = true) (ne : kind ∉ kinds) : isAt kind ws = false := by
  obtain ⟨k, hk, h⟩ := h
  rw [isAt_eq_of_isAt h]
  exact decide_eq_false fun e ↦ ne (e ▸ hk)

/-! ## Types and parameters -/

/-- Without a bracket there are no dimensions. -/
theorem dims_of_not_isAt (h : isAt (.punct .lbracket) ws = false) : dims ws = .ok ("", ws) := by
  have none : brackets ws = ("", ws) := by
    match ws with
    | [] => rfl
    | [_] => rfl
    | l :: r :: ws =>
      rw [brackets, if_neg]
      rintro ⟨hl, -⟩
      simp [isAt_cons, hl] at h
  exact congrArg Except.ok none

/-- Without a modifier or annotation in front, no more are read. -/
theorem modifiersAfter_of_none {r : List Annotation × Modifiers} (hm : modifierAt ws = none)
    (ha : isAtAnnotation ws = false) : modifiersAfter r ws = .ok (r, ws) := by
  obtain ⟨annotations, modifiers⟩ := r
  rw [modifiersAfter_eq, if_neg (by simp [ha]), lookAhead_bind, hm]
  rfl

/-- Where neither an annotation nor a modifier starts there is no lead. -/
theorem withSource_modifiers_of_none (hm : modifierAt ws = none) (ha : isAtAnnotation ws = false) :
    withSource modifiers ws = .ok ((none, ([], .empty)), ws) :=
  (withSource_append_iff : withSource modifiers ([] ++ ws) = _ ↔ _).2
    ⟨modifiersAfter_of_none hm ha, rfl⟩

theorem isAtAnnotation_of_isAt {kind : TokenKind} (h : isAt kind ws = true)
    (ne : kind ≠ .punct .atSign) : isAtAnnotation ws = false := by
  simp [ isAtAnnotation, isAt_eq_of_isAt h, ne]

theorem modifierAt_of_isAt {p : Punct} (h : isAt (.punct p) ws = true) : modifierAt ws = none := by
  obtain ⟨w, vs, rfl, hw⟩ := exists_of_isAt h
  simp [modifierAt, hw]

/-- A token that continues a type is not one that may follow `sealed`. -/
theorem followsSealed_of_mem {kind : TokenKind} (h : kind ∈ continuesType) :
    followsSealed kind = false ∧ kind ≠ .operator := by
  simp only [continuesType, List.mem_cons, List.not_mem_nil, or_false] at h
  rcases h with rfl | rfl | rfl <;> simp [followsSealed]

/-- A type without annotations is a name, behind which it goes on or something follows. -/
theorem words_of_isPlainType {us : List Word} {kind : TokenKind} (h : IsPlainType s)
    (hs : Spells us s) (hr : isAt kind rest = true) :
    ∃ w v vs, us ++ rest = w :: v :: vs ∧ w.kind = .ident ∧
      (v.kind ∈ continuesType ∨ v.kind = kind ∧ w.text = s ∧ rest = v :: vs) := by
  obtain ⟨-, w, us, rfl, hw, next⟩ := h.of_spells hs
  cases us with
  | nil =>
    obtain ⟨v, vs, rfl, hv⟩ := exists_of_isAt hr
    refine ⟨w, v, vs, rfl, hw, .inr ⟨hv, ?_, rfl⟩⟩
    have source := hs.source
    simpa [sourceText] using source
  | cons v us => exact ⟨w, v, us ++ rest, rfl, hw, .inl (next v rfl)⟩

/-- A plain type in front of its name is not taken for a modifier, not even if it is called
`sealed`. -/
theorem modifierAt_of_isPlainType {us : List Word} {kind : TokenKind} (h : IsPlainType s)
    (hs : Spells us s) (hr : isAt kind rest = true) (hk : followsSealed kind = false)
    (hk' : kind ≠ .operator) :
    isAt .ident (us ++ rest) = true ∧ modifierAt (us ++ rest) = none := by
  obtain ⟨w, v, vs, e, hw, next⟩ := words_of_isPlainType h hs hr
  rw [e]
  have both : followsSealed v.kind = false ∧ v.kind ≠ .operator := by
    rcases next with hv | ⟨rfl, -⟩
    · exact followsSealed_of_mem hv
    · exact ⟨hk, hk'⟩
  exact ⟨by simp [isAt_cons, hw], modifierAt_eq_none hw both.1 both.2⟩

theorem param_of_fits {p : Param} (h : p.WellFormed) (hf : Fits (paramPieces p) ws rest)
    (hr : isAt (.punct .lbracket) rest = false) : param ws = .ok (p, rest) := by
  obtain ⟨lead, declared, varargs, name⟩ := p
  have dims := dims_of_not_isAt hr
  have behind : ∀ {us}, Fits (.text declared :: (if varargs then [.text "..."] else []) ++
      [.space .blank, .text name]) us rest → isAt .ident us = true ∧ modifierAt us = none ∧
      ∃ vs xs, type us = .ok (declared, vs) ∧ eat (.punct .ellipsis) vs = .ok (varargs, xs) ∧
        ident "parameter name" xs = .ok (name, rest) := by
    rintro _ ⟨us, vs, rfl, hs, hvs⟩
    cases varargs with
    | true =>
      obtain ⟨e, vs, rfl, he, hvs⟩ := fits_punct .ellipsis hvs
      obtain ⟨w, vs, rfl, hw, rfl, rfl⟩ := fits_name h.name hvs
      have dots : isAt (.punct .ellipsis) (e :: w :: vs) = true := by simp [isAt_cons, he]
      obtain ⟨hi, hm⟩ := modifierAt_of_isPlainType h.type hs dots rfl (by decide)
      exact ⟨hi, hm, _, _, type_of_spells h.type.isType hs (.of_isAt dots (by decide)),
        eat_of_isAt dots, ident_cons hw⟩
    | false =>
      obtain ⟨w, vs, rfl, hw, rfl, rfl⟩ := fits_name h.name hvs
      have hn : isAt .ident (w :: vs) = true := by simp [isAt_cons, hw]
      obtain ⟨hi, hm⟩ := modifierAt_of_isPlainType h.type hs hn rfl (by decide)
      exact ⟨hi, hm, _, _, type_of_spells h.type.isType hs (.of_isAt hn (by decide)),
        eat_of_not_isAt (isAt_of_kind hw (by decide)), ident_cons hw⟩
  -- The lead, if there is one, is read in front of the type.
  have led : ∃ r us, withSource modifiers ws = .ok ((lead, r), us) ∧
      ∃ vs xs, type us = .ok (declared, vs) ∧ eat (.punct .ellipsis) vs = .ok (varargs, xs) ∧
        ident "parameter name" xs = .ok (name, rest) := by
    rw [paramPieces, List.append_assoc] at hf
    cases lead with
    | none =>
      obtain ⟨hi, hm, read⟩ := behind hf
      exact ⟨_, ws, withSource_modifiers_of_none hm (isAtAnnotation_of_isAt hi (by decide)), read⟩
    | some l =>
      obtain ⟨us, vs, rfl, hs, hvs⟩ := hf
      obtain ⟨hi, hm, read⟩ := behind hvs
      obtain ⟨r, hr⟩ := withSource_modifiers_of_spells (h.lead l rfl) hs hi hm
      exact ⟨r, vs, hr, read⟩
  obtain ⟨r, us, hl, vs, xs, ht, he, hn⟩ := led
  rw [param, bind_of_ok hl]
  dsimp only
  rw [bind_of_ok ht, bind_of_ok he, bind_of_ok hn, bind_of_ok dims, String.append_empty]
  rfl

/-- Neither the lead of a parameter nor its type starts with a closing parenthesis. -/
theorem isAt_rparen_of_param {p : Param} (h : param ws = .ok (p, rest)) :
    isAt (.punct .rparen) ws = false := by
  cases hr : isAt (.punct .rparen) ws with
  | false => rfl
  | true =>
    have none := isAtAnnotation_of_isAt hr (by decide)
    rw [param, bind_of_ok (withSource_modifiers_of_none (modifierAt_of_isAt hr) none)] at h
    obtain ⟨_, _, ht, -⟩ := bind_eq_ok.1 h
    have name := isAt_ident_of_type none ht
    simp [isAt_eq_of_isAt hr] at name

/-- Parameters are read back, by induction on the list. -/
theorem paramsTail_of_fits {params : List Param} (h : ∀ p ∈ params, p.WellFormed) (ne : params ≠ [])
    (hf : Fits (paramsPieces params ++ [.text ")"]) ws rest) :
    paramsTail () ws = .ok (params, rest) ∧ isAt (.punct .rparen) ws = false := by
  induction params generalizing ws with
  | nil => exact absurd rfl ne
  | cons p params ih =>
    obtain ⟨hp, hps⟩ := List.forall_mem_cons.1 h
    rw [paramsTail_eq]
    cases params with
    | nil =>
      obtain ⟨vs, hw, hvs⟩ := fits_append.1 hf
      obtain ⟨c, vs, rfl, hc, rfl⟩ := fits_punct .rparen hvs
      have first := param_of_fits hp hw (isAt_of_kind hc (by decide))
      refine ⟨?_, isAt_rparen_of_param first⟩
      rw [bind_of_ok first, bind_of_ok (eat_of_not_isAt (isAt_of_kind hc (by decide))),
        if_neg (by simp), bind_of_ok (expect_cons hc)]
      rfl
    | cons q params =>
      rw [paramsPieces, List.map_cons, List.map_cons, separated, List.append_assoc] at hf
      obtain ⟨vs, hw, hvs⟩ := fits_append.1 hf
      obtain ⟨c, vs, rfl, hc, hvs⟩ := fits_punct .comma hvs
      have first := param_of_fits hp hw (isAt_of_kind hc (by decide))
      obtain ⟨later, -⟩ := ih hps (by simp) hvs
      refine ⟨?_, isAt_rparen_of_param first⟩
      rw [bind_of_ok first, bind_of_ok (eat_of_isAt (by simp [isAt_cons, hc])), if_pos rfl,
        List.tail_cons, bind_of_ok later]
      rfl

theorem params_of_fits {params : List Param} (h : ∀ p ∈ params, p.WellFormed)
    (hf : Fits (.text "(" :: paramsPieces params ++ [.text ")"]) ws rest) :
    Parser.params ws = .ok (params, rest) := by
  obtain ⟨o, vs, rfl, ho, hvs⟩ := fits_punct .lparen hf
  rw [Parser.params, bind_of_ok (expect_cons ho)]
  by_cases ne : params = []
  · rw [ne] at hvs ⊢
    obtain ⟨c, vs, rfl, hc, rfl⟩ := fits_punct .rparen hvs
    rw [bind_of_ok (eat_of_isAt (by simp [isAt_cons, hc])), if_pos rfl]
    rfl
  · obtain ⟨read, other⟩ := paramsTail_of_fits h ne hvs
    rw [bind_of_ok (eat_of_not_isAt other), if_neg (by simp), read]

/-- Types with commas between them are read back, by induction on the list. -/
theorem typeList_of_fits {types : List String} (h : ∀ t ∈ types, IsType t) (ne : types ≠ [])
    (hf : Fits (separated (types.map fun t ↦ [.text t])) ws rest) (hr : EndsType rest)
    (hc : isAt (.punct .comma) rest = false) : typeList () ws = .ok (types, rest) := by
  induction types generalizing ws with
  | nil => exact absurd rfl ne
  | cons t types ih =>
    obtain ⟨ht, hts⟩ := List.forall_mem_cons.1 h
    rw [typeList_eq]
    cases types with
    | nil =>
      obtain ⟨us, vs, rfl, hs, rfl⟩ := hf
      rw [bind_of_ok (type_of_spells ht hs hr), bind_of_ok (eat_of_not_isAt hc)]
      rfl
    | cons u types =>
      obtain ⟨us, vs, rfl, hs, hvs⟩ := hf
      obtain ⟨c, vs, rfl, hcomma, hvs⟩ := fits_punct .comma hvs
      have comma : isAt (.punct .comma) (c :: vs) = true := by simp [isAt_cons, hcomma]
      rw [bind_of_ok (type_of_spells ht hs (.of_isAt comma (by decide))),
        bind_of_ok (eat_of_isAt comma),
        if_pos rfl, List.tail_cons, bind_of_ok (ih hts (by simp) hvs)]
      rfl

/-! ## Annotations and modifiers -/

theorem annotationUse_of_fits {a : Annotation} (h : a.WellFormed)
    (hf : Fits (annotationPieces a) ws rest) (hr : EndsAnnotationUse rest) :
    annotationUse ws = .ok (a, rest) := by
  obtain ⟨name, arguments⟩ := a
  obtain ⟨v, vs, rfl, hv, us, vs, rfl, hs, hvs⟩ := fits_punct .atSign hf
  rw [annotationUse, bind_of_ok (expect_cons hv)]
  cases arguments with
  | none =>
    obtain rfl : vs = rest := hvs
    rw [bind_of_ok (qualifiedName_of_spells h.name hs hr.1), lookAhead_bind, hr.2]
    rfl
  | some g =>
    obtain ⟨group, vs, rfl, hg, rfl⟩ := hvs
    have isGroup := h.arguments g rfl
    have paren : isAt (.punct .lparen) (group ++ vs) = true := isAt_of_isGroup isGroup hg
    rw [bind_of_ok (qualifiedName_of_spells h.name hs (by simp [isAt_eq_of_isAt paren])),
      lookAhead_bind, if_pos paren, bind_of_ok (sourceOf_balanced_of_spells isGroup hg)]
    rfl

/-- Different modifiers are all kept, in the order in which they come. -/
theorem keywords_foldl_push (ms : Modifiers) {ks : List Modifier} (h : (ms.keywords ++ ks).Nodup) :
    (ks.foldl Modifiers.push ms).keywords = ms.keywords ++ ks := by
  induction ks generalizing ms with
  | nil => simp
  | cons k ks ih =>
    have new : k ∉ ms := fun hk ↦ (List.nodup_append.1 h).2.2 k hk k List.mem_cons_self rfl
    have first := Modifiers.keywords_push_of_not_mem new
    rw [List.foldl_cons, ih, first, List.append_assoc]
    · rfl
    · rwa [first, List.append_assoc]

/-- The modifiers of a declaration come back from their keywords. -/
theorem foldl_push_keywords (ms : Modifiers) : ms.keywords.foldl Modifiers.push .empty = ms := by
  have keywords : (ms.keywords.foldl Modifiers.push .empty).keywords = ms.keywords :=
    keywords_foldl_push .empty ms.nodup
  generalize ms.keywords.foldl Modifiers.push .empty = pushed at keywords
  cases pushed
  cases ms
  cases keywords
  rfl

/-- Where `sealed` stands in front of another modifier or of `vs`, it is one itself. -/
def SealedBefore (ms : List Modifier) (vs : List Word) : Prop :=
  ∀ front back, ms = front ++ .sealed :: back →
    match back with
    | [] => vs.head?.any (followsSealed ·.kind) = true
    | m :: _ => followsSealed (.keyword (.modifier m)) = true

theorem StartsWithModifier.ends {m : Modifier} {n : Nat} (h : StartsWithModifier m n ws) :
    isAtAnnotation ws = false ∧ EndsAnnotationUse ws := by
  cases h with
  | keyword hw => simp [ isAtAnnotation, EndsAnnotationUse, isAt_cons, hw]
  | sealed hw _ =>
    have kind := congrArg Prod.fst hw
    dsimp only [Word.shape] at kind
    simp [ isAtAnnotation, EndsAnnotationUse, isAt_cons, kind]
  | nonSealed hw _ _ =>
    have kind := congrArg Prod.fst hw
    dsimp only [Word.shape] at kind
    simp [ isAtAnnotation, EndsAnnotationUse, isAt_cons, kind]

def keywordPieces (ms : List Modifier) : List Piece :=
  ms.flatMap fun m ↦ [.text m.keyword, .space .blank]

/-- A reserved modifier is spelled by its keyword. -/
theorem kind_of_spells_reserved {m : Modifier} {us : List Word} (h : m ∈ Modifier.reserved)
    (hs : Spells us m.keyword) : ∃ w, us = [w] ∧ w.kind = .keyword (.modifier m) := by
  obtain ⟨w, rfl, hw, -⟩ := hs.of_isToken (isToken_modifier h) rfl
  exact ⟨w, rfl, hw⟩

/-- The first of the printed modifiers is read as such: `sealed` is one only in front of what
may follow it. -/
theorem startsWithModifier_of_fits {m : Modifier} {ms : List Modifier}
    (hs : SealedBefore (m :: ms) vs)
    (hf : Fits (keywordPieces (m :: ms)) ws vs) :
    ∃ us xs, ws = us ++ xs ∧ StartsWithModifier m us.length ws ∧ Fits (keywordPieces ms) xs vs := by
  obtain ⟨us, xs, rfl, spells, hxs⟩ := hf
  refine ⟨us, xs, rfl, ?_, hxs⟩
  rcases modifier_cases m with h | rfl | rfl
  · obtain ⟨w, rfl, hw⟩ := kind_of_spells_reserved h spells
    exact .keyword hw
  · obtain ⟨w, rfl, hw, ht⟩ := spells.of_isName isName_sealed
    have next := hs [] ms rfl
    cases ms with
    | nil =>
      obtain rfl : xs = vs := hxs
      cases xs with
      | nil => simp at next
      | cons v xs => exact .sealed (Prod.ext hw ht) (by simpa using next)
    | cons k ms =>
      obtain ⟨us', xs, rfl, spells', -⟩ := hxs
      have reserved : k ∈ Modifier.reserved := by
        rcases modifier_cases k with h | rfl | rfl
        · exact h
        · simp [followsSealed] at next
        · simp [followsSealed] at next
      obtain ⟨v, rfl, hv⟩ := kind_of_spells_reserved reserved spells'
      exact .sealed (Prod.ext hw ht) (hv ▸ next)
  · have shapes := spells.shapes.trans isSlice_nonSealed.2
    obtain ⟨w, _, rfl, hw, shapes⟩ := List.map_eq_cons_iff.1 shapes
    obtain ⟨v, _, rfl, hv, shapes⟩ := List.map_eq_cons_iff.1 shapes
    obtain ⟨u, rfl, hu⟩ := List.map_eq_singleton_iff.1 shapes
    exact .nonSealed hw hv (congrArg Prod.snd hu)

/-- All modifiers are read back, by induction on the list. -/
theorem modifiersAfter_of_fits {ms : List Modifier} (hs : SealedBefore ms vs)
    (hm : modifierAt vs = none) (ha : isAtAnnotation vs = false)
    (hf : Fits (keywordPieces ms) ws vs)
    (r : List Annotation × Modifiers) :
    modifiersAfter r ws = .ok ((r.1, ms.foldl Modifiers.push r.2), vs) := by
  induction ms generalizing ws r with
  | nil =>
    obtain rfl : ws = vs := hf
    exact modifiersAfter_of_none hm ha
  | cons m ms ih =>
    obtain ⟨us, xs, rfl, starts, hxs⟩ := startsWithModifier_of_fits hs hf
    rw [modifiersAfter_eq, if_neg (by simp [starts.ends.1]), lookAhead_bind,
      modifierAt_eq_some_iff.2 starts]
    dsimp only
    rw [skip_bind, List.drop_left]
    exact ih (fun front back e ↦ hs (m :: front) back (by rw [e]; rfl)) hxs _

/-- What a declaration goes on with behind its annotations and modifiers. -/
structure StartsDeclared (ms : List Modifier) (vs : List Word) : Prop where
  modifier : modifierAt vs = none
  annotation : isAtAnnotation vs = false
  ends : EndsAnnotationUse vs
  sealed : SealedBefore ms vs

/-- Annotations on lines of their own are read up to the line behind them. -/
theorem annotations_of_fits {annotations : List Annotation} {level : Nat} {apart : Bool}
    {doc : Option String} {main : List Piece} (h : ∀ a ∈ annotations, a.WellFormed)
    (hmain : ∀ vs, Fits main vs rest → EndsAnnotationUse vs)
    (hf : Fits (lines level apart doc (annotations.map annotationPieces ++ [main])) ws rest) :
    Begins level doc ws ∧ EndsAnnotationUse ws ∧ ∃ vs, Fits main vs rest ∧
      (annotations = [] → vs = ws) ∧
      ∀ r, modifiersAfter r ws = modifiersAfter (r.1 ++ annotations, r.2) vs := by
  induction annotations generalizing apart doc ws with
  | nil =>
    obtain ⟨begins, hf⟩ := hf
    have hf : Fits (main ++ []) ws rest := hf
    rw [List.append_nil] at hf
    exact ⟨begins, hmain ws hf, ws, hf, fun _ ↦ rfl, fun r ↦ by rw [List.append_nil]⟩
  | cons a annotations ih =>
    obtain ⟨ha, has⟩ := List.forall_mem_cons.1 h
    obtain ⟨begins, hf⟩ := hf
    obtain ⟨xs, first, later⟩ := fits_append.1 hf
    obtain ⟨-, ends, vs, hvs, -, read⟩ := ih has later
    have read_a := annotationUse_of_fits ha first ends
    have at_a := isAtAnnotation_of_annotationUse read_a
    refine ⟨begins, ?_, vs, hvs, by simp, fun r ↦ ?_⟩
    · exact .of_isAt (Bool.and_eq_true_iff.1 at_a).1 (by decide) (by decide)
    · rw [modifiersAfter_eq, if_pos at_a, bind_of_ok read_a, read, List.append_assoc]
      rfl

/-- Annotations on their own lines and modifiers in front of a declaration are read back. -/
theorem modifiers_of_fits {annotations : List Annotation} {ms : Modifiers} {level : Nat}
    {apart : Bool}
    {doc : Option String} {body : List Piece} (h : ∀ a ∈ annotations, a.WellFormed)
    (hbody : ∀ vs, Fits body vs rest → StartsDeclared ms.keywords vs)
    (hf : Fits
      (lines level apart doc (annotations.map annotationPieces ++ [modifierPieces ms ++ body]))
      ws rest) :
    Begins level doc ws ∧ ∃ vs, Fits body vs rest ∧ modifiers ws = .ok ((annotations, ms), vs) ∧
      (annotations = [] → ms.keywords = [] → vs = ws) := by
  have main : ∀ vs, Fits (modifierPieces ms ++ body) vs rest → EndsAnnotationUse vs := by
    intro vs hvs
    obtain ⟨xs, keywords, hxs⟩ := fits_append.1 hvs
    have starts := hbody xs hxs
    change Fits (keywordPieces ms.keywords) vs xs at keywords
    cases hk : ms.keywords with
    | nil =>
      rw [hk] at keywords
      obtain rfl : vs = xs := keywords
      exact starts.ends
    | cons m ks =>
      rw [hk] at keywords starts
      obtain ⟨us, xs, rfl, modifier, -⟩ := startsWithModifier_of_fits starts.sealed keywords
      exact modifier.ends.2
  obtain ⟨begins, -, vs, hvs, bare, read⟩ := annotations_of_fits h main hf
  obtain ⟨xs, keywords, hxs⟩ := fits_append.1 hvs
  have starts := hbody xs hxs
  change Fits (keywordPieces ms.keywords) vs xs at keywords
  refine ⟨begins, xs, hxs, ?_, fun ha hk ↦ ?_⟩
  · rw [modifiers, read,
      modifiersAfter_of_fits starts.sealed starts.modifier starts.annotation keywords,
      foldl_push_keywords]
    rfl
  · rw [hk] at keywords
    obtain rfl : vs = xs := keywords
    exact bare ha

end PlatformOverlay.Java.Parser
