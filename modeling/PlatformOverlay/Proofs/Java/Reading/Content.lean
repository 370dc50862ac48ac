import PlatformOverlay.Proofs.Java.Printer.Printed
import PlatformOverlay.Proofs.Java.Reading.Part

/-!
# Reading fields, methods and constructors back

What an item declares is known by its first words: a block is an initializer, type parameters stand
in front of a method or a constructor, and what follows the name of a type is the list of parameters
of a method or the rest of a field.  From a printed item the parser so takes the same branch as
before (`content_of_fits`), where a field's type does not start with an annotation.

In front of an item stand its modifiers, and a word like `sealed` or `record` is a modifier, the
start of a type or a plain name depending on what follows. `StartsContent` has what later proofs
need to know of the first words of an item: no modifier, no type declaration and no constructor
starts there.
-/

namespace PlatformOverlay.Java.Parser

open Lexer (IsToken)
open Printer

variable {ps qs : List Piece} {ws vs rest : List Word} {s : String} {level : Nat}

/-! ## Where a type starts -/

theorem ReadsAsType.startsWithName (h : ReadsAsType ws) (hi : isAt .ident ws = true) :
    StartsWithName ws := by
  obtain ⟨w, vs, rfl, hw⟩ := exists_of_isAt hi
  refine ⟨w, vs, rfl, hw, fun v hv ↦ ?_⟩
  obtain ⟨us, rfl⟩ := List.head?_eq_some_iff.1 hv
  have read := h.2 []
  rw [List.append_nil, typeWords, bind_of_ok (typeAnnotations_of_ident hi),
    bind_of_ok (ident_cons hw),
    typeTail_of_endsType (show EndsType [] by simp [EndsType, isAt])] at read
  refine Decidable.byContradiction fun hk ↦ ?_
  have here : EndsType (v :: us) :=
    .of_isAt (show isAt v.kind (v :: us) = true by simp [isAt_cons]) hk
  rw [typeTail_of_endsType here] at read
  simp at read

/-- A type starts with an annotation or a name. -/
theorem ReadsAsType.starts (h : ReadsAsType ws) :
    isAt (.punct .atSign) ws = true ∨ StartsWithName ws := by
  cases ha : isAt (.punct .atSign) ws with
  | true => exact .inl rfl
  | false =>
    refine .inr (h.startsWithName ?_)
    have read := h.2 []
    have none : typeAnnotations () ws = .ok ((), ws) := by
      rw [typeAnnotations_eq, if_neg (by simp [ha])]
      rfl
    rw [List.append_nil, typeWords, bind_of_ok none,
      typeTail_of_endsType (show EndsType [] by simp [EndsType, isAt])] at read
    obtain ⟨_, _, hi, -⟩ := bind_eq_ok.1 read
    obtain ⟨w, rfl, hw, -⟩ := ident_eq_ok.1 hi
    simp [isAt_cons, hw]

/-- A type in front of a name is no constructor. -/
theorem isAtConstructor_of_startsWithName {owner : TypeDecl} (h : StartsWithName ws)
    (hr : isAt .ident rest = true) : isAtConstructor owner (ws ++ rest) = false := by
  obtain ⟨w, us, rfl, -, next⟩ := h
  have tail :
      isAt (.punct .lparen) (us ++ rest) = false ∧ isAt (.punct .lbrace) (us ++ rest) = false := by
    cases us with
    | nil => simp [isAt_eq_of_isAt hr]
    | cons v us =>
      have hv := next v rfl
      constructor
      · exact isAt_of_kind rfl (by rintro e; rw [e] at hv; revert hv; decide)
      · exact isAt_of_kind rfl (by rintro e; rw [e] at hv; revert hv; decide)
  simp [isAtConstructor, tail.1, tail.2]

/-- A type and a name do not look like a constructor. -/
theorem isAtConstructor_of_isType {owner : TypeDecl} {us : List Word} (h : IsType s)
    (hs : Spells us s) (hr : isAt .ident rest = true) :
    isAtConstructor owner (us ++ rest) = false := by
  rcases (h.of_spells hs).starts with ha | starts
  · simp [isAtConstructor, isAt_eq_of_isAt (isAt_append_of_isAt ha)]
  · exact isAtConstructor_of_startsWithName starts hr

/-- Unless it starts with an at sign, a type has no annotations. -/
theorem isPlainType_of_head? (h : IsType s) (hs : s.toList.head? ≠ some '@') : IsPlainType s := by
  refine ⟨h.slice, fun ws hws ↦ ⟨h.holds ws hws, ?_⟩⟩
  refine (h.holds ws hws).starts.resolve_left fun ha ↦ hs ?_
  obtain ⟨w, vs, rfl, hw⟩ := exists_of_isAt ha
  obtain ⟨v, hv, outline⟩ : ∃ v ∈ (shapesOf s).head?, v.outline = w.shape.outline := by
    have first := congrArg List.head? hws
    rw [List.map_cons, List.head?_cons, List.head?_map, eq_comm, Option.map_eq_some_iff] at first
    exact first
  obtain ⟨token, k, hk⟩ := h.slice.exists_of_head? hv
  have kind : v.1 = .punct .atSign := (congrArg Prod.fst outline).trans hw
  rw [kind] at token
  have text : v.2.toList = Punct.atSign.text.toList := toList_text_of_scan token
  have sign : Punct.atSign.text.toList = ['@'] := by decide +kernel
  rw [hk, text, sign]
  rfl

/-! ## Methods and constructors -/

/-- The exceptions of a method are read back up to its body. -/
theorem throwsClause_of_fits {throws : Option String}
    (h : ∀ s ∈ throws, IsTextUntil endsThrows throwsMarks s)
    (hf : Fits (introduced "throws" throws) ws rest)
    (hr : ∃ kind ∈ throwsMarks, isAt kind rest = true) :
    throwsClause ws = .ok (throws, rest) ∧
      ∃ kind ∈ .keyword .throwsWord :: throwsMarks, isAt kind ws = true := by
  cases throws with
  | none =>
    obtain rfl : ws = rest := hf
    have other : isAt (.keyword .throwsWord) ws = false := not_isAt_of_mem hr (by decide)
    obtain ⟨kind, hk, hr⟩ := hr
    refine ⟨?_, kind, List.mem_cons_of_mem _ hk, hr⟩
    rw [throwsClause, bind_of_ok (eat_of_not_isAt other)]
    rfl
  | some s =>
    obtain ⟨w, vs, rfl, hw, us, vs, rfl, hs, rfl⟩ := fits_keyword (k := .throwsWord) (by decide) hf
    have here : isAt (.keyword .throwsWord) (w :: (us ++ vs)) = true := by simp [isAt_cons, hw]
    refine ⟨?_, _, List.mem_cons_self, here⟩
    rw [throwsClause, bind_of_ok (eat_of_isAt here), if_pos rfl, List.tail_cons]
    exact (bind_of_ok (textUntil_of_spells (h s rfl) hs hr)).trans rfl

def bodyPieces (level : Nat) : Option Snippet → List Piece
  | some body => [.space .blank, .text (snippet level body)]
  | none => [.text ";"]

/-- A block is read back, moved to the column it was printed at. -/
theorem block_of_fits {body : Snippet} (h : IsGroup .lbrace .rbrace body.text)
    (hf : Fits [.text (snippet level body)] ws rest) :
    block (4 * level) ws = .ok (body.printed level, rest) ∧ isAt (.punct .lbrace) ws = true := by
  obtain ⟨us, vs, rfl, hs, rfl⟩ := hf
  have group := isGroup_snippet h level
  exact ⟨block_of_spells group hs, isAt_of_isGroup group hs⟩

theorem methodBody_of_fits {body : Option Snippet} (h : ∀ b ∈ body, IsGroup .lbrace .rbrace b.text)
    (hf : Fits (bodyPieces level body) ws rest) :
    methodBody (4 * level) ws = .ok (body.map (·.printed level), rest) ∧
      isAt (.punct (if body.isSome then .lbrace else .semi)) ws = true := by
  cases body with
  | none =>
    obtain ⟨w, vs, rfl, hw, rfl⟩ := fits_punct .semi hf
    rw [methodBody, lookAhead_bind, isAt_of_kind hw (by decide), if_neg (by simp),
      bind_of_ok (expect_cons hw)]
    exact ⟨rfl, by simp [isAt_cons, hw]⟩
  | some b =>
    obtain ⟨read, brace⟩ := block_of_fits (h b rfl) hf
    rw [methodBody, lookAhead_bind, if_pos brace, bind_of_ok read]
    exact ⟨rfl, brace⟩

/-- A default value stands in front of a semicolon. -/
theorem defaultValue_of_fits {value : Option String} {last : Punct}
    (h : ∀ s ∈ value, IsTextUntil (isAt (.punct .semi)) [.punct .semi] s)
    (hf : Fits (introduced "default" value) ws rest) (hl : last = .lbrace ∨ last = .semi)
    (hr : isAt (.punct last) rest = true) (semi : value.isSome → last = .semi) :
    (∃ kind ∈ throwsMarks, isAt kind ws = true) ∧
      ∃ vs, eat (.keyword (.modifier .default)) ws = .ok (value.isSome, vs) ∧
        (if value.isSome then textUntil (isAt (.punct .semi)) else pure none :
          Parser (Option String)) vs = .ok (value, rest) := by
  cases value with
  | none =>
    obtain rfl : ws = rest := hf
    refine ⟨⟨_, ?_, hr⟩, ws, eat_of_not_isAt (by simp [isAt_eq_of_isAt hr]), rfl⟩
    rcases hl with rfl | rfl <;> simp [throwsMarks]
  | some s =>
    obtain rfl := semi rfl
    obtain ⟨w, _, rfl, hw, us, vs, rfl, hs, rfl⟩ :=
      fits_keyword (k := .modifier .default) (by decide) hf
    have here : isAt (.keyword (.modifier .default)) (w :: (us ++ vs)) = true := by
      simp [isAt_cons, hw]
    exact ⟨⟨_, by simp [throwsMarks], here⟩, _, eat_of_isAt here,
      textUntil_of_spells (h s rfl) hs ⟨_, by simp, hr⟩⟩

/-- A method is read back from its parameter list on. -/
theorem method_of_fits {m : Method} (h : m.WellFormed)
    (hf : Fits (.text "(" :: paramsPieces m.params ++ [.text ")"] ++ introduced "throws" m.throws ++
      introduced "default" m.defaultValue ++ bodyPieces level m.body) ws rest) :
    method m.typeParams m.result m.name (4 * level) ws =
      .ok ({ m with body := m.body.map (·.printed level) }, rest) := by
  obtain ⟨typeParams, result, name, params, throws, body, defaultValue⟩ := m
  obtain ⟨zs, front, hbody⟩ := fits_append.1 hf
  obtain ⟨ys, front, hdefault⟩ := fits_append.1 front
  obtain ⟨xs, hparams, hthrows⟩ := fits_append.1 front
  obtain ⟨body_read, mark⟩ := methodBody_of_fits h.body hbody
  -- Behind the exceptions stands the default value or else the body.
  obtain ⟨mark', us, he, value_read⟩ := defaultValue_of_fits h.defaultValue hdefault
    (by cases body <;> simp) mark fun some ↦ by rw [show body = none from h.abstract some]; rfl
  obtain ⟨throws_read, mark''⟩ := throwsClause_of_fits h.throws hthrows mark'
  have dims := dims_of_not_isAt (not_isAt_of_mem mark'' (by decide))
  rw [method, bind_of_ok (params_of_fits h.params hparams), bind_of_ok dims, bind_of_ok throws_read,
    bind_of_ok he, String.append_empty]
  cases defaultValue <;> exact (bind_of_ok value_read).trans ((bind_of_ok body_read).trans rfl)

theorem constructor_of_fits {c : Constructor} {owner : TypeDecl}
    (h : c.WellFormed owner.kind owner.name)
    (hf : Fits (.text c.name :: (if c.compact then [] else .text "(" :: paramsPieces c.params ++
      [.text ")"]) ++
      introduced "throws" c.throws ++ [.space .blank, .text (snippet level c.body)]) ws rest) :
    constructor c.typeParams (4 * level) ws = .ok ({ c with body := c.body.printed level }, rest) ∧
      isAtConstructor owner ws = true := by
  obtain ⟨typeParams, name, params, compact, throws, body⟩ := c
  obtain ⟨zs, front, hbody⟩ := fits_append.1 hf
  obtain ⟨ys, front, hthrows⟩ := fits_append.1 front
  obtain ⟨w, xs, rfl, hw, rfl, hparams⟩ := fits_name h.name front
  obtain ⟨body_read, brace⟩ := block_of_fits h.body hbody
  obtain ⟨throws_read, -⟩ := throwsClause_of_fits h.throws hthrows ⟨_, by simp [throwsMarks], brace⟩
  rw [constructor, bind_of_ok (ident_cons hw), lookAhead_bind]
  cases compact with
  | true =>
    obtain ⟨record, owned, rfl, rfl⟩ := h.compact rfl
    obtain rfl : xs = ys := hparams
    obtain rfl : xs = zs := hthrows
    have none : isAt (.punct .lparen) xs = false := by simp [isAt_eq_of_isAt brace]
    refine ⟨?_, ?_⟩
    · rw [none]
      exact (bind_of_ok (pure_apply (a := []))).trans
        ((bind_of_ok throws_read).trans ((bind_of_ok body_read).trans rfl))
    · simp [isAtConstructor, isAt_cons, isAtText_cons, Word.shape, hw, brace, record, ← owned]
  | false =>
    have read := params_of_fits h.params hparams
    obtain ⟨o, us, rfl, ho, -⟩ := fits_punct .lparen hparams
    have paren : isAt (.punct .lparen) (o :: us) = true := by simp [isAt_cons, ho]
    refine ⟨?_, ?_⟩
    · rw [paren]
      exact (bind_of_ok read).trans
        ((bind_of_ok throws_read).trans ((bind_of_ok body_read).trans rfl))
    · simp [isAtConstructor, isAt_cons, hw, ho]

/-! ## Fields -/

theorem fieldInit_of_not_isAt {column : Nat} (h : isAt .operator ws = false) :
    fieldInit column ws = .ok (none, ws) := by
  have none : isAtText .operator "=" ws = false := by
    cases ws with
    | nil => rfl
    | cons w ws => simp_all [isAt_cons, isAtText_cons, Word.shape]
  rw [fieldInit, lookAhead_bind, none, if_neg (by simp)]
  rfl

theorem fieldInit_cons {column : Nat} {w : Word} (hw : w.shape = (.operator, "=")) :
    fieldInit column (w :: ws) = (do
      let text ← textUntil endsInitializer
      text.elim (fail (.absent "initializer")) fun text ↦ pure (some ⟨text, column⟩) :
        Parser (Option Snippet)) ws := by
  rw [fieldInit, lookAhead_bind, if_pos (by simp [isAtText_cons, hw]), skip_bind, List.drop_one,
    List.tail_cons]
  refine bind_congr_of_shortens (walks_textUntil _).shortens fun text _ _ ↦ ?_
  cases text <;> rfl

/-- An initializer is read back up to the semicolon. -/
theorem fieldInit_of_fits {init : Option Snippet}
    (h : ∀ s ∈ init, IsTextUntil endsInitializer [.punct .semi] s.text)
    (hf : Fits (introduced "=" (init.map (snippet level))) ws rest)
    (hr : isAt (.punct .semi) rest = true) :
    fieldInit (4 * level) ws = .ok (init.map (·.printed level), rest) ∧
      (isAt .operator ws = true ∨ isAt (.punct .semi) ws = true) := by
  cases init with
  | none =>
    obtain rfl : ws = rest := hf
    exact ⟨fieldInit_of_not_isAt (by simp [isAt_eq_of_isAt hr]), .inr hr⟩
  | some s =>
    obtain ⟨w, vs, rfl, hw, us, vs, rfl, hs, rfl⟩ :=
      fits_token (show IsToken .operator "=".toList by decide +kernel) rfl hf
    have read := textUntil_of_spells (isTextUntil_snippet (h s rfl) level) hs ⟨_, by simp, hr⟩
    refine ⟨?_, .inl ?_⟩
    · rw [fieldInit_cons hw, bind_of_ok read]
      rfl
    · have kind : w.kind = .operator := congrArg Prod.fst hw
      simp [isAt_cons, kind]

/-- A field is printed with one declarator, which is read back. -/
theorem declarators_of_fits {f : Field} (h : f.WellFormed)
    (hf : Fits (introduced "=" (f.init.map (snippet level)) ++ [.text ";"]) ws rest) :
    declarators f.type (4 * level) f.name ws =
        .ok ([{ f with init := f.init.map (·.printed level) }], rest) ∧
      (isAt .operator ws = true ∨ isAt (.punct .semi) ws = true) := by
  obtain ⟨vs, hinit, hsemi⟩ := fits_append.1 hf
  obtain ⟨w, vs, rfl, hw, rfl⟩ := fits_punct .semi hsemi
  obtain ⟨read, start⟩ := fieldInit_of_fits h.init hinit (by simp [isAt_cons, hw])
  have noBracket : isAt (.punct .lbracket) ws = false := by
    rcases start with hs | hs <;> simp [isAt_eq_of_isAt hs]
  have dims := dims_of_not_isAt noBracket
  refine ⟨?_, start⟩
  rw [declarators_eq, bind_of_ok dims, bind_of_ok read,
    bind_of_ok (eat_of_not_isAt (isAt_of_kind hw (by decide))), if_neg (by simp),
      String.append_empty]
  exact (bind_of_ok (expect_cons hw)).trans rfl

/-! ## What members start with -/

/-- Where a member that is no type goes on behind its modifiers. -/
structure StartsContent (ws : List Word) : Prop where
  first : ∃ kind ∈ [.ident, .punct .lt, .punct .lbrace], isAt kind ws = true
  modifier : modifierAt ws = none
  type : typeKindAt ws = none

/-- Type parameters or a block start a content. -/
theorem StartsContent.of_mark {p : Punct} (hp : p = .lt ∨ p = .lbrace)
    (h : isAt (.punct p) ws = true) : StartsContent ws := by
  obtain ⟨w, ws, rfl, hw⟩ := exists_of_isAt h
  refine ⟨⟨_, ?_, h⟩, modifierAt_of_isAt h, ?_⟩
  · rcases hp with rfl | rfl <;> simp
  · rcases hp with rfl | rfl <;> simp [typeKindAt, hw]

theorem StartsContent.of_name {w v : Word} (hw : w.kind = .ident)
    (hs : followsSealed v.kind = false)
    (hv : v.kind ≠ .operator)
    (hr : v.kind = .ident → w.text = "record" →
      isAt (.punct .lparen) ws = false ∧ isAt (.punct .lt) ws = false) :
    StartsContent (w :: v :: ws) := by
  refine ⟨⟨.ident, by simp, by simp [isAt_cons, hw]⟩, modifierAt_eq_none hw hs hv, ?_⟩
  simp only [typeKindAt, hw, isAt_cons, List.tail_cons, decide_eq_true_eq]
  refine if_neg ?_
  rintro ⟨text, kind, mark⟩
  obtain ⟨paren, lt⟩ := hr kind text
  simp [paren, lt] at mark

/-- A type and a name behind it; `record` is a type unless parameters follow. -/
theorem StartsContent.of_startsWithName {n : Word} (h : StartsWithName ws) (hn : n.kind = .ident)
    (hr : sourceText ws = "record" → isAt (.punct .lparen) rest = false ∧
      isAt (.punct .lt) rest = false) :
    StartsContent (ws ++ n :: rest) := by
  obtain ⟨w, us, rfl, hw, next⟩ := h
  cases us with
  | nil =>
    refine .of_name hw (by simp [hn, followsSealed]) (by simp [hn]) fun _ text ↦ hr ?_
    simpa [sourceText] using text
  | cons v us =>
    have hv := next v rfl
    obtain ⟨notSealed, notOperator⟩ := followsSealed_of_mem hv
    refine .of_name hw notSealed notOperator fun ident _ ↦ ?_
    rw [ident] at hv
    simp [continuesType] at hv

/-- A type without annotations and a name start a content. -/
theorem StartsContent.of_isPlainType {us : List Word} {n : Word} (h : IsPlainType s)
    (hs : Spells us s) (hn : n.kind = .ident)
    (hr : s = "record" → isAt (.punct .lparen) rest = false ∧ isAt (.punct .lt) rest = false) :
    StartsContent (us ++ n :: rest) :=
  .of_startsWithName (h.of_spells hs).2 hn (hs.source ▸ hr)

/-- What starts a content may stand behind any modifiers but `sealed`. -/
theorem StartsContent.startsDeclared {ms : List Modifier} (h : StartsContent ws)
    (hs : .sealed ∉ ms) :
    StartsDeclared ms ws := by
  obtain ⟨kind, hk, hw⟩ := h.first
  have ne : kind ≠ .punct .atSign ∧ kind ≠ .punct .dot ∧ kind ≠ .punct .lparen := by
    simp only [List.mem_cons, List.not_mem_nil, or_false] at hk
    rcases hk with rfl | rfl | rfl <;> simp
  refine ⟨h.modifier, isAtAnnotation_of_isAt hw ne.1, .of_isAt hw ne.2.1 ne.2.2, ?_⟩
  rintro front back rfl
  exact absurd (by simp) hs

/-- A constructor is a name with a mark behind it. -/
theorem StartsContent.of_isAtConstructor {owner : TypeDecl} (h : isAtConstructor owner ws = true) :
    StartsContent ws ∧ isAt .ident ws = true := by
  obtain ⟨ident, next⟩ := Bool.and_eq_true_iff.1 h
  obtain ⟨w, vs, rfl, hw⟩ := exists_of_isAt ident
  obtain ⟨p, hp, mark⟩ : ∃ p : Punct, (p = .lparen ∨ p = .lbrace) ∧ isAt (.punct p) vs = true := by
    rcases Bool.or_eq_true_iff.1 next with hp | hp
    · exact ⟨.lparen, .inl rfl, hp⟩
    · exact ⟨.lbrace, .inr rfl, (Bool.and_eq_true_iff.1 hp).2⟩
  obtain ⟨v, vs, rfl, hv⟩ := exists_of_isAt mark
  refine ⟨.of_name hw ?_ (by simp [hv]) (by simp [hv]), ident⟩
  rcases hp with rfl | rfl <;> simp [hv, followsSealed]

/-! ## Members that are no types -/

/-- Type parameters, and what a member goes on with behind them. -/
theorem contents_of_fits_typeParams (owner : TypeDecl) (column : Nat) {typeParams : Option String}
    (h : ∀ s ∈ typeParams, IsGroup .lt .gt s)
    (hf : Fits (typeParamsPieces typeParams ++ ps) ws rest)
    (hps : typeParams = none → ∀ vs, Fits ps vs rest → StartsContent vs ∧ isAt .ident vs = true) :
    StartsContent ws ∧ isAt (.punct .lbrace) ws = false ∧ ∃ vs, Fits ps vs rest ∧
      contents owner column ws = contentsAfter owner column typeParams vs := by
  cases typeParams with
  | none =>
    have hf : Fits ps ws rest := hf
    obtain ⟨starts, ident⟩ := hps rfl ws hf
    refine ⟨starts, by simp [isAt_eq_of_isAt ident], ws, hf, ?_⟩
    rw [contents_eq, if_neg (by simp [isAt_eq_of_isAt ident])]
  | some s =>
    obtain ⟨us, vs, rfl, hs, hvs⟩ := hf
    have lt : isAt (.punct .lt) (us ++ vs) = true := isAt_of_isGroup (h s rfl) hs
    refine ⟨.of_mark (.inl rfl) lt, by simp [isAt_eq_of_isAt lt], vs, hvs, ?_⟩
    rw [contents_eq, if_pos lt, bind_of_ok (sourceOf_balanced_of_spells (h s rfl) hs)]

theorem field_of_fits {f : Field} {owner : TypeDecl} (h : f.WellFormed)
    (plain : f.type.toList.head? ≠ some '@') (hf : Fits (contentPieces level (.field f)) ws rest) :
    StartsContent ws ∧ isAt (.punct .lbrace) ws = false ∧
      contents owner (4 * level) ws = .ok ([Content.printed level (.field f)], rest) := by
  obtain ⟨us, vs, rfl, hs, hvs⟩ := hf
  obtain ⟨n, vs, rfl, hn, name, hvs⟩ := fits_name h.name hvs
  have isPlain := isPlainType_of_head? h.type plain
  obtain ⟨read, start⟩ := declarators_of_fits h hvs
  have noMark : ∀ p : Punct, p ≠ .semi → isAt (.punct p) vs = false := by
    intro p hp
    rcases start with hs | hs
    · simp [isAt_eq_of_isAt hs]
    · rw [isAt_eq_of_isAt hs]
      exact decide_eq_false (by rintro ⟨⟩; exact hp rfl)
  have at_name : isAt .ident (n :: vs) = true := by simp [isAt_cons, hn]
  obtain ⟨ident, -⟩ := modifierAt_of_isPlainType isPlain hs at_name rfl (by decide)
  have starts : StartsContent (us ++ n :: vs) :=
    .of_isPlainType isPlain hs hn fun _ ↦ ⟨noMark .lparen (by decide), noMark .lt (by decide)⟩
  refine ⟨starts, by simp [isAt_eq_of_isAt ident], ?_⟩
  rw [contents_eq, if_neg (by simp [isAt_eq_of_isAt ident]), contentsAfter, lookAhead_bind,
    if_neg (by simp [isAtConstructor_of_isType h.type hs at_name]),
    bind_of_ok (type_of_spells h.type hs (.of_isAt at_name (by decide))),
      bind_of_ok (ident_cons hn),
    lookAhead_bind, if_neg (by simp [noMark .lparen]), name, bind_of_ok read]
  rfl

/-- The pieces of a method, with its type parameters in front. -/
theorem methodPieces_eq (m : Method) : contentPieces level (.method m) =
    typeParamsPieces m.typeParams ++ .text m.result :: .space .blank :: .text m.name ::
      (.text "(" :: paramsPieces m.params ++ [.text ")"] ++ introduced "throws" m.throws ++
        introduced "default" m.defaultValue ++ bodyPieces level m.body) := by
  cases h : m.body <;> simp [contentPieces, bodyPieces, h]

theorem contents_method_of_fits {m : Method} {owner : TypeDecl} (h : m.WellFormed)
    (hf : Fits (contentPieces level (.method m)) ws rest) :
    StartsContent ws ∧ isAt (.punct .lbrace) ws = false ∧
      contents owner (4 * level) ws = .ok ([Content.printed level (.method m)], rest) := by
  rw [methodPieces_eq] at hf
  obtain ⟨starts, brace, vs, hvs, contents⟩ :=
    contents_of_fits_typeParams owner (4 * level) h.typeParams hf fun none vs hvs ↦ by
      obtain ⟨us, vs, rfl, hs, hvs⟩ := hvs
      obtain ⟨n, vs, rfl, hn, -⟩ := fits_name h.name hvs
      obtain ⟨isPlain, ne⟩ := h.plain none
      obtain ⟨ident, -⟩ :=
        modifierAt_of_isPlainType isPlain hs (show isAt .ident (n :: vs) =
          true by simp [isAt_cons, hn])
          rfl (by decide)
      exact ⟨.of_isPlainType isPlain hs hn fun e ↦ absurd e ne, ident⟩
  obtain ⟨us, vs, rfl, hs, hvs⟩ := hvs
  obtain ⟨n, vs, rfl, hn, name, hvs⟩ := fits_name h.name hvs
  have at_name : isAt .ident (n :: vs) = true := by simp [isAt_cons, hn]
  have read := method_of_fits h hvs
  have paren : isAt (.punct .lparen) vs = true := by
    obtain ⟨o, xs, rfl, ho, -⟩ := fits_punct .lparen hvs
    simp [isAt_cons, ho]
  refine ⟨starts, brace, ?_⟩
  rw [contents, contentsAfter, lookAhead_bind,
    if_neg (by simp [isAtConstructor_of_isType h.result hs at_name]),
    bind_of_ok (type_of_spells h.result hs (.of_isAt at_name (by decide))),
      bind_of_ok (ident_cons hn),
    lookAhead_bind, if_pos paren, name, bind_of_ok read]
  rfl

theorem constructorPieces_eq (c : Constructor) : contentPieces level (.constructor c) =
    typeParamsPieces c.typeParams ++ (.text c.name :: (if c.compact then [] else
      .text "(" :: paramsPieces c.params ++ [.text ")"]) ++ introduced "throws" c.throws ++
        [.space .blank, .text (snippet level c.body)]) := by
  simp [contentPieces]

theorem contents_constructor_of_fits {c : Constructor} {owner : TypeDecl}
    (h : c.WellFormed owner.kind owner.name)
    (hf : Fits (contentPieces level (.constructor c)) ws rest) :
    StartsContent ws ∧ isAt (.punct .lbrace) ws = false ∧
      contents owner (4 * level) ws = .ok ([Content.printed level (.constructor c)], rest) := by
  rw [constructorPieces_eq] at hf
  obtain ⟨starts, brace, vs, hvs, contents⟩ :=
    contents_of_fits_typeParams owner (4 * level) h.typeParams hf fun _ _ hvs ↦
      StartsContent.of_isAtConstructor (constructor_of_fits h hvs).2
  obtain ⟨read, ctor⟩ := constructor_of_fits h hvs
  refine ⟨starts, brace, ?_⟩
  rw [contents, contentsAfter, lookAhead_bind, if_pos ctor, bind_of_ok read]
  rfl

/-- An initializer is a block, anything else is read from its first word on. -/
theorem content_of_fits {c : Content} {owner : TypeDecl} (h : c.WellFormed owner.kind owner.name)
    (plain : c.PlainlyTyped) (hf : Fits (contentPieces level c) ws rest) :
    StartsContent ws ∧
      ((∃ b, c = .initializer b ∧ isAt (.punct .lbrace) ws = true ∧
          block (4 * level) ws = .ok (b.printed level, rest)) ∨
        isAt (.punct .lbrace) ws = false ∧
          contents owner (4 * level) ws = .ok ([c.printed level], rest)) := by
  cases c with
  | field f => exact (field_of_fits h plain hf).imp_right .inr
  | method m => exact (contents_method_of_fits h hf).imp_right .inr
  | constructor c => exact (contents_constructor_of_fits h hf).imp_right .inr
  | initializer b =>
    obtain ⟨read, brace⟩ := block_of_fits h hf
    exact ⟨.of_mark (.inr rfl) brace, .inl ⟨b, rfl, brace, read⟩⟩

end PlatformOverlay.Java.Parser
