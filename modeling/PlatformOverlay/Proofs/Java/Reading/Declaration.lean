import PlatformOverlay.Proofs.Java.Reading.Content

/-!
# Reading types back

The head of a type is read word by word, its constants as one text, and its members one after the
other.  A type is read back if its nested types are (`typeDecl_of_fits_of_nested`), and so every
type is, by induction on the nesting (`typeDecl_of_fits`).

The clauses of a head come in a fixed order when they are printed, and each may be missing. They are
read back from the last to the first (`clauses_of_fits`): a clause is known to end where the next
one starts, whichever is the next one that is there.

`ReadsAsTypeDecl` is the statement of the induction. It speaks of what stands behind annotations and
modifiers, since those are read before it is known that a type follows, and it serves for types in a
file and for those among members.
-/

namespace PlatformOverlay.Java.Parser

open Lexer (IsToken)
open Printer

variable {ps qs : List Piece} {ws vs rest : List Word} {s : String} {level : Nat} {apart : Bool}
  {decl owner : TypeDecl}

/-! ## Where members start -/

/-- The comments and the column of a line are those of its first word. -/
theorem Begins.doc {doc : Option Snippet} (h : Begins level (doc.map (snippet level)) ws) :
    ws.head?.bind Word.doc = doc.map (·.printed level) ∧ startColumn ws = 4 * level := by
  obtain ⟨w, vs, rfl, hdoc, column⟩ := h
  refine ⟨?_, column⟩
  rw [List.head?_cons, Option.bind_some, hdoc, Option.map_map]
  rfl

/-- A member of a type starts here: neither does the body end, nor does an empty one stand here. -/
structure StartsMember (ws : List Word) : Prop where
  nonempty : ws ≠ []
  semi : isAt (.punct .semi) ws = false
  rbrace : isAt (.punct .rbrace) ws = false

/-- Anything but a semicolon and the closing brace starts a member. -/
theorem StartsMember.of_isAt {kind : TokenKind} (h : isAt kind ws = true)
    (semi : kind ≠ .punct .semi) (rbrace : kind ≠ .punct .rbrace) : StartsMember ws :=
  ⟨ne_nil_of_isAt h, by simp [isAt_eq_of_isAt h, semi], by simp [isAt_eq_of_isAt h, rbrace]⟩

/-- Annotations and modifiers are read up to a word of another kind, if it stands first. -/
theorem isAt_of_modifiers {kind : TokenKind} {r : List Annotation × Modifiers}
    (other : ∀ w ws, w.kind = kind → modifierAt (w :: ws) = none) (ne : kind ≠ .punct .atSign)
    (h : modifiers ws = .ok (r, vs)) (hv : isAt kind vs = false) : isAt kind ws = false := by
  cases hw : isAt kind ws with
  | false => rfl
  | true =>
    obtain ⟨w, us, rfl, hk⟩ := exists_of_isAt hw
    have none : modifiers (w :: us) = .ok (([], .empty), w :: us) :=
      modifiersAfter_of_none (other w us hk) (isAtAnnotation_of_isAt hw ne)
    rw [none] at h
    cases h
    exact hw.symm.trans hv

/-- What is in front of a member starts it as well. -/
theorem StartsMember.of_modifiers {r : List Annotation × Modifiers} (h : modifiers ws = .ok (r, vs))
    (hv : StartsMember vs) : StartsMember ws := by
  refine ⟨?_, isAt_of_modifiers (fun w ws hw ↦ by simp [modifierAt, hw]) (by decide) h hv.semi,
    isAt_of_modifiers (fun w ws hw ↦ by simp [modifierAt, hw]) (by decide) h hv.rbrace⟩
  rintro rfl
  exact hv.nonempty (List.suffix_nil.1 (walks_modifiers.shortens [] r vs h))

theorem StartsContent.startsMember (h : StartsContent ws) : StartsMember ws := by
  obtain ⟨kind, hk, hw⟩ := h.first
  simp only [List.mem_cons, List.not_mem_nil, or_false] at hk
  rcases hk with rfl | rfl | rfl <;> exact .of_isAt hw (by simp) (by simp)

/-- An item is read back: its comments, annotations, modifiers and content. -/
theorem item_of_fits {i : Item} {members : TypeDecl → Parser (List Member)}
    (h : i.WellFormed owner.kind owner.name) (unsealed : .sealed ∉ i.modifiers)
    (plain : i.content.PlainlyTyped) (hf : Fits (itemPieces level apart i) ws rest) :
    member members owner ws = .ok ([.item (i.printed level)], rest) ∧ StartsMember ws := by
  obtain ⟨begins, vs, hvs, read, -⟩ := modifiers_of_fits h.annotations
    (fun vs hvs ↦ (content_of_fits h.content plain hvs).1.startsDeclared unsealed) hf
  obtain ⟨hdoc, column⟩ := Begins.doc begins
  obtain ⟨starts, contents⟩ := content_of_fits h.content plain hvs
  refine ⟨?_, starts.startsMember.of_modifiers read⟩
  rw [member, lookAhead_bind, lookAhead_bind, hdoc, column, bind_of_ok read]
  dsimp only
  rw [get_bind]
  rcases contents with ⟨b, hb, brace, block⟩ | ⟨brace, contents⟩
  · rw [if_pos brace, bind_of_ok block, Item.printed, hb]
    rfl
  · rw [if_neg (by simp [brace]), if_neg (by simp [starts.type]), bind_of_ok contents]
    rfl

/-! ## Heads of types -/

/-- The modifiers of a type, as printed, are read as such. -/
theorem sealedBefore_of_printable (h : decl.Printable)
    (hv : decl.kind = .classType ∨ decl.kind = .interfaceType →
      vs.head?.any (followsSealed ·.kind) = true) : SealedBefore decl.modifiers.keywords vs := by
  intro front back e
  have mem : .sealed ∈ decl.modifiers := show .sealed ∈ decl.modifiers.keywords by simp [e]
  cases back with
  | nil => exact hv (h.kind mem)
  | cons m back =>
    have next : m ∈ decl.modifiers := show m ∈ decl.modifiers.keywords by simp [e]
    have direct : [.sealed, m] <:+: decl.modifiers.keywords := ⟨front, back, by simp [e]⟩
    have other : m ∉ unsealing := fun hm ↦ h.behind m hm direct
    have once : m ≠ .sealed := by
      rintro rfl
      have := decl.modifiers.nodup
      simp [e, List.nodup_append] at this
    have final : m ≠ .final := by
      rintro rfl
      exact h.final mem next
    have nonSealed : m ≠ .nonSealed := by
      rintro rfl
      exact h.nonSealed mem next
    cases m <;> simp_all [unsealing, followsSealed]

/-- What stands behind the name of a type. -/
def clausesPieces (decl : TypeDecl) : List Piece :=
  decl.typeParams.toList.map .text ++
    ((if decl.kind = .recordType then .text "(" :: paramsPieces decl.components ++
      [.text ")"] else []) ++
      (clausePieces "extends" decl.extending ++ (clausePieces "implements" decl.implementing ++
        (clausePieces "permits" decl.permitting ++ [.space .blank, .text "\x7b"]))))

/-- The head of a declaration as modifiers, keyword, name and clauses. -/
theorem headPieces_eq (decl : TypeDecl) : headPieces decl = modifierPieces decl.modifiers ++
    (kindPieces decl.kind ++ .space .blank :: .text decl.name :: clausesPieces decl) := by
  simp [headPieces, clausesPieces]

/-- A type of the kind is declared here. -/
structure StartsType (kind : TypeKind) (ws : List Word) : Prop where
  member : StartsMember ws
  modifier : modifierAt ws = none
  annotation : isAtAnnotation ws = false
  ends : EndsAnnotationUse ws
  sealed : kind = .classType ∨ kind = .interfaceType → ws.head?.any (followsSealed ·.kind) = true

/-- A type declaration starts with its keyword. -/
theorem StartsType.of_keyword {kind : TypeKind} {k : Keyword} {w : Word} (hw : w.kind = .keyword k)
    (hk : ∀ m, k ≠ .modifier m)
    (sealed : kind = .classType ∨ kind = .interfaceType → followsSealed (.keyword k) = true) :
    StartsType kind (w :: ws) := by
  have here : isAt (.keyword k) (w :: ws) = true := by simp [isAt_cons, hw]
  refine ⟨.of_isAt here (by simp) (by simp), ?_, isAtAnnotation_of_isAt here (by simp),
    .of_isAt here (by simp) (by simp), by simpa [hw] using sealed⟩
  cases k <;> simp_all [modifierAt]

/-- What starts a type may stand behind its modifiers, `sealed` and `non-sealed` included. -/
theorem StartsType.startsDeclared (h : StartsType decl.kind vs) (hp : decl.Printable) :
    StartsDeclared decl.modifiers.keywords vs :=
  ⟨h.modifier, h.annotation, h.ends, sealedBefore_of_printable hp h.sealed⟩

/-- The keyword of a declaration is known again. -/
theorem typeKindAt_of_fits_keyword {kind : TypeKind} {k : Keyword} (hk : k ∈ Keyword.all)
    (other : ∀ m, k ≠ .modifier m)
    (sealed : kind = .classType ∨ kind = .interfaceType → followsSealed (.keyword k) = true)
    (read : ∀ w vs, w.kind = .keyword k → typeKindAt (w :: vs) = some (kind, 1)) (name : IsName s)
    (hf : Fits (.text k.text :: .space .blank :: .text s :: ps) ws rest) :
    StartsType kind ws ∧ ∃ n vs, typeKindAt ws = some (kind, n) ∧
      ident "type name" (ws.drop n) = .ok (s, vs) ∧ Fits ps vs rest := by
  obtain ⟨w, _, rfl, hw, hf⟩ := fits_keyword hk hf
  obtain ⟨n, vs, rfl, hn, rfl, hvs⟩ := fits_name name hf
  exact ⟨.of_keyword hw other sealed, 1, vs, read w _ hw, ident_cons hn, hvs⟩

/-- The words that say of what kind a type is; parameters stand behind the name of a record. -/
theorem typeKindAt_of_fits {kind : TypeKind} (name : IsName s)
    (record : kind = .recordType → ∀ vs, Fits ps vs rest →
      isAt (.punct .lparen) vs = true ∨ isAt (.punct .lt) vs = true)
    (hf : Fits (kindPieces kind ++ .space .blank :: .text s :: ps) ws rest) :
    StartsType kind ws ∧ ∃ n vs, typeKindAt ws = some (kind, n) ∧
      ident "type name" (ws.drop n) = .ok (s, vs) ∧ Fits ps vs rest := by
  cases kind with
  | classType =>
    exact typeKindAt_of_fits_keyword (k := .classWord) (by decide) (by simp)
      (by simp [followsSealed])
      (fun w vs hw ↦ by simp [typeKindAt, hw]) name hf
  | interfaceType =>
    exact typeKindAt_of_fits_keyword (k := .interfaceWord) (by decide) (by simp)
      (by simp [followsSealed]) (fun w vs hw ↦ by simp [typeKindAt, hw]) name hf
  | enumType =>
    exact typeKindAt_of_fits_keyword (k := .enumWord) (by decide) (by simp) (by simp)
      (fun w vs hw ↦ by simp [typeKindAt, hw]) name hf
  | annotationType =>
    obtain ⟨v, _, rfl, hv, hf⟩ := fits_punct .atSign hf
    obtain ⟨w, _, rfl, hw, hf⟩ := fits_keyword (k := .interfaceWord) (by decide) hf
    obtain ⟨n, vs, rfl, hn, rfl, hvs⟩ := fits_name name hf
    have here : isAt (.punct .atSign) (v :: w :: n :: vs) = true := by simp [isAt_cons, hv]
    refine ⟨⟨.of_isAt here (by simp) (by simp), modifierAt_of_isAt here, ?_,
      .of_isAt here (by simp) (by simp), by simp⟩, 2, vs, ?_, ident_cons hn, hvs⟩
    · simp [ isAtAnnotation, isAt_cons, hw]
    · simp [typeKindAt, hv, isAt_cons, hw]
  | recordType =>
    have isRecord : IsName "record" := (by decide +kernel : IsToken .ident "record".toList)
    obtain ⟨w, _, rfl, hw, text, hf⟩ := fits_name isRecord hf
    obtain ⟨n, vs, rfl, hn, rfl, hvs⟩ := fits_name name hf
    have here : isAt .ident (w :: n :: vs) = true := by simp [isAt_cons, hw]
    refine ⟨⟨.of_isAt here (by simp) (by simp), ?_, isAtAnnotation_of_isAt here (by simp),
      .of_isAt here (by simp) (by simp), by simp⟩, 1, vs, ?_, ident_cons hn, hvs⟩
    · exact modifierAt_eq_none hw (by simp [hn, followsSealed]) (by simp [hn])
    · simp [typeKindAt, hw, text, isAt_cons, hn, record rfl vs hvs]

/-! ## Clauses -/

/-- Type parameters are read back, and the clauses go on. -/
theorem clauses_of_fits_typeParams {typeParams : Option String} (hd : decl.typeParams = none)
    (h : ∀ s ∈ typeParams, IsGroup .lt .gt s)
    (hf : Fits (typeParams.toList.map .text ++ ps) ws rest) :
    ∃ vs, Fits ps vs rest ∧ clauses decl ws = clauses { decl with typeParams } vs := by
  cases typeParams with
  | none =>
    refine ⟨ws, hf, ?_⟩
    cases decl
    cases hd
    rfl
  | some s =>
    obtain ⟨us, vs, rfl, hs, hvs⟩ := hf
    have lt : isAt (.punct .lt) (us ++ vs) = true := isAt_of_isGroup (h s rfl) hs
    refine ⟨vs, hvs, ?_⟩
    rw [clauses_eq, if_neg (by simp [isAt_eq_of_isAt lt]), if_pos ⟨lt, by simp [hd]⟩,
      bind_of_ok (sourceOf_balanced_of_spells (h s rfl) hs)]

theorem clauses_of_fits_components {components : List Param} (hd : decl.components = [])
    (h : ∀ p ∈ components, p.WellFormed) (record : components ≠ [] → decl.kind = .recordType)
    (hf : Fits ((if decl.kind = .recordType then .text "(" :: paramsPieces components ++ [.text ")"]
      else []) ++ ps) ws rest) :
    ∃ vs, Fits ps vs rest ∧ clauses decl ws = clauses { decl with components } vs := by
  by_cases hk : decl.kind = .recordType
  · rw [if_pos hk] at hf
    obtain ⟨vs, hparams, hvs⟩ := fits_append.1 hf
    have read := params_of_fits h hparams
    obtain ⟨o, us, rfl, ho, -⟩ := fits_punct .lparen hparams
    have paren : isAt (.punct .lparen) (o :: us) = true := by simp [isAt_cons, ho]
    refine ⟨vs, hvs, ?_⟩
    rw [clauses_eq, if_neg (by simp [isAt_eq_of_isAt paren]),
      if_neg (by simp [isAt_eq_of_isAt paren]),
      if_pos ⟨paren, hk⟩, bind_of_ok read]
  · rw [if_neg hk] at hf
    obtain rfl : components = [] := Decidable.byContradiction fun ne ↦ hk (record ne)
    refine ⟨ws, hf, ?_⟩
    cases decl
    cases hd
    rfl

/-- Here ends a list of types. -/
structure EndsTypes (ws : List Word) : Prop where
  type : EndsType ws
  comma : isAt (.punct .comma) ws = false

/-- A clause `next` puts into the declaration the types that stand behind its keyword. -/
theorem clauses_of_fits_types {keyword : String} {kind : TokenKind} {types : List String}
    (next : List String → TypeDecl) (token : IsToken kind keyword.toList)
    (comment : kind.isComment = false) (hk : kind ∉ .punct .comma :: continuesType)
    (none : next [] = decl)
    (some : ∀ w vs, w.shape = (kind, keyword) →
      clauses decl (w :: vs) = (do clauses (next (← typeList ())) : Parser TypeDecl) vs)
    (h : ∀ t ∈ types, IsType t) (hf : Fits (clausePieces keyword types ++ ps) ws rest)
    (hps : ∀ vs, Fits ps vs rest → EndsTypes vs) :
    EndsTypes ws ∧ ∃ vs, Fits ps vs rest ∧ clauses decl ws = clauses (next types) vs := by
  by_cases ne : types = []
  · obtain rfl := ne
    have hf : Fits ps ws rest := hf
    exact ⟨hps ws hf, ws, hf, by rw [none]⟩
  · rw [clausePieces, if_neg (by simpa using ne)] at hf
    obtain ⟨w, us, rfl, hw, hf⟩ := fits_token token comment hf
    obtain ⟨vs, htypes, hvs⟩ := fits_append.1 hf
    obtain ⟨ends, comma⟩ := hps vs hvs
    have here : isAt kind (w :: us) = true := by
      rw [isAt_cons]
      exact decide_eq_true (congrArg Prod.fst hw)
    refine ⟨⟨.of_isAt here fun mem ↦ hk (List.mem_cons_of_mem _ mem), ?_⟩, vs, hvs, ?_⟩
    · rw [isAt_eq_of_isAt here]
      exact decide_eq_false (by rintro rfl; exact hk List.mem_cons_self)
    · rw [some w us hw, bind_of_ok (typeList_of_fits h ne htypes ends comma)]

/-- What is known of the declaration when its name has been read. -/
def named (decl : TypeDecl) (doc : Option Snippet) : TypeDecl :=
  { TypeDecl.bare decl.kind decl.name with
    doc, annotations := decl.annotations, modifiers := decl.modifiers }

/-- What is known of the declaration in front of its body. -/
def headed (decl : TypeDecl) (doc : Option Snippet) : TypeDecl :=
  { named decl doc with
    typeParams := decl.typeParams
    components := decl.components
    extending := decl.extending
    implementing := decl.implementing
    permitting := decl.permitting }

theorem clauses_extends {w : Word} (h : w.shape = (.keyword .extendsWord, "extends")) :
    clauses decl (w :: ws) =
      (do clauses { decl with extending := ← typeList () } : Parser TypeDecl) ws := by
  have hw : w.kind = .keyword .extendsWord := congrArg Prod.fst h
  rw [clauses_eq, if_neg (by simp [isAt_cons, hw]), if_neg (by simp [isAt_cons, hw]),
    if_neg (by simp [isAt_cons, hw]), if_pos (by simp [isAt_cons, hw]), skip_bind]
  rfl

theorem clauses_implements {w : Word} (h : w.shape = (.keyword .implementsWord, "implements")) :
    clauses decl (w :: ws) =
      (do clauses { decl with implementing := ← typeList () } : Parser TypeDecl) ws := by
  have hw : w.kind = .keyword .implementsWord := congrArg Prod.fst h
  rw [clauses_eq, if_neg (by simp [isAt_cons, hw]), if_neg (by simp [isAt_cons, hw]),
    if_neg (by simp [isAt_cons, hw]), if_neg (by simp [isAt_cons, hw]),
    if_pos (by simp [isAt_cons, hw]), skip_bind]
  rfl

theorem clauses_permits {w : Word} (h : w.shape = (.ident, "permits")) :
    clauses decl (w :: ws) =
      (do clauses { decl with permitting := ← typeList () } : Parser TypeDecl) ws := by
  have hw : w.kind = .ident := congrArg Prod.fst h
  rw [clauses_eq, if_neg (by simp [isAt_cons, hw]), if_neg (by simp [isAt_cons, hw]),
    if_neg (by simp [isAt_cons, hw]), if_neg (by simp [isAt_cons, hw]),
    if_neg (by simp [isAt_cons, hw]), if_pos (by simp [isAtText_cons, h]), skip_bind]
  rfl

theorem brace_of_fits (hf : Fits [.space .blank, .text "\x7b"] ws rest) :
    EndsTypes ws ∧ ∃ o, o.kind = .punct .lbrace ∧ ws = o :: rest := by
  obtain ⟨o, vs, rfl, ho, rfl⟩ := fits_punct .lbrace hf
  have here : isAt (.punct .lbrace) (o :: vs) = true := by simp [isAt_cons, ho]
  exact ⟨⟨.of_isAt here (by decide), by simp [isAt_eq_of_isAt here]⟩, o, ho, rfl⟩

/-- The clauses are read back from the last to the first, so that each one knows what follows
it. -/
theorem permitting_of_fits {permitting : List String} (h : ∀ t ∈ permitting, IsType t)
    (hd : decl.permitting = [])
    (hf : Fits (clausePieces "permits" permitting ++ [.space .blank, .text "\x7b"]) ws rest) :
    EndsTypes ws ∧ ∃ o, o.kind = .punct .lbrace ∧
      clauses decl ws = .ok ({ decl with permitting }, o :: rest) := by
  have same : { decl with permitting := [] } = decl := by
    cases decl
    cases hd
    rfl
  obtain ⟨ends, vs, hvs, read⟩ := clauses_of_fits_types (fun permitting ↦ { decl with permitting })
    isName_permits rfl (by decide) same (fun _ _ ↦ clauses_permits) h hf
    fun vs hvs ↦ (brace_of_fits hvs).1
  obtain ⟨-, o, ho, rfl⟩ := brace_of_fits hvs
  refine ⟨ends, o, ho, ?_⟩
  rw [read, clauses_eq, if_pos (by simp [isAt_cons, ho])]
  rfl

theorem implementing_of_fits {implementing permitting : List String}
    (h : ∀ t ∈ implementing, IsType t) (hp : ∀ t ∈ permitting, IsType t)
    (hd : decl.implementing = []) (hd' : decl.permitting = [])
    (hf : Fits (clausePieces "implements" implementing ++ (clausePieces "permits" permitting ++
      [.space .blank, .text "\x7b"])) ws rest) :
    EndsTypes ws ∧ ∃ o, o.kind = .punct .lbrace ∧
      clauses decl ws = .ok ({ decl with implementing, permitting }, o :: rest) := by
  have same : { decl with implementing := [] } = decl := by
    cases decl
    cases hd
    rfl
  obtain ⟨ends, vs, hvs, read⟩ :=
    clauses_of_fits_types (fun implementing ↦ { decl with implementing })
    (isToken_keyword .implementsWord (by decide)) rfl (by decide) same
      (fun _ _ ↦ clauses_implements) h hf
    fun vs hvs ↦ (permitting_of_fits hp hd' hvs).1
  obtain ⟨-, o, ho, later⟩ :=
    permitting_of_fits hp (show { decl with implementing }.permitting = [] from hd') hvs
  exact ⟨ends, o, ho, read.trans later⟩

theorem extending_of_fits {extending implementing permitting : List String}
    (h : ∀ t ∈ extending, IsType t) (hi : ∀ t ∈ implementing, IsType t)
    (hp : ∀ t ∈ permitting, IsType t) (hd : decl.extending = []) (hd' : decl.implementing = [])
    (hd'' : decl.permitting = [])
    (hf : Fits (clausePieces "extends" extending ++ (clausePieces "implements" implementing ++
      (clausePieces "permits" permitting ++ [.space .blank, .text "\x7b"]))) ws rest) :
    EndsTypes ws ∧ ∃ o, o.kind = .punct .lbrace ∧
      clauses decl ws = .ok ({ decl with extending, implementing, permitting }, o :: rest) := by
  have same : { decl with extending := [] } = decl := by
    cases decl
    cases hd
    rfl
  obtain ⟨ends, vs, hvs, read⟩ := clauses_of_fits_types (fun extending ↦ { decl with extending })
    (isToken_keyword .extendsWord (by decide)) rfl (by decide) same (fun _ _ ↦ clauses_extends) h hf
    fun vs hvs ↦ (implementing_of_fits hi hp hd' hd'' hvs).1
  obtain ⟨-, o, ho, later⟩ :=
    implementing_of_fits hi hp (show { decl with extending }.implementing = [] from hd')
      (show { decl with extending }.permitting = [] from hd'') hvs
  exact ⟨ends, o, ho, read.trans later⟩

/-- All clauses are read back, up to the opening brace. -/
theorem clauses_of_fits (h : decl.HeadWellFormed) (doc : Option Snippet)
    (hf : Fits (clausesPieces decl) ws rest) :
    ∃ o, o.kind = .punct .lbrace ∧ clauses (named decl doc) ws =
      .ok (headed decl doc, o :: rest) := by
  obtain ⟨vs, hf, readTypeParams⟩ : ∃ vs, Fits _ vs rest ∧ clauses (named decl doc) ws =
      clauses { named decl doc with typeParams := decl.typeParams } vs :=
    clauses_of_fits_typeParams rfl h.typeParams hf
  obtain ⟨us, hf, readComponents⟩ : ∃ us, Fits _ us rest ∧
      clauses { named decl doc with typeParams := decl.typeParams } vs =
        clauses { named decl doc with typeParams := decl.typeParams, components :=
          decl.components } us :=
    clauses_of_fits_components rfl h.components h.record hf
  obtain ⟨-, o, ho, read⟩ : EndsTypes us ∧ ∃ o, o.kind = .punct .lbrace ∧
      clauses { named decl doc with typeParams := decl.typeParams, components :=
        decl.components } us =
        .ok (headed decl doc, o :: rest) :=
    extending_of_fits h.extending h.implementing h.permitting rfl rfl rfl hf
  exact ⟨o, ho, readTypeParams.trans (readComponents.trans read)⟩

/-! ## Bodies of types -/

/-- The constants of an enum are the text up to the semicolon, which is taken. -/
theorem enumConstants_of_ok {text : Option String} {b : Bool}
    (ht : textUntil endsConstants ws = .ok (text, vs))
    (hs : eat (.punct .semi) vs = .ok (b, rest)) :
    enumConstants ws = .ok (text.map (⟨·, startColumn ws⟩), rest) := by
  rw [enumConstants, lookAhead_bind]
  exact (bind_of_ok ht).trans ((bind_of_ok hs).trans rfl)

theorem enumConstants_of_fits {constants : Option Snippet} {hasMembers : Bool}
    (h : ∀ s ∈ constants, IsTextUntil endsConstants [.punct .semi] s.text)
    (hf : Fits (constantsPieces level .enumType hasMembers constants ++ ps) ws rest)
    (hps : hasMembers = false → ∀ vs, Fits ps vs rest → isAt (.punct .rbrace) vs = true) :
    ∃ vs, Fits ps vs rest ∧ enumConstants ws = .ok (constants.map (·.printed level), vs) := by
  cases constants with
  | some s =>
    obtain ⟨⟨w, xs, rfl, -, column⟩, us, vs, e, hs, hf⟩ := hf
    obtain ⟨v, vs, rfl, hv, hvs⟩ := fits_punct .semi hf
    have semi : isAt (.punct .semi) (v :: vs) = true := by simp [isAt_cons, hv]
    have text := textUntil_of_spells (isTextUntil_snippet (h s rfl) level) hs ⟨_, by simp, semi⟩
    rw [← e] at text
    refine ⟨vs, hvs, (enumConstants_of_ok text (eat_of_isAt semi)).trans ?_⟩
    simp [startColumn, column, Snippet.printed]
  | none =>
    cases hasMembers with
    | true =>
      obtain ⟨-, hf⟩ := hf
      obtain ⟨v, vs, rfl, hv, hvs⟩ := fits_punct .semi hf
      have semi : isAt (.punct .semi) (v :: vs) = true := by simp [isAt_cons, hv]
      have text :=
        textUntil_none_of_stop (show endsConstants (v :: vs) = true by simp [endsConstants, semi])
        (ne_nil_of_isAt semi)
      exact ⟨vs, hvs, enumConstants_of_ok text (eat_of_isAt semi)⟩
    | false =>
      have hf : Fits ps ws rest := hf
      have rbrace := hps rfl ws hf
      have text :=
        textUntil_none_of_stop (show endsConstants ws = true by simp [endsConstants, rbrace])
        (ne_nil_of_isAt rbrace)
      exact ⟨ws, hf, enumConstants_of_ok text (eat_of_not_isAt (by simp [isAt_eq_of_isAt rbrace]))⟩

/-- Only enums have constants. -/
theorem constants_of_fits {first : Bool} {outer : Nat} (h : decl.WellFormed)
    (hf : Fits (constantsPieces level decl.kind (!decl.members.isEmpty) decl.enumConstants ++
      (membersPieces level first decl.members ++ [.space (.line false outer none), .text "\x7d"]))
        ws rest) :
    ∃ vs, Fits (membersPieces level first decl.members ++
        [.space (.line false outer none), .text "\x7d"]) vs rest ∧
      (if decl.kind = .enumType then enumConstants else pure none : Parser (Option Snippet)) ws =
        .ok (decl.enumConstants.map (·.printed level), vs) := by
  by_cases hk : decl.kind = .enumType
  · rw [if_pos hk]
    rw [hk] at hf
    refine enumConstants_of_fits h.constants hf fun none vs hvs ↦ ?_
    obtain hm : decl.members = [] := by simpa using none
    rw [hm] at hvs
    obtain ⟨-, hvs⟩ := hvs
    obtain ⟨w, vs, rfl, hw, -⟩ := fits_punct .rbrace hvs
    simp [isAt_cons, hw]
  · have none : decl.enumConstants = none := Decidable.byContradiction fun ne ↦ hk (h.enum ne)
    rw [none, constantsPieces, if_neg (by simp [hk])] at hf
    exact ⟨ws, hf, by rw [if_neg hk, none]; rfl⟩

theorem members_of_isAt {w : Word} (hw : w.kind = .punct .rbrace) :
    members owner (w :: rest) = .ok ([], rest) := by
  have here : isAt (.punct .rbrace) (w :: rest) = true := by simp [isAt_cons, hw]
  rw [members_eq, membersRule, bind_of_ok (eat_of_not_isAt (by simp [isAt_eq_of_isAt here])),
    if_neg (by simp), bind_of_ok (eat_of_isAt here), if_pos rfl]
  rfl

/-- Words that start a member are read as that member, and further ones follow. -/
theorem members_of_startsMember (h : StartsMember ws) : members owner ws = (do
    let first ← member members owner
    return first ++ (← members owner) : Parser (List Member)) ws := by
  rw [members_eq, membersRule, bind_of_ok (eat_of_not_isAt h.semi), if_neg (by simp),
    bind_of_ok (eat_of_not_isAt h.rbrace), if_neg (by simp), lookAhead_bind,
    if_neg (by simpa using h.nonempty)]

theorem members_of_member {first ms : List Member} (starts : StartsMember ws)
    (h : member members owner ws = .ok (first, vs)) (hms : members owner vs = .ok (ms, rest)) :
    members owner ws = .ok (first ++ ms, rest) := by
  rw [members_of_startsMember starts, bind_of_ok h, bind_of_ok hms]
  rfl

/-- If each member is read back then so are all, up to the end of the body. -/
theorem members_of_fits {ms : List Member} (h : ∀ m ∈ ms, ∀ apart ws rest,
      Fits (memberPieces level apart m) ws rest →
        member members owner ws = .ok ([m.printed level], rest) ∧ StartsMember ws)
    {first : Bool} {outer : Nat}
    (hf : Fits (membersPieces level first ms ++ [.space (.line false outer none), .text "\x7d"]) ws
      rest) :
    members owner ws = .ok (printedMembers level ms, rest) := by
  induction ms generalizing first ws with
  | nil =>
    obtain ⟨-, hf⟩ := hf
    obtain ⟨w, vs, rfl, hw, rfl⟩ := fits_punct .rbrace hf
    exact members_of_isAt hw
  | cons m ms ih =>
    obtain ⟨hm, hms⟩ := List.forall_mem_cons.1 h
    rw [membersPieces, List.append_assoc] at hf
    obtain ⟨vs, hfirst, hlater⟩ := fits_append.1 hf
    obtain ⟨read, starts⟩ := hm _ _ _ hfirst
    exact members_of_member starts read (ih hms hlater)

theorem typeBody_of_ok {constants : Option Snippet} {ms : List Member} {o : Word} {us : List Word}
    (ho : o.kind = .punct .lbrace) (hm : members decl vs = .ok (ms, rest))
    (hc : (if decl.kind = .enumType then enumConstants else pure none) us = .ok (constants, vs)) :
    typeBody members decl (o :: us) =
      .ok ({ decl with enumConstants := constants, members := ms }, rest) := by
  rw [typeBody, bind_of_ok (expect_cons ho)]
  dsimp only
  split
  · rename_i hk
    rw [if_pos hk] at hc
    rw [bind_of_ok hc, bind_of_ok hm]
    rfl
  · rename_i hk
    rw [if_neg hk] at hc
    rw [bind_of_ok hc, bind_of_ok hm]
    rfl

/-! ## Types -/

/-- What is read behind the annotations and modifiers of a declaration, up to the rest, is the
declaration as it is printed. -/
structure ReadsAsTypeDecl (level : Nat) (decl : TypeDecl) (ws vs rest : List Word) : Prop where
  begins : Begins level (decl.doc.map (snippet level)) ws
  modifiers : modifiers ws = .ok ((decl.annotations, decl.modifiers), vs)
  bare : decl.annotations = [] → decl.modifiers.keywords = [] → vs = ws
  starts : StartsType decl.kind vs
  kind : (typeKindAt vs).isSome = true
  reads : typeDecl members (decl.doc.map (·.printed level)) decl.annotations decl.modifiers vs =
    .ok (decl.printed level, rest)

/-- What starts a type declaration is at none of the tokens that do not. -/
theorem isAt_of_typeKindAt {kind : TokenKind}
    (hk : ∀ w vs, w.kind = kind → typeKindAt (w :: vs) = none)
    (h : (typeKindAt ws).isSome = true) : isAt kind ws = false := by
  cases hb : isAt kind ws with
  | false => rfl
  | true =>
    obtain ⟨w, vs, rfl, hw⟩ := exists_of_isAt hb
    simp [hk w vs hw] at h

/-- A declaration that is read back is a member of another one. -/
theorem ReadsAsTypeDecl.member (h : ReadsAsTypeDecl level decl ws vs rest) :
    Parser.member members owner ws = .ok ([.type (decl.printed level)], rest) ∧
    StartsMember ws := by
  have brace : isAt (.punct .lbrace) vs = false :=
    isAt_of_typeKindAt (fun w vs hw ↦ by simp [typeKindAt, hw]) h.kind
  refine ⟨?_, h.starts.member.of_modifiers h.modifiers⟩
  rw [Parser.member, lookAhead_bind, lookAhead_bind, (Begins.doc h.begins).1,
    bind_of_ok h.modifiers]
  dsimp only
  rw [get_bind, if_neg (by simp [brace]), if_pos h.kind, bind_of_ok h.reads]
  rfl

/-- A record has its components or type parameters behind the name, by which it is known. -/
theorem parameters_of_record (h : decl.HeadWellFormed) (hk : decl.kind = .recordType)
    (hf : Fits (clausesPieces decl) ws rest) :
    isAt (.punct .lparen) ws = true ∨ isAt (.punct .lt) ws = true := by
  rw [clausesPieces, if_pos hk] at hf
  cases ht : decl.typeParams with
  | none =>
    rw [ht] at hf
    obtain ⟨w, vs, rfl, hw, -⟩ := fits_punct .lparen hf
    exact .inl (by simp [isAt_cons, hw])
  | some s =>
    rw [ht] at hf
    obtain ⟨us, vs, rfl, hs, -⟩ := hf
    exact .inr (isAt_of_isGroup (h.typeParams s ht) hs)

/-- A type is read back if the members of nested types are. -/
theorem typeDecl_of_fits_of_nested (h : decl.WellFormed) (hp : decl.Printable)
    (nested : ∀ t, .type t ∈ decl.members → ∀ apart ws rest,
      Fits (typePieces (level + 1) apart t) ws rest →
        ∃ vs, ReadsAsTypeDecl (level + 1) t ws vs rest)
    (hf : Fits (typePieces level apart decl) ws rest) :
    ∃ vs, ReadsAsTypeDecl level decl ws vs rest := by
  rw [typePieces_eq] at hf
  simp only [List.append_assoc] at hf
  obtain ⟨mid, front, body⟩ := fits_append.1 hf
  rw [headPieces_eq] at front
  have head : ∀ vs, Fits (kindPieces decl.kind ++ .space .blank :: .text decl.name ::
    clausesPieces decl) vs mid →
      StartsType decl.kind vs ∧ ∃ n us, typeKindAt vs = some (decl.kind, n) ∧
        ident "type name" (vs.drop n) = .ok (decl.name, us) ∧ Fits (clausesPieces decl) us mid :=
    fun vs ↦ typeKindAt_of_fits h.head.name fun hk us ↦ parameters_of_record h.head hk
  obtain ⟨begins, vs, hvs, read, bare⟩ := modifiers_of_fits h.head.annotations
    (fun vs hvs ↦ (head vs hvs).1.startsDeclared hp) front
  obtain ⟨starts, n, us, kind, name, hus⟩ := head vs hvs
  obtain ⟨o, ho, clauses⟩ := clauses_of_fits h.head (decl.doc.map (·.printed level)) hus
  obtain ⟨xs, hxs, constants⟩ := constants_of_fits h body
  have each : ∀ m ∈ decl.members, ∀ apart ws rest, Fits (memberPieces (level + 1) apart m) ws rest →
      member members (headed decl (decl.doc.map (·.printed level))) ws =
        .ok ([m.printed (level + 1)], rest) ∧ StartsMember ws := by
    intro m hm apart ws rest hf
    cases m with
    | item i => exact item_of_fits (h.items i hm) (hp.items i hm) (hp.plain i hm) hf
    | type t =>
      obtain ⟨vs, reads⟩ := nested t hm apart ws rest hf
      exact reads.member
  have members := members_of_fits each hxs
  refine ⟨vs, begins, read, bare, starts, by simp [kind], ?_⟩
  rw [typeDecl, lookAhead_bind, kind]
  dsimp only
  rw [skip_bind, bind_of_ok name]
  refine (bind_of_ok clauses).trans ((typeBody_of_ok ho members constants).trans ?_)
  rw [TypeDecl.printed_eq]
  cases decl
  rfl

/-- Well-formed declarations that can be printed are read back, by induction on the types in
them. -/
theorem typeDecl_of_fits (h : decl.All TypeDecl.WellFormed) (hp : decl.All TypeDecl.Printable)
    (hf : Fits (typePieces level apart decl) ws rest) :
    ∃ vs, ReadsAsTypeDecl level decl ws vs rest := by
  induction h generalizing level apart ws rest with
  | mk here _ ih =>
    obtain ⟨hp, hps⟩ := hp
    exact typeDecl_of_fits_of_nested here hp (fun t ht _ _ _ ↦ ih t ht (hps t ht)) hf

end PlatformOverlay.Java.Parser
