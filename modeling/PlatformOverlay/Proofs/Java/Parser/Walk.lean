import PlatformOverlay.Proofs.Java.Parser.Run

/-!
# The walk through the grammar

Every parser of the grammar stays within the words it is given, and many take at least one.  Each
rule is walked through once, step by step and for any bound on the faults; what is left and where
parsing fails are both read off that walk.

| walked through | lemma |
| --- | --- |
| a parser that may take no word | `walks_…` |
| a parser that takes a word | `strides_…` |
| a rule that refers to itself | `keepsWithin_…` |
| a rule that is given a parser for the members of nested types | `takes_…` |

In the lemmas of the last kind that parser may be any: only what it does behind at least one word
counts, so that they serve the finished grammar as well as a rule that is unfolded a few times.
-/

namespace PlatformOverlay.Java.Parser

variable {F : FaultBound} {ws : List Word}

/-! ## Groups -/

/-- The search for a closing token leaves a suffix. -/
theorem afterClosing_suffix {opening closing : TokenKind} {depth : Nat} {ws rest : List Word}
    (h : afterClosing opening closing depth ws = some rest) : rest <:+ ws := by
  fun_induction afterClosing opening closing depth ws with
  | case1 => simp at h
  | case2 _ _ _ _ ih => exact (ih h).trans (List.suffix_cons _ _)
  | case3 =>
    cases h
    exact List.suffix_cons _ _
  | case4 _ _ _ _ _ ih => exact (ih h).trans (List.suffix_cons _ _)
  | case5 _ _ _ _ _ ih => exact (ih h).trans (List.suffix_cons _ _)

/-- A group takes at least the mark that opens it.  One that is not closed is a fault where it
begins, not where the words end. -/
theorem strides_balanced (opening closing : Punct) : Strides (balanced opening closing) := by
  intro F ws
  cases ws with
  | nil =>
    have other : Cause.unexpectedEnd ≠ .stuck := by simp
    exact .of_fault rfl (F.of_cause [] other)
  | cons w ws =>
    cases h : afterClosing (.punct opening) (.punct closing) 0 ws with
    | none =>
      have failed :
          balanced opening closing (w :: ws) = .error (faultAt .unbalanced (w :: ws)) := by
        rw [balanced, h]
        rfl
      exact .of_fault failed (F.of_cause _ (by simp))
    | some rest =>
      have suffix := afterClosing_suffix h
      have taken : balanced opening closing (w :: ws) = .ok ((), rest) := by rw [balanced, h]
      exact .of_ok taken ⟨suffix.trans (List.suffix_cons w ws), Nat.lt_succ_of_le suffix.length_le⟩

theorem seek_suffix {stop : List Word → Bool} {depth : Nat} {ws rest : List Word}
    (h : seek stop depth ws = .ok rest) : rest <:+ ws := by
  fun_induction seek stop depth ws with
  | case1 => simp at h
  | case2 =>
    cases h
    exact List.suffix_rfl
  | case3 _ _ _ _ _ ih => exact (ih h).trans (List.suffix_cons _ _)
  | case4 => simp at h
  | case5 _ _ _ _ _ _ ih => exact (ih h).trans (List.suffix_cons _ _)
  | case6 _ _ _ _ _ _ ih => exact (ih h).trans (List.suffix_cons _ _)

/-- Looking for a mark fails at a mark that closes too much, or at the end. -/
theorem allows_of_seek {stop : List Word → Bool} {depth : Nat} {fault : Fault}
    (h : seek stop depth ws = .error fault) : F.Allows ws fault := by
  fun_induction seek stop depth ws with
  | case1 =>
    cases h
    exact F.of_cause [] (by simp)
  | case2 => cases h
  | case3 _ _ _ _ _ ih => exact F.of_suffix (List.suffix_cons _ _) (ih h)
  | case4 w ws =>
    cases h
    exact F.of_cause (w :: ws) (by simp)
  | case5 _ _ _ _ _ _ ih => exact F.of_suffix (List.suffix_cons _ _) (ih h)
  | case6 _ _ _ _ _ _ ih => exact F.of_suffix (List.suffix_cons _ _) (ih h)

/-- A text up to a mark may be empty, so it is read without a step back but not always with a
word. -/
theorem walks_textUntil (stop : List Word → Bool) : Walks (textUntil stop) := by
  intro F ws
  refine .bind (.withSource ?_) fun _ _ _ ↦ .pure
  cases h : seek stop 0 ws with
  | ok rest => exact .of_ok (a := ()) (by rw [h]; rfl) (seek_suffix h)
  | error fault => exact .of_fault (by rw [h]; rfl) (allows_of_seek h)

/-- A reader of source walks as the reader below it does. -/
theorem walks_sourceOf {p : Parser Unit} (hp : Walks p) : Walks (sourceOf p) := by
  intro F ws
  exact .bind (.withSource (hp F ws)) fun _ _ _ ↦ .pure

theorem strides_sourceOf {p : Parser Unit} (hp : Strides p) : Strides (sourceOf p) := by
  intro F ws
  exact .bind (.withSource (hp F ws)) fun _ _ _ ↦ .pure

theorem strides_block (column : Nat) : Strides (block column) := by
  intro F ws
  refine .lookAhead_bind (.ite (fun _ ↦ ?_) fun _ ↦ .failExpecting)
  exact .bind (strides_sourceOf (strides_balanced _ _) F ws) fun _ _ _ ↦ .pure

/-! ## Names and imports -/

theorem segments_suffix (ws : List Word) : (segments ws).2 <:+ ws := by
  fun_induction segments ws with
  | case1 dot w ws h rest ih =>
    exact ih.trans ((List.suffix_cons w ws).trans (List.suffix_cons dot _))
  | case2 => exact List.suffix_rfl
  | case3 => exact List.suffix_rfl

theorem strides_qualifiedName (what : String) : Strides (qualifiedName what) := by
  intro F ws
  refine .bind .expect fun first vs _ ↦ ?_
  exact .bind (.of_ok rfl (segments_suffix vs)) fun _ _ _ ↦ .pure

theorem strides_annotationUse : Strides annotationUse := by
  intro F ws
  refine .bind .expect fun _ vs _ ↦ ?_
  refine .bind (strides_qualifiedName _ F vs).within fun name us _ ↦ .lookAhead_bind ?_
  refine .ite (fun _ ↦ ?_) fun _ ↦ .pure
  exact .bind (walks_sourceOf (strides_balanced _ _).walks F us) fun _ _ _ ↦ .pure

/-- A rule keeps within a bound when it does so with calls that do. From this lemma, the
fixpoint of the rule walks. -/
theorem keepsWithin_importPathRule : KeepsWithin importPathRule := by
  intro F importPath path ws called
  refine .eat_bind (fun vs hv ↦ ?_) .pure
  refine .lookAhead_bind (.ite (fun _ ↦ .bind .skip fun _ _ _ ↦ .pure) fun _ ↦ ?_)
  exact .bind_takes .expect fun segment us hu ↦ called _ us (hu.trans_suffix hv.1)

theorem walks_importPath (path : String) : Walks (importPath path) :=
  keepsWithin_importPathRule.walks path

theorem strides_importDecl : Strides importDecl := by
  intro F ws
  refine .bind .expect fun _ vs _ ↦ .bind .eat fun isStatic us _ ↦ ?_
  refine .bind (Takes.expect).within fun first xs _ ↦ ?_
  refine .bind (walks_importPath first F xs) fun path ys _ ↦ ?_
  exact .bind (Takes.expect).within fun _ _ _ ↦ .pure

/-! ## Modifiers, types and parameters -/

theorem behind_of_modifierAt {m : Modifier} {n : Nat} (h : modifierAt ws = some (m, n)) :
    Behind (ws.drop n) ws := by
  cases ws with
  | nil => simp [modifierAt] at h
  | cons w ws =>
    refine behind_drop (List.cons_ne_nil w ws) ?_
    rw [modifierAt] at h
    split at h
    · cases h
      exact Nat.one_pos
    · split at h
      · cases h
        exact Nat.one_pos
      split at h
      · cases h
        exact Nat.succ_pos 2
      · simp at h
    · simp at h

theorem keepsWithin_modifiersRule : KeepsWithin modifiersRule := by
  rintro F modifiersAfter ⟨annotations, modifiers⟩ ws called
  refine .lookAhead_bind (.ite (fun _ ↦ ?_) fun _ ↦ .lookAhead_bind ?_)
  · exact .bind_takes (strides_annotationUse F ws) fun a vs hv ↦ called _ vs hv
  · cases h : modifierAt ws with
    | none => exact .pure
    | some r =>
      refine Within.bind_of_left .skip fun _ vs hv ↦ ?_
      cases hv
      exact called _ _ (behind_of_modifierAt h)

theorem walks_modifiersAfter (s : List Annotation × Modifiers) : Walks (modifiersAfter s) :=
  keepsWithin_modifiersRule.walks s

theorem walks_modifiers : Walks modifiers := walks_modifiersAfter _

theorem keepsWithin_typeAnnotationsRule : KeepsWithin typeAnnotationsRule := by
  intro F typeAnnotations _ ws called
  refine .lookAhead_bind (.ite (fun _ ↦ ?_) fun _ ↦ .pure)
  exact .bind_takes (strides_annotationUse F ws) fun _ vs hv ↦ called () vs hv

theorem walks_typeAnnotations : Walks (typeAnnotations ()) :=
  keepsWithin_typeAnnotationsRule.walks ()

theorem keepsWithin_typeTailRule : KeepsWithin typeTailRule := by
  intro F typeTail _ ws called
  refine .get_bind (.ite (fun segment ↦ ?_) fun _ ↦ .ite (fun _ ↦ ?_) fun _ ↦ ?_)
  · have ne := ne_nil_of_isAt (Bool.and_eq_true_iff.1 segment).1
    exact .skip_bind ne Nat.two_pos fun vs hv ↦ called () vs hv
  · exact .bind_takes (strides_balanced _ _ F ws) fun _ vs hv ↦ called () vs hv
  refine .ite (fun brackets ↦ ?_) fun _ ↦ .pure
  have ne := ne_nil_of_isAt (Bool.and_eq_true_iff.1 brackets).1
  exact .skip_bind ne Nat.two_pos fun vs hv ↦ called () vs hv

theorem walks_typeTail : Walks (typeTail ()) := keepsWithin_typeTailRule.walks ()

theorem strides_typeWords : Strides typeWords := by
  intro F ws
  refine .bind_right (walks_typeAnnotations F ws) fun _ vs _ ↦ ?_
  exact .bind .expect fun _ us _ ↦ walks_typeTail F us

theorem strides_type : Strides type := strides_sourceOf strides_typeWords

theorem brackets_suffix (ws : List Word) : (brackets ws).2 <:+ ws := by
  fun_induction brackets ws with
  | case1 l r ws h rest ih =>
    exact ih.trans ((List.suffix_cons r ws).trans (List.suffix_cons l _))
  | case2 => exact List.suffix_rfl
  | case3 => exact List.suffix_rfl

theorem walks_dims : Walks dims := by
  intro F ws
  exact .of_ok rfl (brackets_suffix ws)

theorem keepsWithin_typeListRule : KeepsWithin typeListRule := by
  intro F typeList _ ws called
  refine .bind_takes (strides_type F ws) fun first vs hv ↦ .eat_bind (fun us hu ↦ ?_) .pure
  exact .bind (called () us (hu.trans_suffix hv.1)) fun _ _ _ ↦ .pure

theorem walks_typeList : Walks (typeList ()) := keepsWithin_typeListRule.walks ()

theorem strides_param : Strides param := by
  intro F ws
  refine .bind_right (.withSource (walks_modifiers F ws)) fun lead vs _ ↦ ?_
  refine .bind (strides_type F vs) fun written us _ ↦ .bind .eat fun varargs xs _ ↦ ?_
  refine .bind (Takes.expect).within fun name ys _ ↦ ?_
  exact .bind (walks_dims F ys) fun _ _ _ ↦ .pure

theorem keepsWithin_paramsRule : KeepsWithin paramsRule := by
  intro F paramsTail _ ws called
  refine .bind_takes (strides_param F ws) fun first vs hv ↦ .eat_bind (fun us hu ↦ ?_) ?_
  · exact .bind (called () us (hu.trans_suffix hv.1)) fun _ _ _ ↦ .pure
  · exact .bind (Takes.expect).within fun _ _ _ ↦ .pure

theorem walks_paramsTail : Walks (paramsTail ()) := keepsWithin_paramsRule.walks ()

/-- Parameters take at least their parentheses. -/
theorem strides_params : Strides params := by
  intro F ws
  refine .bind .expect fun _ vs _ ↦ .eat_bind (fun us _ ↦ .pure) ?_
  exact walks_paramsTail F vs

/-! ## Headers and bodies -/

theorem ne_nil_of_isAtText {kind : TokenKind} {text : String} (h : isAtText kind text ws = true) :
    ws ≠ [] := by
  rintro rfl
  simp [isAtText] at h

theorem keepsWithin_clausesRule : KeepsWithin clausesRule := by
  intro F clauses decl ws called
  -- The three clauses that list types differ in what becomes of the list only.
  have list (next : List String → TypeDecl) (ne : ws ≠ []) :
      Within F (do skip 1; let l ← typeList (); clauses (next l) : Parser TypeDecl) ws := by
    refine .skip_bind ne Nat.one_pos fun vs hv ↦ ?_
    exact .bind (walks_typeList F vs) fun l us hu ↦ called _ us (hv.of_suffix hu)
  refine .get_bind (.ite (fun _ ↦ .pure) fun _ ↦ .ite (fun _ ↦ ?_) fun _ ↦ ?_)
  · exact .bind_takes (strides_sourceOf (strides_balanced _ _) F ws) fun _ vs hv ↦ called _ vs hv
  refine .ite (fun _ ↦ ?_) fun _ ↦ ?_
  · exact .bind_takes (strides_params F ws) fun _ vs hv ↦ called _ vs hv
  refine .ite (fun here ↦ list _ (ne_nil_of_isAt here)) fun _ ↦ ?_
  refine .ite (fun here ↦ list _ (ne_nil_of_isAt here)) fun _ ↦ ?_
  exact .ite (fun here ↦ list _ (ne_nil_of_isAtText here)) fun _ ↦ .failExpecting

theorem walks_clauses (decl : TypeDecl) : Walks (clauses decl) := keepsWithin_clausesRule.walks decl

theorem walks_enumConstants : Walks enumConstants := by
  intro F ws
  refine .lookAhead_bind (.bind (walks_textUntil _ F ws) fun text vs _ ↦ ?_)
  exact .bind .eat fun _ _ _ ↦ .pure

section

variable {members : TypeDecl → Parser (List Member)}

/-- The body takes the brace that opens it, so the members of the type have fewer words. -/
theorem takes_typeBody {decl : TypeDecl}
    (called : ∀ t vs, Behind vs ws → Within F (members t) vs) :
    Takes F (typeBody members decl) ws := by
  refine .bind .expect fun _ vs hv ↦ ?_
  have rest (constants : Option Snippet) {us : List Word} (hu : us <:+ vs) :
      Within F (do return { decl with enumConstants := constants, members := ← members decl } :
        Parser TypeDecl) us :=
    .bind (called _ us (hv.of_suffix hu)) fun _ _ _ ↦ .pure
  refine .ite (fun _ ↦ ?_) fun _ ↦ ?_
  · exact .bind (walks_enumConstants F vs) fun _ us hu ↦ rest _ hu
  · exact .bind .pure fun _ us hu ↦ rest _ hu

/-- A type declaration takes its keyword and name before members are read. -/
theorem takes_typeDecl {doc : Option Snippet} {annotations : List Annotation}
    {modifiers : Modifiers} (called : ∀ t vs, Behind vs ws → Within F (members t) vs) :
    Takes F (typeDecl members doc annotations modifiers) ws := by
  refine .lookAhead_bind ?_
  cases typeKindAt ws with
  | none => exact .failExpecting
  | some r =>
    refine .bind_right .skip fun _ vs hv ↦ .bind .expect fun name us hu ↦ ?_
    refine .bind (walks_clauses _ F us) fun decl xs hx ↦ (takes_typeBody fun t ys hy ↦ ?_).within
    exact called t ys (hy.trans_suffix (hx.trans (hu.1.trans hv)))

/-! ## Members -/

theorem walks_throwsClause : Walks throwsClause := by
  intro F ws
  refine .eat_bind (fun vs _ ↦ .bind (walks_textUntil _ F vs) fun text us _ ↦ ?_) .pure
  cases text with
  | some text => exact .pure
  | none => exact .fail (by simp)

theorem strides_constructor (typeParams : Option String) (column : Nat) :
    Strides (constructor typeParams column) := by
  intro F ws
  refine .bind .expect fun name vs _ ↦ .lookAhead_bind ?_
  have behindParams (params : List Param) (us : List Word) :
      Within F (do
        let throws ← throwsClause
        return ⟨typeParams, name, params, !isAt (.punct .lparen) vs, throws, ← block column⟩ :
          Parser Constructor) us := by
    refine .bind (walks_throwsClause F us) fun throws xs _ ↦ ?_
    exact .bind (strides_block column F xs).within fun _ _ _ ↦ .pure
  refine .ite (fun _ ↦ ?_) fun _ ↦ ?_
  · exact .bind .pure fun params us _ ↦ behindParams params us
  · exact .bind (strides_params F vs).within fun params us _ ↦ behindParams params us

theorem walks_methodBody (column : Nat) : Walks (methodBody column) := by
  intro F ws
  refine .lookAhead_bind (.ite (fun _ ↦ ?_) fun _ ↦ ?_)
  · exact .bind (strides_block column F ws).within fun _ _ _ ↦ .pure
  · exact .bind (Takes.expect).within fun _ _ _ ↦ .pure

/-- A method takes at least its parameter list. -/
theorem strides_method (typeParams : Option String) (type name : String) (column : Nat) :
    Strides (method typeParams type name column) := by
  intro F ws
  refine .bind (strides_params F ws) fun params vs _ ↦ .bind (walks_dims F vs) fun dims us _ ↦ ?_
  refine .bind (walks_throwsClause F us) fun throws xs _ ↦ .eat_bind (fun ys _ ↦ ?_) ?_
  · refine .bind (walks_textUntil _ F ys) fun value zs _ ↦ ?_
    exact .bind (walks_methodBody column F zs) fun _ _ _ ↦ .pure
  · refine .bind .pure fun value zs _ ↦ ?_
    exact .bind (walks_methodBody column F zs) fun _ _ _ ↦ .pure

theorem walks_fieldInit (column : Nat) : Walks (fieldInit column) := by
  intro F ws
  refine .lookAhead_bind (.ite (fun _ ↦ .bind .skip fun _ vs _ ↦ ?_) fun _ ↦ .pure)
  refine .bind (walks_textUntil _ F vs) fun text us _ ↦ ?_
  cases text with
  | some text => exact .pure
  | none => exact .fail (by simp)

theorem keepsWithin_declaratorsRule (type : String) (column : Nat) :
    KeepsWithin (declaratorsRule type column) := by
  intro F declarators name ws called
  refine .bind (walks_dims F ws) fun dims vs hv ↦ .bind (walks_fieldInit column F vs)
    fun init us hu ↦ ?_
  refine .eat_bind (fun xs hx ↦ ?_) ?_
  · refine .bind_takes .expect fun next ys hy ↦ .bind (called next ys ?_) fun _ _ _ ↦ .pure
    exact (hy.trans_suffix hx.1).trans_suffix (hu.trans hv)
  · exact .bind (Takes.expect).within fun _ _ _ ↦ .pure

theorem walks_declarators (type : String) (column : Nat) (name : String) :
    Walks (declarators type column name) :=
  (keepsWithin_declaratorsRule type column).walks name

/-- What an item declares, behind its type parameters. -/
def contentsAfter (owner : TypeDecl) (column : Nat) (typeParams : Option String) :
    Parser (List Content) := do
  if ← lookAhead (isAtConstructor owner) then
    return [.constructor (← constructor typeParams column)]
  else
    let type ← type
    let name ← ident "member name"
    if ← lookAhead (isAt (.punct .lparen)) then
      return [.method (← method typeParams type name column)]
    else
      return (← declarators type column name).map .field

/-- Type parameters may stand in front of the content of a member. -/
theorem contents_eq {owner : TypeDecl} {column : Nat} {ws : List Word} : contents owner column ws =
    (if isAt (.punct .lt) ws then do
      let typeParams ← sourceOf (balanced .lt .gt)
      contentsAfter owner column (some typeParams)
    else contentsAfter owner column none : Parser (List Content)) ws := by
  unfold contents
  rw [lookAhead_bind]
  split <;> rfl

theorem strides_contentsAfter (owner : TypeDecl) (column : Nat) (typeParams : Option String) :
    Strides (contentsAfter owner column typeParams) := by
  intro F ws
  refine .lookAhead_bind (.ite (fun _ ↦ ?_) fun _ ↦ ?_)
  · exact .bind (strides_constructor _ _ F ws) fun _ _ _ ↦ .pure
  · refine .bind (strides_type F ws) fun type vs _ ↦ ?_
    refine .bind (Takes.expect).within fun name us _ ↦ .lookAhead_bind ?_
    refine .ite (fun _ ↦ ?_) fun _ ↦ ?_
    · exact .bind (strides_method _ _ _ _ F us).within fun _ _ _ ↦ .pure
    · exact .bind (walks_declarators _ _ _ F us) fun _ _ _ ↦ .pure

/-- A member that declares no type takes at least a word. -/
theorem strides_contents (owner : TypeDecl) (column : Nat) : Strides (contents owner column) := by
  intro F ws
  refine .congr (.ite (fun _ ↦ ?_) fun _ ↦ ?_) contents_eq
  · refine .bind (strides_sourceOf (strides_balanced _ _) F ws) fun typeParams vs _ ↦ ?_
    exact (strides_contentsAfter owner column _ F vs).within
  · exact strides_contentsAfter owner column none F ws

/-- Every member takes a word, so that the loop over members ends. -/
theorem takes_member {owner : TypeDecl}
    (called : ∀ t vs, Behind vs ws → Within F (members t) vs) :
    Takes F (member members owner) ws := by
  refine .lookAhead_bind (.lookAhead_bind ?_)
  refine .bind_right (walks_modifiers F ws) fun lead vs hv ↦ .get_bind ?_
  refine .ite (fun _ ↦ ?_) fun _ ↦ .ite (fun _ ↦ ?_) fun _ ↦ ?_
  · exact .bind (strides_block _ F vs) fun _ _ _ ↦ .pure
  · refine .bind (takes_typeDecl fun t us hu ↦ ?_) fun _ _ _ ↦ .pure
    exact called t us (hu.trans_suffix hv)
  · exact .bind (strides_contents owner _ F vs) fun _ _ _ ↦ .pure

end

/-- The members of a type are read by turns, each of which takes a semicolon, the closing brace or
a whole member. -/
theorem keepsWithin_membersRule : KeepsWithin membersRule := by
  intro F members owner ws called
  refine .eat_bind (fun vs hv ↦ called owner vs hv) (.eat_bind (fun _ _ ↦ .pure) ?_)
  refine .lookAhead_bind (.ite (fun _ ↦ .fail (by simp)) fun _ ↦ ?_)
  refine .bind_takes (takes_member called) fun first vs hv ↦ ?_
  exact .bind (called owner vs hv) fun _ _ _ ↦ .pure

theorem walks_members (owner : TypeDecl) : Walks (members owner) :=
  keepsWithin_membersRule.walks owner

theorem strides_typeBody (decl : TypeDecl) : Strides (typeBody members decl) := by
  intro F ws
  exact takes_typeBody fun t vs _ ↦ walks_members t F vs

theorem strides_typeDecl (doc : Option Snippet) (annotations : List Annotation)
    (modifiers : Modifiers) : Strides (typeDecl members doc annotations modifiers) := by
  intro F ws
  exact takes_typeDecl fun t vs _ ↦ walks_members t F vs

theorem strides_member (owner : TypeDecl) : Strides (member members owner) := by
  intro F ws
  exact takes_member fun t vs _ ↦ walks_members t F vs

/-! ## Compilation units -/

theorem keepsWithin_importsRule : KeepsWithin importsRule := by
  intro F imports _ ws called
  refine .eat_bind (fun vs hv ↦ called () vs hv) (.lookAhead_bind ?_)
  refine .ite (fun _ ↦ ?_) fun _ ↦ .pure
  refine .bind_takes (strides_importDecl F ws) fun first vs hv ↦ ?_
  exact .bind (called () vs hv) fun _ _ _ ↦ .pure

theorem walks_imports : Walks (imports ()) := keepsWithin_importsRule.walks ()

theorem keepsWithin_typesRule : KeepsWithin typesRule := by
  intro F types _ ws called
  refine .lookAhead_bind (.ite (fun _ ↦ .pure) fun _ ↦ ?_)
  refine .eat_bind (fun vs hv ↦ called () vs hv) (.lookAhead_bind ?_)
  refine .bind (walks_modifiers F ws) fun lead vs hv ↦ ?_
  refine .bind_takes (strides_typeDecl _ _ _ F vs) fun first us hu ↦ ?_
  exact .bind (called () us (hu.trans_suffix hv)) fun _ _ _ ↦ .pure

theorem walks_types : Walks (types ()) := keepsWithin_typesRule.walks ()

/-- The parser never steps back, on any words. -/
theorem walks_compilationUnit : Walks compilationUnit := by
  intro F ws
  refine .lookAhead_bind (.bind (walks_modifiers F ws) fun lead vs _ ↦ ?_)
  refine .eat_bind (fun us _ ↦ ?_) ?_
  · refine .bind (strides_qualifiedName _ F us).within fun package xs _ ↦ ?_
    refine .bind (Takes.expect).within fun _ ys _ ↦ ?_
    refine .bind (walks_imports F ys) fun imports zs _ ↦ ?_
    exact .bind (walks_types F zs) fun _ _ _ ↦ .pure
  rw [if_neg (by simp)]
  refine .ite (fun _ ↦ ?_) fun _ ↦ ?_
  · refine .bind (walks_imports F vs) fun imports us _ ↦ ?_
    exact .bind (walks_types F us) fun _ _ _ ↦ .pure
  · refine .bind (strides_typeDecl _ _ _ F vs).within fun first us _ ↦ ?_
    exact .bind (walks_types F us) fun _ _ _ ↦ .pure

end PlatformOverlay.Java.Parser
