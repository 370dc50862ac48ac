import PlatformOverlay.Proofs.Java.Parser.Walk

/-!
# The rules as equations

The rules that refer to themselves call themselves behind at least one word (`CallsBehind`), so each
satisfies the equation by which it is written; the rule for members does although it calls itself
where other calls have ended (`members_eq`).

A rule is defined as many unfoldings of its body as there are words, and one more. `CallsBehind` is
a property of the body: two rules that agree behind a word give the same body here. It is proved
from the steps of the body that take a word (`callsBehind_typeTailRule` and those behind it), and
`fixpoint_eq` makes an equation of it.

Members are the exception. A member with nested types hands the rule on to them and calls it again
where they have ended, at words that only a run can tell. So two unfoldings are compared on all
texts that are shorter than both are deep (`unfolded_members_congr`), by induction on their depth.

All later modules open a rule by its equation.
-/

namespace PlatformOverlay.Java.Parser

variable {ws : List Word}

/-- A reader that is at a token has words left. -/
theorem lt_length_of_isAt {kind : TokenKind} {words : List Word} {i : Nat}
    (h : isAt kind (words.drop i) = true) : i < words.length := by
  have := List.length_pos_iff.2 (ne_nil_of_isAt h)
  rw [List.length_drop] at this
  omega

/-- The rules call themselves behind words that they have taken, so that the unfoldings which
define them are fixpoints. One lemma for each rule, with the equation behind it. -/
theorem callsBehind_typeTailRule : CallsBehind typeTailRule := by
  intro f g s ws h
  rw [typeTailRule, typeTailRule, get_bind, get_bind]
  split
  · rename_i hc
    exact h _ _ (behind_drop (ne_nil_of_isAt (Bool.and_eq_true_iff.1 hc).1) Nat.two_pos)
  split
  · exact bind_congr_of_advances (strides_balanced _ _).advances fun _ _ hv ↦ h _ _ hv
  split
  · rename_i hc
    exact h _ _ (behind_drop (ne_nil_of_isAt (Bool.and_eq_true_iff.1 hc).1) Nat.two_pos)
  · rfl

/-- What follows a type name: segments, type arguments and brackets, in any order. -/
theorem typeTail_eq : typeTail () ws =
    (if isAt (.punct .dot) ws && isAt .ident ws.tail then do skip 2; typeTail ()
    else if isAt (.punct .lt) ws then do balanced .lt .gt; typeTail ()
    else if isAtBrackets ws then do skip 2; typeTail ()
    else pure () : Parser Unit) ws :=
  fixpoint_eq callsBehind_typeTailRule.callsOnFewer () ws

theorem callsBehind_typeAnnotationsRule : CallsBehind typeAnnotationsRule := by
  intro f g s ws h
  rw [typeAnnotationsRule, typeAnnotationsRule, lookAhead_bind, lookAhead_bind]
  split
  · exact bind_congr_of_advances strides_annotationUse.advances fun _ _ hv ↦ h _ _ hv
  · rfl

/-- Annotations in front of a type, one by one. -/
theorem typeAnnotations_eq : typeAnnotations () ws =
    (if isAt (.punct .atSign) ws then do let _ ← annotationUse; typeAnnotations ()
    else pure () : Parser Unit) ws := by
  refine (fixpoint_eq callsBehind_typeAnnotationsRule.callsOnFewer () ws).trans ?_
  rw [typeAnnotationsRule, lookAhead_bind]
  split <;> rfl

/-- A choice on a token depends on what is done behind it and on what is done without it. -/
theorem eat_bind_congr {α : Type} {kind : TokenKind} {f g : Bool → Parser α}
    (h : ∀ vs, Behind vs ws → f true vs = g true vs) (h' : f false ws = g false ws) :
    (eat kind >>= f) ws = (eat kind >>= g) ws := by
  cases hk : isAt kind ws with
  | true =>
    rw [bind_of_ok (eat_of_isAt hk), bind_of_ok (eat_of_isAt hk)]
    exact h _ (by simpa using behind_drop (ne_nil_of_isAt hk) Nat.one_pos)
  | false => rwa [bind_of_ok (eat_of_not_isAt hk), bind_of_ok (eat_of_not_isAt hk)]

theorem callsBehind_typeListRule : CallsBehind typeListRule := by
  intro f g s ws h
  refine bind_congr_of_advances strides_type.advances fun first vs hv ↦ ?_
  refine eat_bind_congr (fun us hu ↦ ?_) rfl
  exact bind_congr_left (h () us (hu.trans_suffix hv.1))

theorem typeList_eq : typeList () ws =
    (do
      let first ← type
      if ← eat (.punct .comma) then return first :: (← typeList ())
      else return [first] : Parser (List String)) ws :=
  fixpoint_eq callsBehind_typeListRule.callsOnFewer () ws

theorem callsBehind_paramsRule : CallsBehind paramsRule := by
  intro f g s ws h
  refine bind_congr_of_advances strides_param.advances fun first vs hv ↦ ?_
  refine eat_bind_congr (fun us hu ↦ ?_) rfl
  exact bind_congr_left (h () us (hu.trans_suffix hv.1))

/-- Parameters with commas between them, up to the parenthesis. -/
theorem paramsTail_eq : paramsTail () ws =
    (do
      let first ← param
      if ← eat (.punct .comma) then return first :: (← paramsTail ())
      else
        let _ ← expect (.punct .rparen) "')'"
        return [first] : Parser (List Param)) ws :=
  fixpoint_eq callsBehind_paramsRule.callsOnFewer () ws

theorem callsBehind_modifiersRule : CallsBehind modifiersRule := by
  rintro f g ⟨annotations, modifiers⟩ ws h
  rw [modifiersRule, modifiersRule, lookAhead_bind, lookAhead_bind]
  split
  · exact bind_congr_of_advances strides_annotationUse.advances fun _ _ hv ↦ h _ _ hv
  · rw [lookAhead_bind, lookAhead_bind]
    cases hm : modifierAt ws with
    | none => rfl
    | some r => exact h _ _ (behind_of_modifierAt hm)

/-- Annotations and modifiers in any order, until neither follows. -/
theorem modifiersAfter_eq {annotations : List Annotation} {modifiers : Modifiers} :
    modifiersAfter (annotations, modifiers) ws =
    (if isAtAnnotation ws then do
      let a ← annotationUse
      modifiersAfter (annotations ++ [a], modifiers)
    else do
      match ← lookAhead modifierAt with
      | some (m, n) =>
          skip n
          modifiersAfter (annotations, modifiers.push m)
      | none => return (annotations, modifiers) :
        Parser (List Annotation × Modifiers)) ws := by
  refine (fixpoint_eq callsBehind_modifiersRule.callsOnFewer (annotations, modifiers) ws).trans ?_
  rw [modifiersRule, lookAhead_bind]
  split <;> rfl

theorem callsBehind_importPathRule : CallsBehind importPathRule := by
  intro f g path ws h
  refine eat_bind_congr (fun us hu ↦ ?_) rfl
  rw [if_pos rfl, if_pos rfl, lookAhead_bind, lookAhead_bind]
  split
  · rfl
  · exact bind_congr_of_advances .expect fun _ _ hv ↦ h _ _ (hv.trans_suffix hu.1)

/-- A path with a segment or a star behind each dot. -/
theorem importPath_eq {path : String} : importPath path ws =
    (do
      if ← eat (.punct .dot) then
        if ← lookAhead (isAtText .operator "*") then
          skip 1
          return (path, true)
        else
          let segment ← ident "import path"
          importPath (path ++ "." ++ segment)
      else return (path, false) : Parser (String × Bool)) ws :=
  fixpoint_eq callsBehind_importPathRule.callsOnFewer path ws

theorem callsBehind_clausesRule : CallsBehind clausesRule := by
  intro f g decl ws h
  have list : ∀ next : List String → TypeDecl, ws ≠ [] →
      (do skip 1; let l ← typeList (); f (next l) : Parser TypeDecl) ws =
        (do skip 1; let l ← typeList (); g (next l) : Parser TypeDecl) ws := by
    intro next ne
    rw [skip_bind, skip_bind]
    exact bind_congr_of_shortens walks_typeList.shortens fun _ _ hv ↦
      h _ _ ((behind_drop ne Nat.one_pos).of_suffix hv)
  rw [clausesRule, clausesRule, get_bind, get_bind]
  split
  · rfl
  split
  · exact bind_congr_of_advances (strides_sourceOf (strides_balanced _ _)).advances
      fun _ _ hv ↦ h _ _ hv
  split
  · exact bind_congr_of_advances strides_params.advances fun _ _ hv ↦ h _ _ hv
  split
  · exact list _ (ne_nil_of_isAt ‹_›)
  split
  · exact list _ (ne_nil_of_isAt ‹_›)
  split
  · exact list _ (ne_nil_of_isAtText ‹_›)
  · rfl

/-- The clauses of a type in any order, up to its body. Type parameters and components are read
once. -/
theorem clauses_eq {decl : TypeDecl} : clauses decl ws =
    (if isAt (.punct .lbrace) ws then return decl
    else if isAt (.punct .lt) ws ∧ decl.typeParams.isNone then do
      let typeParams ← sourceOf (balanced .lt .gt)
      clauses { decl with typeParams := some typeParams }
    else if isAt (.punct .lparen) ws ∧ decl.kind = .recordType then do
      let components ← params
      clauses { decl with components }
    else if isAt (.keyword .extendsWord) ws then do
      skip 1
      let extending ← typeList ()
      clauses { decl with extending }
    else if isAt (.keyword .implementsWord) ws then do
      skip 1
      let implementing ← typeList ()
      clauses { decl with implementing }
    else if isAtText .ident "permits" ws then do
      skip 1
      let permitting ← typeList ()
      clauses { decl with permitting }
    else failExpecting ("'\x7b' in declaration of " ++ decl.name) : Parser TypeDecl) ws :=
  fixpoint_eq callsBehind_clausesRule.callsOnFewer decl ws

theorem callsBehind_declaratorsRule (type : String) (column : Nat) :
    CallsBehind (declaratorsRule type column) := by
  intro f g name ws h
  refine bind_congr_of_shortens walks_dims.shortens fun _ vs hv ↦ ?_
  refine bind_congr_of_shortens (walks_fieldInit _).shortens fun _ us hu ↦ ?_
  refine eat_bind_congr (fun xs hx ↦ ?_) rfl
  exact bind_congr_of_advances .expect fun _ ys hy ↦ bind_congr_left
    (h _ ys ((hy.trans_suffix hx.1).trans_suffix (hu.trans hv)))

/-- Declarators with commas between them, up to the semicolon. -/
theorem declarators_eq {type name : String} {column : Nat} : declarators type column name ws =
    (do
      let fieldType := type ++ (← dims)
      let init ← fieldInit column
      let field : Field := ⟨fieldType, name, init⟩
      if ← eat (.punct .comma) then
        let next ← ident "field name"
        return field :: (← declarators type column next)
      else
        let _ ← expect (.punct .semi) "';' after field"
        return [field] : Parser (List Field)) ws :=
  fixpoint_eq (callsBehind_declaratorsRule type column).callsOnFewer name ws

theorem callsBehind_importsRule : CallsBehind importsRule := by
  intro f g s ws h
  refine eat_bind_congr (fun vs hv ↦ h _ _ hv) ?_
  rw [if_neg (by simp), if_neg (by simp), lookAhead_bind, lookAhead_bind]
  split
  · exact bind_congr_of_advances strides_importDecl.advances fun _ vs hv ↦
      bind_congr_left (h _ _ hv)
  · rfl

/-- Import declarations, with stray semicolons between them. -/
theorem imports_eq : imports () ws =
    (do
      if ← eat (.punct .semi) then imports ()
      else if ← lookAhead (isAt (.keyword .importWord)) then
        return (← importDecl) :: (← imports ())
      else return [] : Parser (List Import)) ws :=
  fixpoint_eq callsBehind_importsRule.callsOnFewer () ws

theorem callsBehind_typesRule : CallsBehind typesRule := by
  intro f g s ws h
  rw [typesRule, typesRule, lookAhead_bind, lookAhead_bind]
  split
  · rfl
  · refine eat_bind_congr (fun vs hv ↦ h _ _ hv) ?_
    rw [if_neg (by simp), if_neg (by simp), lookAhead_bind, lookAhead_bind]
    refine bind_congr_of_shortens walks_modifiers.shortens fun _ vs hv ↦ ?_
    refine bind_congr_of_advances (strides_typeDecl _ _ _).advances fun _ us hu ↦ ?_
    exact bind_congr_left (h _ _ (hu.trans_suffix hv))

/-- Type declarations to the end of the file, each with its comments and modifiers. -/
theorem types_eq : types () ws =
    (do
      if ← lookAhead List.isEmpty then return []
      else if ← eat (.punct .semi) then types ()
      else
        let doc ← lookAhead fun ws ↦ ws.head?.bind Word.doc
        let (annotations, modifiers) ← modifiers
        let first ← typeDecl members doc annotations modifiers
        return first :: (← types ()) : Parser (List TypeDecl)) ws :=
  fixpoint_eq callsBehind_typesRule.callsOnFewer () ws

section

variable {f g : TypeDecl → Parser (List Member)}

/-- A body depends on the reader for members behind its first word only. -/
theorem typeBody_congr {decl : TypeDecl} (h : ∀ t vs, Behind vs ws → f t vs = g t vs) :
    typeBody f decl ws = typeBody g decl ws := by
  refine bind_congr_of_advances .expect fun _ vs hv ↦ ?_
  dsimp only
  split
  · exact bind_congr_of_shortens walks_enumConstants.shortens fun _ us hu ↦
      bind_congr_left (h _ us (hv.of_suffix hu))
  · exact bind_congr_of_shortens .pure fun _ us hu ↦ bind_congr_left (h _ us (hv.of_suffix hu))

/-- A type declaration depends on it behind its keyword only. -/
theorem typeDecl_congr {doc : Option Snippet} {annotations : List Annotation}
    {modifiers : Modifiers} (h : ∀ t vs, Behind vs ws → f t vs = g t vs) :
    typeDecl f doc annotations modifiers ws = typeDecl g doc annotations modifiers ws := by
  unfold typeDecl
  rw [lookAhead_bind, lookAhead_bind]
  cases typeKindAt ws with
  | none => rfl
  | some r =>
    refine bind_congr_of_shortens .skip fun _ vs hv ↦ ?_
    refine bind_congr_of_advances .expect fun _ us hu ↦ ?_
    refine bind_congr_of_shortens (walks_clauses _).shortens fun _ xs hx ↦ ?_
    exact typeBody_congr fun t ys hy ↦ h t ys (hy.trans_suffix (hx.trans (hu.1.trans hv)))

theorem member_congr {owner : TypeDecl} (h : ∀ t vs, Behind vs ws → f t vs = g t vs) :
    member f owner ws = member g owner ws := by
  unfold member
  rw [lookAhead_bind, lookAhead_bind, lookAhead_bind, lookAhead_bind]
  refine bind_congr_of_shortens walks_modifiers.shortens fun _ vs hv ↦ ?_
  dsimp only
  rw [get_bind, get_bind]
  split
  · rfl
  split
  · exact bind_congr_left (typeDecl_congr fun t us hu ↦ h t us (hu.trans_suffix hv))
  · rfl

/-- The rule calls itself on fewer words if what it calls takes words from the front. -/
theorem membersRule_congr {owner : TypeDecl} (hf : ∀ decl, Shortens (f decl))
    (h : ∀ t vs, Behind vs ws → f t vs = g t vs) :
    membersRule f owner ws = membersRule g owner ws := by
  unfold membersRule
  refine eat_bind_congr (fun vs hv ↦ h _ _ hv) ?_
  rw [if_neg (by simp), if_neg (by simp)]
  refine eat_bind_congr (fun _ _ ↦ by rw [if_pos rfl, if_pos rfl]) ?_
  rw [if_neg (by simp), if_neg (by simp), lookAhead_bind, lookAhead_bind]
  split
  · rfl
  · rw [bind_apply, bind_apply, ← member_congr h]
    cases hm : member f owner ws with
    | error e => rfl
    | ok r =>
      have called : ∀ t vs, Behind vs ws → Within .all (f t) vs :=
        fun t vs _ ↦ .of_shortens (hf t) vs
      exact bind_congr_left (h _ _ ((takes_member called).left r.1 r.2 hm))

end

/-- Two unfoldings of the rule for members agree on all texts that are shorter than both are
deep. -/
theorem unfolded_members_congr {m n : Nat} {decl : TypeDecl} (hm : ws.length < m)
    (hn : ws.length < n) : unfolded membersRule m decl ws = unfolded membersRule n decl ws := by
  induction m generalizing n decl ws with
  | zero => omega
  | succ m ih =>
    cases n with
    | zero => omega
    | succ n =>
      refine membersRule_congr (keepsWithin_membersRule.shortens_unfolded m) fun t vs hv ↦ ?_
      have := hv.2
      exact ih (by omega) (by omega)

/-- The rule for members, read as an equation. Its proof does not go through the general lemma,
because a member calls the rule through three readers. -/
theorem members_eq {owner : TypeDecl} : members owner ws = membersRule members owner ws :=
  membersRule_congr (keepsWithin_membersRule.shortens_unfolded _) fun _ _ hv ↦
    unfolded_members_congr hv.2 (Nat.lt_succ_self _)

end PlatformOverlay.Java.Parser
