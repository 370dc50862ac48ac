import PlatformOverlay.Java.Source
import PlatformOverlay.Proofs.Java.Parser.Progress

/-!
# Parsing ends

No parser goes back behind the words it was given, neither when it succeeds nor when it fails
(`StaysWithin`), and a loop goes on only where words have been taken (`GoesOn`).  So as many turns
as there are words, and one more, are enough for each loop, and none ever gets stuck.

`parsing_progresses` has six parts, and each but the last speaks of a class of parsers that is
listed here, so that none is left out:

| parsers | property |
| --- | --- |
| those that loops repeat (`TakesWord`) | leave fewer words where they succeed |
| all rules of the grammar (`InGrammar`) | stay within their words (`StaysWithin`) |
| groups | are reported where they begin if they are not closed |
| the bodies of loops (`Loop`) | go on behind a word, so that the fuel suffices |
| searches for a mark | end, or go on with one word less |
| whole files | never give the error for a loop that is stuck |

Each row is read off the walk through the grammar in `PlatformOverlay.Proofs.Java.Parser.Walk`.

That a turn goes on is said without looking into the rule: at `t` on the words `vs`, two answers can
be given for which the body comes to different results. So it does not matter how often the body
mentions the rule, but only what it asks.
-/

namespace PlatformOverlay.Java

namespace Parser

variable {α σ : Type} {p : Parser α} {ws : List Word}

/-! ## Staying within the words -/

/-- The parser leaves a rest of these words, or fails at one of them or at their end. -/
structure StaysWithin (p : Parser α) (ws : List Word) : Prop where
  left : ∀ a rest, p ws = .ok (a, rest) → rest <:+ ws
  fault : ∀ f, p ws = .error f →
    f.cause ≠ .stuck ∧ ∃ vs, vs <:+ ws ∧ f.position = vs.head?.map Word.start

/-- With the bound that says where faults are, the walk through a parser ends at this. -/
theorem Walks.staysWithin (h : Walks p) (ws : List Word) : StaysWithin p ws :=
  ⟨(h .located ws).left, (h .located ws).fault⟩

/-! ## All parsers -/

/-- The parsers that the grammar is made of. -/
inductive InGrammar : {α : Type} → Parser α → Prop where
  | eat (kind : TokenKind) : InGrammar (eat kind)
  | expect (kind : TokenKind) (what : String) : InGrammar (expect kind what)
  | balanced (opening closing : Punct) : InGrammar (balanced opening closing)
  | textUntil (stop : List Word → Bool) : InGrammar (textUntil stop)
  | block (column : Nat) : InGrammar (block column)
  | qualifiedName (what : String) : InGrammar (qualifiedName what)
  | importPath (path : String) : InGrammar (importPath path)
  | importDecl : InGrammar importDecl
  | annotationUse : InGrammar annotationUse
  | modifiersAfter (s : List Annotation × Modifiers) : InGrammar (modifiersAfter s)
  | typeAnnotations : InGrammar (typeAnnotations ())
  | typeTail : InGrammar (typeTail ())
  | typeWords : InGrammar typeWords
  | type : InGrammar type
  | dims : InGrammar dims
  | typeList : InGrammar (typeList ())
  | param : InGrammar param
  | paramsTail : InGrammar (paramsTail ())
  | params : InGrammar params
  | clauses (decl : TypeDecl) : InGrammar (clauses decl)
  | enumConstants : InGrammar enumConstants
  | typeBody (decl : TypeDecl) : InGrammar (typeBody members decl)
  | typeDecl (doc : Option Snippet) (annotations : List Annotation) (modifiers : Modifiers) :
      InGrammar (typeDecl members doc annotations modifiers)
  | throwsClause : InGrammar throwsClause
  | constructor (typeParams : Option String) (column : Nat) :
      InGrammar (constructor typeParams column)
  | methodBody (column : Nat) : InGrammar (methodBody column)
  | method (typeParams : Option String) (type name : String) (column : Nat) :
      InGrammar (method typeParams type name column)
  | fieldInit (column : Nat) : InGrammar (fieldInit column)
  | declarators (type : String) (column : Nat) (name : String) :
      InGrammar (declarators type column name)
  | contents (owner : TypeDecl) (column : Nat) : InGrammar (contents owner column)
  | member (owner : TypeDecl) : InGrammar (member members owner)
  | members (owner : TypeDecl) : InGrammar (members owner)
  | imports : InGrammar (imports ())
  | types : InGrammar (types ())
  | compilationUnit : InGrammar compilationUnit

/-- Every reader of the grammar walks: the case of each rule is its lemma from the walk. -/
theorem InGrammar.walks (h : InGrammar p) : Walks p := by
  cases h with
  | eat kind => exact fun _ _ ↦ .eat
  | expect kind what => exact Strides.walks fun _ _ ↦ .expect
  | balanced opening closing => exact (strides_balanced opening closing).walks
  | textUntil stop => exact walks_textUntil stop
  | block column => exact (strides_block column).walks
  | qualifiedName what => exact (strides_qualifiedName what).walks
  | importPath path => exact walks_importPath path
  | importDecl => exact strides_importDecl.walks
  | annotationUse => exact strides_annotationUse.walks
  | modifiersAfter s => exact walks_modifiersAfter s
  | typeAnnotations => exact walks_typeAnnotations
  | typeTail => exact walks_typeTail
  | typeWords => exact strides_typeWords.walks
  | type => exact strides_type.walks
  | dims => exact walks_dims
  | typeList => exact walks_typeList
  | param => exact strides_param.walks
  | paramsTail => exact walks_paramsTail
  | params => exact strides_params.walks
  | clauses decl => exact walks_clauses decl
  | enumConstants => exact walks_enumConstants
  | typeBody decl => exact (strides_typeBody decl).walks
  | typeDecl doc annotations modifiers => exact (strides_typeDecl doc annotations modifiers).walks
  | throwsClause => exact walks_throwsClause
  | constructor typeParams column => exact (strides_constructor typeParams column).walks
  | methodBody column => exact walks_methodBody column
  | method typeParams type name column => exact (strides_method typeParams type name column).walks
  | fieldInit column => exact walks_fieldInit column
  | declarators type column name => exact walks_declarators type column name
  | contents owner column => exact (strides_contents owner column).walks
  | member owner => exact (strides_member owner).walks
  | members owner => exact walks_members owner
  | imports => exact walks_imports
  | types => exact walks_types
  | compilationUnit => exact walks_compilationUnit

/-- The parsers that take a word whenever they succeed. -/
inductive TakesWord : {α : Type} → Parser α → Prop where
  | member (owner : TypeDecl) : TakesWord (member members owner)
  | typeDecl (doc : Option Snippet) (annotations : List Annotation) (modifiers : Modifiers) :
      TakesWord (typeDecl members doc annotations modifiers)
  | typeWords : TakesWord typeWords
  | params : TakesWord params
  | annotationUse : TakesWord annotationUse
  | importDecl : TakesWord importDecl
  | qualifiedName (what : String) : TakesWord (qualifiedName what)
  | balanced (opening closing : Punct) : TakesWord (balanced opening closing)

theorem TakesWord.strides (h : TakesWord p) : Strides p := by
  cases h with
  | member owner => exact strides_member owner
  | typeDecl doc annotations modifiers => exact strides_typeDecl doc annotations modifiers
  | typeWords => exact strides_typeWords
  | params => exact strides_params
  | annotationUse => exact strides_annotationUse
  | importDecl => exact strides_importDecl
  | qualifiedName what => exact strides_qualifiedName what
  | balanced opening closing => exact strides_balanced opening closing

/-- A group that is never closed is reported at its opening token. -/
theorem position_of_balanced {opening closing : Punct} {fault : Fault}
    (h : balanced opening closing ws = .error fault) :
    fault.position = ws.head?.map Word.start := by
  cases ws with
  | nil =>
    cases h
    rfl
  | cons w ws =>
    rw [balanced] at h
    split at h
    · cases h
    · cases h
      rfl

/-! ## Loops -/

/-- The rules that describe the loops of the grammar. -/
inductive Loop : {σ α : Type} → ((σ → Parser α) → σ → Parser α) → Prop where
  | importPath : Loop importPathRule
  | modifiers : Loop modifiersRule
  | typeAnnotations : Loop typeAnnotationsRule
  | typeTail : Loop typeTailRule
  | typeList : Loop typeListRule
  | params : Loop paramsRule
  | clauses : Loop clausesRule
  | declarators (type : String) (column : Nat) : Loop (declaratorsRule type column)
  | members : Loop membersRule
  | imports : Loop importsRule
  | types : Loop typesRule

/-- A turn of the loop at `s` on the words `ws` goes on with a turn at `t` on the words `vs`: what
comes of it depends on what comes of that one. -/
def GoesOn (rule : (σ → Parser α) → σ → Parser α) (s : σ) (ws : List Word) (t : σ)
    (vs : List Word) : Prop :=
  ∃ f g : σ → Parser α, (∀ u, Shortens (f u)) ∧ (∀ u us, u ≠ t ∨ us ≠ vs → f u us = g u us) ∧
    rule f s ws ≠ rule g s ws

variable {rule : (σ → Parser α) → σ → Parser α} {s t : σ} {vs : List Word}

/-- The body of a loop only looks at calls behind the words it is given. -/
theorem Loop.congr (h : Loop rule) {f g : σ → Parser α} (hf : ∀ u, Shortens (f u))
    (e : ∀ u us, Behind us ws → f u us = g u us) : rule f s ws = rule g s ws := by
  cases h with
  | importPath => exact callsBehind_importPathRule f g s ws e
  | modifiers => exact callsBehind_modifiersRule f g s ws e
  | typeAnnotations => exact callsBehind_typeAnnotationsRule f g s ws e
  | typeTail => exact callsBehind_typeTailRule f g s ws e
  | typeList => exact callsBehind_typeListRule f g s ws e
  | params => exact callsBehind_paramsRule f g s ws e
  | clauses => exact callsBehind_clausesRule f g s ws e
  | declarators type column => exact callsBehind_declaratorsRule type column f g s ws e
  | members => exact membersRule_congr hf e
  | imports => exact callsBehind_importsRule f g s ws e
  | types => exact callsBehind_typesRule f g s ws e

/-- A turn that goes on has taken a word. -/
theorem Loop.behind_of_goesOn (h : Loop rule) (on : GoesOn rule s ws t vs) : Behind vs ws := by
  obtain ⟨f, g, hf, e, ne⟩ := on
  refine Classical.byContradiction fun stays ↦ ?_
  refine ne (h.congr hf fun u us hu ↦ e u us (.inr ?_))
  rintro rfl
  exact stays hu

/-- Behind a semicolon the loop over the imports goes on. -/
example {w : Word} (h : w.kind = .punct .semi) (ws : List Word) :
    GoesOn importsRule () (w :: ws) () ws := by
  refine ⟨fun _ ↦ fail .stuck, fun _ us ↦ if us = ws then .ok ([], us) else fail .stuck us,
    fun _ _ _ _ e ↦ (fail_ne_ok e).elim, fun _ us ne ↦ ?_, ?_⟩
  · exact (if_neg (ne.resolve_left fun h ↦ h rfl)).symm
  · have semi : isAt (.punct .semi) (w :: ws) = true := by simp [isAt, h]
    rw [importsRule, importsRule, bind_of_ok (eat_of_isAt semi), bind_of_ok (eat_of_isAt semi)]
    simp [fail]

/-- As many turns as there are words, and one more, are enough. -/
theorem Loop.unfolded_eq (h : Loop rule) {n : Nat} (hn : ws.length < n) :
    unfolded rule n s ws = fixpoint rule s ws := by
  have last := Nat.lt_succ_self ws.length
  cases h with
  | importPath => exact unfolded_eq_of_lt callsBehind_importPathRule.callsOnFewer hn last
  | modifiers => exact unfolded_eq_of_lt callsBehind_modifiersRule.callsOnFewer hn last
  | typeAnnotations => exact unfolded_eq_of_lt callsBehind_typeAnnotationsRule.callsOnFewer hn last
  | typeTail => exact unfolded_eq_of_lt callsBehind_typeTailRule.callsOnFewer hn last
  | typeList => exact unfolded_eq_of_lt callsBehind_typeListRule.callsOnFewer hn last
  | params => exact unfolded_eq_of_lt callsBehind_paramsRule.callsOnFewer hn last
  | clauses => exact unfolded_eq_of_lt callsBehind_clausesRule.callsOnFewer hn last
  | declarators type column =>
    exact unfolded_eq_of_lt (callsBehind_declaratorsRule type column).callsOnFewer hn last
  | members => exact unfolded_members_congr hn last
  | imports => exact unfolded_eq_of_lt callsBehind_importsRule.callsOnFewer hn last
  | types => exact unfolded_eq_of_lt callsBehind_typesRule.callsOnFewer hn last

/-- Looking for a mark goes on with one word less. -/
theorem seek_step (stop : List Word → Bool) (depth : Nat) (w : Word) (ws : List Word) :
    seek stop depth (w :: ws) = .ok (w :: ws) ∨
      seek stop depth (w :: ws) = .error (faultAt (.unexpected (some w.text)) (w :: ws)) ∨
      ∃ next, seek stop depth (w :: ws) = seek stop next ws := by
  rw [seek.eq_def stop depth (w :: ws)]
  dsimp only
  split
  · exact .inl rfl
  split
  · exact .inr (.inr ⟨_, rfl⟩)
  split
  · cases depth with
    | zero => exact .inr (.inl rfl)
    | succ depth => exact .inr (.inr ⟨depth, rfl⟩)
  · exact .inr (.inr ⟨depth, rfl⟩)

end Parser

open PlatformOverlay.Java.Parser

/-- No file makes the parser stop because of a loop that takes nothing. -/
theorem parse_ne_stuck {path : Path} {text : String} {e : SyntaxError}
    (h : parse path text = .error e) : e.cause ≠ .stuck := by
  unfold parse at h
  split at h
  · cases h
  · split at h
    · cases h
      simp
    · split at h
      · cases h
      · rename_i fault hf
        cases h
        exact ((walks_compilationUnit.staysWithin _).fault fault hf).1

/-- Parsing always takes words: the rules that loops repeat take one when they succeed, no rule
goes back behind its words, a group that is not closed is a fault where it begins, a turn of a loop
that goes on has taken a word, and so the number of words bounds how often a loop or a rule that
refers to itself is unfolded; no text gets the parser stuck. -/
theorem parsing_progresses :
    (∀ {α : Type} {p : Parser α}, TakesWord p → ∀ ws a rest, p ws = .ok (a, rest) →
      Behind rest ws) ∧
    (∀ {α : Type} {p : Parser α}, InGrammar p → ∀ ws, StaysWithin p ws) ∧
    (∀ opening closing ws fault, balanced opening closing ws = .error fault →
      fault.position = ws.head?.map Word.start) ∧
    (∀ {σ α : Type} {rule : (σ → Parser α) → σ → Parser α}, Loop rule → ∀ s ws,
      (∀ t vs, GoesOn rule s ws t vs → Behind vs ws) ∧
      ∀ n, ws.length < n → unfolded rule n s ws = fixpoint rule s ws) ∧
    (∀ stop depth w ws, seek stop depth (w :: ws) = .ok (w :: ws) ∨
      seek stop depth (w :: ws) = .error (faultAt (.unexpected (some w.text)) (w :: ws)) ∨
      ∃ next, seek stop depth (w :: ws) = seek stop next ws) ∧
    ∀ path text e, parse path text = .error e → e.cause ≠ .stuck :=
  ⟨fun h ↦ h.strides.advances, fun h ↦ h.walks.staysWithin, fun _ _ _ _ ↦ position_of_balanced,
    fun h _ _ ↦ ⟨fun _ _ ↦ h.behind_of_goesOn, fun _ ↦ h.unfolded_eq⟩, seek_step,
    fun _ _ _ ↦ parse_ne_stuck⟩

end PlatformOverlay.Java
