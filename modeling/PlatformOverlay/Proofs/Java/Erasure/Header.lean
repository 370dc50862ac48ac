import PlatformOverlay.Proofs.Java.Erasure.Renaming
import PlatformOverlay.Proofs.Java.Reading.Content

/-!
# Declarations with renamed type variables

A method or a constructor with other names for its type variables is read as before but for the
texts of its type parameters and of its parameters (`contents_rename`), which are erased to the same
types.  So it has the same signature, unless the type of a parameter is a variable whose first bound
is a variable, too (`signature_rename`): that is erased to the name of the latter
(`exists_variable_shows`).

`HeaderWords` has the words of a declaration from its type parameters to the end of its parameters,
each part by itself. Every declaration that has type parameters is read from such words
(`exists_headerWords`), and `HeaderWords.rename` renames the variables in them. That the renamed
words are read as a declaration again is a matter of the kinds of words alone, which renaming keeps
(`HeaderWords.sameKinds_rename`); what is read is erased in two steps, the bounds of the variables
(`typeVariables_rename`) and then the parameters (`HeaderWords.eraseParams_rename`).

Three conditions are put on the header and the renaming:

* `HeaderWords.Plain`: the layout does not show when types are erased;
* `Renames`: the variables and nothing else get other names, and no two names become one;
* `HeaderWords.Resolves`: no parameter has a variable for its type whose bound is renamed.

The last is a matter of how bounds are put in for variables, which is once and not until no variable
is left.
-/

open PlatformOverlay.Java.Parser

namespace PlatformOverlay.Java

open Lexer (IsToken)

variable {ρ : String → String} {ws us vs rest out : List Word} {owner : TypeDecl} {column : Nat}

/-! ## Parameters in a row -/

namespace ParamWords

variable {x : ParamWords} {stop : Word}

def words (x : ParamWords) : List Word := x.lead ++ (x.type ++ (x.dots ++ x.name :: x.dims))

theorem words_append : x.words ++ rest = x.lead ++ x.behindLead rest := by
  rw [words, behindLead]
  simp

/-- The words of a parameter are those in front of what is left. -/
theorem Of.words_eq (hx : x.Of ws rest) : ws = x.words ++ rest := by rw [words_append, ← hx.words]

end ParamWords

/-- What follows brackets does not matter unless it is a bracket. -/
theorem brackets_local {w : Word} (hw : w.kind ≠ .punct .lbracket) (hw' : w.kind ≠ .punct .rbracket)
    {ds : List Word} {text : String} (h : brackets (ds ++ w :: us) = (text, w :: us)) :
    brackets (ds ++ w :: vs) = (text, w :: vs) := by
  match ds with
  | [] =>
    have none (us : List Word) : brackets (w :: us) = ("", w :: us) :=
      Except.ok.inj (dims_of_not_isAt (by simp [isAt, hw]))
    rw [List.nil_append, none] at h ⊢
    cases h
    rfl
  | [l] =>
    rw [List.singleton_append, brackets, if_neg fun both ↦ hw' both.2] at h
    simpa using congrArg (·.2.length) h
  | l :: r :: ds =>
    rw [List.cons_append, List.cons_append, brackets] at h ⊢
    split at h
    next both =>
      obtain ⟨rfl, left⟩ := Prod.ext_iff.1 h
      have later := @brackets_local w hw hw' ds (brackets (ds ++ w :: us)).1 (Prod.ext rfl left)
      rw [if_pos both, later]
    next =>
      have := congrArg (·.2.length) h
      simp at this
      omega

theorem IsPath.typeWords_eq (path : IsPath ws) : typeWords ws = .ok ((), []) := by
  obtain ⟨w, tail, rfl, hw, tailType⟩ := path
  rw [typeWords, bind_of_ok (typeAnnotations_of_ident (by simp [isAt, hw])),
    bind_of_ok (ident_cons hw), tailType]

/-- A type in front of a name or of dots is no modifier. -/
theorem IsPath.modifierAt_eq_none (path : IsPath ws) {w : Word}
    (hw : w.kind = .ident ∨ w.kind = .punct .ellipsis) :
    isAt .ident (ws ++ w :: rest) = true ∧ modifierAt (ws ++ w :: rest) = none := by
  have start : isAt .ident ws = true := by
    obtain ⟨v, tail, rfl, hv, -⟩ := path
    simp [isAt, hv]
  refine ⟨isAt_append_of_isAt start, ?_⟩
  obtain ⟨v, tail, rfl, hv, next⟩ :=
    (ReadsAsType.of_typeWords path.typeWords_eq).startsWithName start
  cases tail with
  | nil =>
    refine Parser.modifierAt_eq_none hv ?_ ?_
    · obtain hw | hw := hw <;> simp [hw, followsSealed]
    · obtain hw | hw := hw <;> simp [hw]
  | cons u tail =>
    obtain ⟨sealed, operator⟩ := followsSealed_of_mem (next u rfl)
    exact Parser.modifierAt_eq_none hv sealed operator

/-- A parameter is read with other names for the variables in its type. -/
theorem ParamWords.Of.rename {x : ParamWords} {stop : Word} (text : FromText ws)
    (hx : x.Of ws (stop :: us)) (hs : stop.kind = .punct .comma ∨ stop.kind = .punct .rparen)
    (vs : List Word) : (x.rename ρ).Of ((x.rename ρ).words ++ stop :: vs) (stop :: vs) := by
  have path : IsPath x.type := hx.isPath text
  have path' : IsPath (x.rename ρ).type := path.rename
  obtain ⟨u, us', e, hu⟩ : ∃ u us', x.dots ++ x.name :: (x.dims ++ stop :: us) = u :: us' ∧
      (u.kind = .ident ∨ u.kind = .punct .ellipsis) := by
    obtain none | ⟨d, one, hd⟩ := hx.dots
    · exact ⟨x.name, _, by rw [none]; rfl, .inl hx.name⟩
    · exact ⟨d, _, by rw [one]; rfl, .inr hd⟩
  obtain ⟨u', us'', e', hu'⟩ : ∃ u us', x.dots ++ x.name :: (x.dims ++ stop :: vs) = u :: us' ∧
      (u.kind = .ident ∨ u.kind = .punct .ellipsis) := by
    obtain none | ⟨d, one, hd⟩ := hx.dots
    · exact ⟨x.name, _, by rw [none]; rfl, .inl hx.name⟩
    · exact ⟨d, _, by rw [one]; rfl, .inr hd⟩
  refine ⟨words_append, ?_, path'.typeWords_eq, hx.dots, hx.name, ?_⟩
  · obtain ⟨r, lead⟩ := hx.lead
    have start : isAt .ident (x.behindLead (stop :: us)) = true := by
      rw [behindLead, e]
      exact (path.modifierAt_eq_none hu).1
    obtain ⟨taken, e'', -, again⟩ := modifiersAfter_local lead start
    obtain rfl : x.lead = taken := List.append_cancel_right (hx.words.symm.trans e'')
    obtain ⟨start', none⟩ := @IsPath.modifierAt_eq_none _ us'' path' u' hu'
    rw [← e'] at start' none
    rw [words_append]
    exact again x.lead _ rfl start' none _
  · refine brackets_local ?_ ?_ hx.dims
    · obtain hs | hs := hs <;> simp [hs]
    · obtain hs | hs := hs <;> simp [hs]

/-- Each parameter is read up to the mark behind it, a comma or at last a parenthesis. -/
inductive ReadsParams : List (ParamWords × Word) → List Word → List Word → Prop where
  | last {x : ParamWords} {stop : Word} {ws rest : List Word} : x.Of ws (stop :: rest) →
      stop.kind = .punct .rparen → ReadsParams [(x, stop)] ws rest
  | cons {x : ParamWords} {stop : Word} {xs : List (ParamWords × Word)}
      {ws us rest : List Word} : x.Of ws (stop :: us) → stop.kind = .punct .comma →
      ReadsParams xs us rest → ReadsParams ((x, stop) :: xs) ws rest

/-- The words of parameters with the marks behind them. -/
def paramWords (xs : List (ParamWords × Word)) : List Word :=
  xs.flatMap fun x ↦ x.1.words ++ [x.2]

def renameParams (ρ : String → String) (xs : List (ParamWords × Word)) : List (ParamWords × Word) :=
  xs.map (Prod.map (·.rename ρ) id)

def paramsOf (xs : List (ParamWords × Word)) : List Param := xs.map (·.1.param)

namespace ReadsParams

variable {xs : List (ParamWords × Word)}

/-- The words of the parameters and of what is left. -/
theorem words_eq (h : ReadsParams xs ws rest) : ws = paramWords xs ++ rest := by
  induction h with
  | last hx _ => simpa [paramWords] using hx.words_eq
  | cons hx _ _ ih =>
    rw [hx.words_eq, ih]
    simp [paramWords]

theorem paramsTail_eq (h : ReadsParams xs ws rest) :
    paramsTail () ws = .ok (paramsOf xs, rest) := by
  induction h with
  | last hx hs =>
    rw [Parser.paramsTail_eq, bind_of_ok hx.param_eq,
      bind_of_ok (eat_of_not_isAt (isAt_of_kind hs (by decide))), if_neg (by simp),
      bind_of_ok (expect_cons hs)]
    rfl
  | cons hx hs _ ih =>
    rw [Parser.paramsTail_eq, bind_of_ok hx.param_eq,
      bind_of_ok (eat_of_isAt (by simp [isAt_cons, hs])), if_pos rfl, List.tail_cons, bind_of_ok ih]
    rfl

/-- Parameters do not start with the closing parenthesis. -/
theorem isAt_rparen (h : ReadsParams xs ws rest) : isAt (.punct .rparen) ws = false := by
  cases h with
  | last hx _ => exact isAt_rparen_of_param hx.param_eq
  | cons hx _ _ => exact isAt_rparen_of_param hx.param_eq

/-- Renamed parameters are read as parameters. -/
theorem rename (text : FromText ws) (h : ReadsParams xs ws rest) :
    ReadsParams (renameParams ρ xs) (paramWords (renameParams ρ xs) ++ rest) rest := by
  induction h with
  | @last x stop ws rest hx hs =>
    have words : paramWords (renameParams ρ [(x, stop)]) ++ rest =
        (x.rename ρ).words ++ stop :: rest := by simp [paramWords, renameParams]
    rw [words]
    exact .last (hx.rename text (.inr hs) rest) hs
  | @cons x stop xs ws us rest hx hs _ ih =>
    have later : FromText us := by
      rw [hx.words_eq, List.append_cons] at text
      exact text.of_append
    have words : paramWords (renameParams ρ ((x, stop) :: xs)) ++ rest =
        (x.rename ρ).words ++ stop :: (paramWords (renameParams ρ xs) ++ rest) := by
      simp [paramWords, renameParams]
    rw [words]
    exact .cons (hx.rename text (.inl hs) _) hs (ih later)

/-- Each of the parameters has words of its own. -/
theorem exists_of (text : FromText ws) (h : ReadsParams xs ws rest) :
    ∀ x ∈ xs, ∃ vs us, FromText vs ∧ x.1.Of vs us := by
  induction h with
  | last hx _ => exact List.forall_mem_singleton.2 ⟨_, _, text, hx⟩
  | cons hx _ _ ih =>
    refine List.forall_mem_cons.2 ⟨⟨_, _, text, hx⟩, ih ?_⟩
    rw [hx.words_eq, List.append_cons] at text
    exact text.of_append

end ReadsParams

/-- Whatever is read as parameters has words in this form. -/
theorem exists_readsParams {ps : List Param} {ws : List Word}
    (h : paramsTail () ws = .ok (ps, rest)) : ∃ xs, ReadsParams xs ws rest := by
  rw [paramsTail_eq] at h
  obtain ⟨p, us, hp, h₁⟩ := bind_eq_ok.1 h
  have := (strides_param.advances ws p us hp).2
  obtain ⟨x, hx⟩ := exists_paramWords hp
  obtain ⟨comma, vs, he, h₂⟩ := bind_eq_ok.1 h₁
  have := (Shortens.eat us comma vs he).length_le
  cases hat : isAt (.punct .comma) us with
  | true =>
    rw [eat_of_isAt hat] at he
    cases he
    obtain ⟨stop, vs, rfl, hs⟩ := exists_of_isAt hat
    obtain ⟨ps, zs, hps, h₃⟩ := bind_eq_ok.1 h₂
    cases h₃
    obtain ⟨xs, hxs⟩ := exists_readsParams hps
    exact ⟨_, .cons hx hs hxs⟩
  | false =>
    rw [eat_of_not_isAt hat] at he
    cases he
    obtain ⟨_, zs, hr, h₃⟩ := bind_eq_ok.1 h₂
    cases h₃
    obtain ⟨stop, rfl, hs, -⟩ := expect_eq_ok.1 hr
    exact ⟨_, .last hx hs⟩
termination_by ws.length

/-- Parameters are read up to these words.  If there are none, a parenthesis follows. -/
def ParamsBefore (xs : List (ParamWords × Word)) (rest : List Word) : Prop :=
  xs = [] ∧ isAt (.punct .rparen) rest = true ∨ ReadsParams xs (paramWords xs ++ rest) rest

namespace ParamsBefore

variable {xs : List (ParamWords × Word)}

/-- A parameter list from its words, with the case of none. -/
theorem params_eq {paren : Word} (hp : paren.kind = .punct .lparen) (h : ParamsBefore xs rest) :
    params (paren :: (paramWords xs ++ rest)) =
      .ok (paramsOf xs, if xs = [] then rest.tail else rest) := by
  rw [params, bind_of_ok (expect_cons hp)]
  obtain ⟨rfl, close⟩ | reads := h
  · rw [show paramWords [] ++ rest = rest from rfl, bind_of_ok (eat_of_isAt close), if_pos rfl]
    rfl
  · have some : xs ≠ [] := by
      rintro rfl
      cases reads
    rw [bind_of_ok (eat_of_not_isAt reads.isAt_rparen), if_neg (by simp), reads.paramsTail_eq,
      if_neg some]

theorem rename (text : FromText (paramWords xs ++ rest)) (h : ParamsBefore xs rest)
    (ρ : String → String) : ParamsBefore (renameParams ρ xs) rest := by
  obtain ⟨rfl, close⟩ | reads := h
  · exact .inl ⟨rfl, close⟩
  · exact .inr (reads.rename text)

theorem exists_of (text : FromText (paramWords xs ++ rest)) (h : ParamsBefore xs rest) :
    ∀ x ∈ xs, ∃ vs us, FromText vs ∧ x.1.Of vs us := by
  obtain ⟨rfl, -⟩ | reads := h
  · exact List.forall_mem_nil _
  · exact reads.exists_of text

end ParamsBefore

/-- Whatever is read as a parameter list has words in this form. -/
theorem exists_paramsBefore {ps : List Param} (h : params ws = .ok (ps, out)) :
    ∃ paren xs rest, ws = paren :: (paramWords xs ++ rest) ∧ paren.kind = .punct .lparen ∧
      ParamsBefore xs rest := by
  obtain ⟨_, vs, ho, h₁⟩ := bind_eq_ok.1 h
  obtain ⟨paren, rfl, hp, -⟩ := expect_eq_ok.1 ho
  obtain ⟨close, us, he, h₂⟩ := bind_eq_ok.1 h₁
  cases hat : isAt (.punct .rparen) vs with
  | true => exact ⟨paren, [], vs, rfl, hp, .inl ⟨rfl, hat⟩⟩
  | false =>
    rw [eat_of_not_isAt hat] at he
    cases he
    obtain ⟨xs, reads⟩ := exists_readsParams h₂
    obtain rfl := reads.words_eq
    exact ⟨paren, xs, out, rfl, hp, .inr reads⟩

/-! ## Headers -/

/-- The words of a method or a constructor with type parameters, up to its last parameter. -/
structure HeaderWords where
  opening : Word
  typeParams : List TypeParamWords
  /-- The result type, if there is one, the name and the parenthesis. -/
  middle : List Word
  params : List (ParamWords × Word)

/-- Type parameters are read up to these words. -/
structure TypeParamsBefore (opening : Word) (ts : List TypeParamWords) (rest : List Word) :
    Prop where
  balanced : balanced .lt .gt (opening :: ts.flatMap (·.words) ++ rest) = .ok ((), rest)
  opening : opening.kind = .punct .lt
  listed : Listed ts
  annotations : ∀ t ∈ ts, t.annotations = [] ∨ isAt (.punct .atSign) t.annotations = true

/-- A result type, if there is one, a name and a parenthesis. -/
def IsMiddle (ws : List Word) : Prop :=
  ∃ type name paren, ws = type ++ [name, paren] ∧ (type = [] ∨ typeWords type = .ok ((), [])) ∧
    name.kind = .ident ∧ paren.kind = .punct .lparen

namespace HeaderWords

variable {h : HeaderWords}

/-- The words of the type parameters. -/
def list (h : HeaderWords) : List Word := h.opening :: h.typeParams.flatMap (·.words)

def words (h : HeaderWords) : List Word := h.list ++ (h.middle ++ paramWords h.params)

/-- The type variables. -/
def vars (h : HeaderWords) : List String := h.typeParams.map (·.name.text)

/-- All names. -/
def names (h : HeaderWords) : List String := (h.words.filter (·.kind = .ident)).map (·.text)

def rename (ρ : String → String) (h : HeaderWords) : HeaderWords :=
  { h with typeParams := h.typeParams.map (·.rename ρ), params := renameParams ρ h.params }

/-- A declaration is read from these words and those behind them. -/
structure Of (h : HeaderWords) (rest : List Word) : Prop where
  list : TypeParamsBefore h.opening h.typeParams (h.middle ++ (paramWords h.params ++ rest))
  middle : IsMiddle h.middle
  params : ParamsBefore h.params rest

/-- The layout does not show in the type parameters and in the types of the parameters. -/
structure Plain (h : HeaderWords) : Prop where
  typeParams : ∀ t ∈ h.typeParams, t.Plain
  params : ∀ x ∈ h.params, x.1.Plain

instance (h : HeaderWords) : Decidable h.Plain :=
  decidable_of_iff ((∀ t ∈ h.typeParams, t.Plain) ∧ ∀ x ∈ h.params, x.1.Plain)
    ⟨fun both ↦ ⟨both.1, both.2⟩, fun plain ↦ ⟨plain.typeParams, plain.params⟩⟩

/-- No parameter has a variable for its type whose first bound is a variable that is renamed. -/
def Resolves (ρ : String → String) (h : HeaderWords) : Prop :=
  ∀ x ∈ h.params, x.1.Resolves ρ h.typeParams

instance (ρ : String → String) (h : HeaderWords) : Decidable (h.Resolves ρ) :=
  List.decidableBAll _ _

theorem words_append : h.words ++ rest = h.list ++ (h.middle ++ (paramWords h.params ++ rest)) := by
  simp [words]

end HeaderWords

/-! ## What is read behind the type parameters -/

/-- The same but for the type parameters and the parameters. -/
def Content.withHeader (typeParams : Option String) (ps : List Param) : Content → Content
  | .method m => .method { m with typeParams := typeParams, params := ps }
  | .constructor c => .constructor { c with typeParams := typeParams, params := ps }
  | .field f => .field f
  | .initializer b => .initializer b

section

variable {typeParams : Option String} {ps ps' : List Param} {name paren : Word}

/-- A constructor with other type parameters and parameters is read as it was, apart from these. -/
theorem constructor_withHeader {c : Constructor} (hp : paren.kind = .punct .lparen)
    (hps : Parser.params (paren :: us) = .ok (ps, rest))
    (hps' : Parser.params (paren :: vs) = .ok (ps', rest))
    (h : constructor typeParams column (name :: paren :: us) = .ok (c, out)) :
    (c.typeParams = typeParams ∧ c.params = ps ∧ c.compact = false) ∧ ∀ typeParams',
      constructor typeParams' column (name :: paren :: vs) =
        .ok ({ c with typeParams := typeParams', params := ps' }, out) := by
  have open_ (us : List Word) : isAt (.punct .lparen) (paren :: us) = true := by simp [isAt, hp]
  obtain ⟨n, _, hn, h₁⟩ := bind_eq_ok.1 h
  obtain ⟨w, e, hw, rfl⟩ := ident_eq_ok.1 hn
  cases e
  rw [lookAhead_bind] at h₁
  simp only [open_, Bool.not_true, Bool.false_eq_true, if_false] at h₁
  rw [bind_of_ok hps] at h₁
  obtain ⟨throws, xs, ht, h₂⟩ := bind_eq_ok.1 h₁
  obtain ⟨body, ys, hb, h₃⟩ := bind_eq_ok.1 h₂
  cases h₃
  refine ⟨⟨rfl, rfl, rfl⟩, fun _ ↦ ?_⟩
  rw [constructor, bind_of_ok (ident_cons hw), lookAhead_bind]
  simp only [open_, Bool.not_true, Bool.false_eq_true, if_false]
  rw [bind_of_ok hps', bind_of_ok ht, bind_of_ok hb]
  rfl

theorem method_withHeader {m : Method} {type n : String}
    (hps : Parser.params us = .ok (ps, rest)) (hps' : Parser.params vs = .ok (ps', rest))
    (h : method typeParams type n column us = .ok (m, out)) :
    (m.typeParams = typeParams ∧ m.params = ps) ∧ ∀ typeParams',
      method typeParams' type n column vs =
        .ok ({ m with typeParams := typeParams', params := ps' }, out) := by
  rw [method, bind_of_ok hps] at h
  obtain ⟨brs, us, hd, h₁⟩ := bind_eq_ok.1 h
  obtain ⟨throws, xs, ht, h₂⟩ := bind_eq_ok.1 h₁
  obtain ⟨hasDefault, ys, he, h₃⟩ := bind_eq_ok.1 h₂
  cases hasDefault with
  | true =>
    obtain ⟨value, zs, hv, h₄⟩ := bind_eq_ok.1 h₃
    obtain ⟨body, _, hb, h₅⟩ := bind_eq_ok.1 h₄
    cases h₅
    refine ⟨⟨rfl, rfl⟩, fun _ ↦ ?_⟩
    rw [method, bind_of_ok hps', bind_of_ok hd, bind_of_ok ht, bind_of_ok he, if_pos rfl,
      bind_of_ok hv]
    exact bind_of_ok hb
  | false =>
    obtain ⟨value, zs, hv, h₄⟩ := bind_eq_ok.1 h₃
    cases hv
    obtain ⟨body, _, hb, h₅⟩ := bind_eq_ok.1 h₄
    cases h₅
    refine ⟨⟨rfl, rfl⟩, fun _ ↦ ?_⟩
    rw [method, bind_of_ok hps', bind_of_ok hd, bind_of_ok ht, bind_of_ok he, if_neg (by simp),
      bind_of_ok pure_apply]
    exact bind_of_ok hb

/-- Behind the type parameters, other parameters change nothing but themselves. -/
theorem contentsAfter_withHeader {type : List Word} {c : Content}
    (ht : type = [] ∨ typeWords type = .ok ((), [])) (hn : name.kind = .ident)
    (hp : paren.kind = .punct .lparen) (hps : Parser.params (paren :: us) = .ok (ps, rest))
    (hps' : Parser.params (paren :: vs) = .ok (ps', rest))
    (h : contentsAfter owner column typeParams (type ++ name :: paren :: us) = .ok ([c], out)) :
    (∃ n, c.header? = some (n, typeParams, ps)) ∧ ∀ typeParams',
      contentsAfter owner column typeParams' (type ++ name :: paren :: vs) =
        .ok ([c.withHeader typeParams' ps'], out) ∧
      (c.withHeader typeParams' ps').header? = c.header?.map fun r ↦ (r.1, typeParams', ps') := by
  rw [contentsAfter, lookAhead_bind] at h
  obtain rfl | ht := ht
  · have ctor (us : List Word) : isAtConstructor owner ([] ++ name :: paren :: us) = true := by
      simp [isAtConstructor, isAt, hn, hp]
    rw [if_pos (ctor us)] at h
    obtain ⟨k, _, hk, h₁⟩ := bind_eq_ok.1 h
    cases h₁
    obtain ⟨⟨typeParams_eq, ps_eq, compact⟩, again⟩ := constructor_withHeader hp hps hps' hk
    refine ⟨⟨none, by simp [Content.header?, compact, typeParams_eq, ps_eq]⟩, fun _ ↦ ⟨?_, ?_⟩⟩
    · rw [contentsAfter, lookAhead_bind, if_pos (ctor vs), List.nil_append, bind_of_ok (again _)]
      rfl
    · simp [Content.header?, Content.withHeader, compact]
  · have reads := ReadsAsType.of_typeWords ht
    have ident (us : List Word) : isAt .ident (name :: paren :: us) = true := by simp [isAt, hn]
    have open_ (us : List Word) : isAt (.punct .lparen) (paren :: us) = true := by simp [isAt, hp]
    have ctor (us : List Word) : isAtConstructor owner (type ++ name :: paren :: us) = false := by
      obtain mark | start := reads.starts
      · simp [isAtConstructor, isAt_eq_of_isAt (isAt_append_of_isAt mark)]
      · exact isAtConstructor_of_startsWithName start (ident us)
    have typed (us : List Word) := reads.type_eq_ok (.of_isAt (ident us) (by decide))
    rw [if_neg (by simp [ctor]), bind_of_ok (typed us), bind_of_ok (ident_cons hn), lookAhead_bind,
      if_pos (open_ us)] at h
    obtain ⟨m, _, hm, h₁⟩ := bind_eq_ok.1 h
    cases h₁
    obtain ⟨⟨typeParams_eq, ps_eq⟩, again⟩ := method_withHeader hps hps' hm
    refine ⟨⟨some m.name, by simp [Content.header?, typeParams_eq, ps_eq]⟩, fun _ ↦ ⟨?_, rfl⟩⟩
    rw [contentsAfter, lookAhead_bind, if_neg (by simp [ctor]), bind_of_ok (typed vs),
      bind_of_ok (ident_cons hn), lookAhead_bind, if_pos (open_ vs), bind_of_ok (again _)]
    rfl

end

/-! ## Renamed declarations -/

/-- Renaming keeps the kinds of words, which is all that the reader looks at in type parameters. -/
theorem TypeParamWords.sameKinds_rename (ρ : String → String) (t : TypeParamWords) :
    SameKinds (t.rename ρ).words t.words := by
  have bounds := sameKinds_renameNames ρ .start 0 t.bounds
  rw [SameKinds] at bounds
  simp [SameKinds, words, rename, kind_renameWord, bounds]

/-- The name of a type is a name in it. -/
theorem IsPath.exists_mem_simpleName (path : IsPath ws) :
    ∃ w ∈ ws, w.kind = .ident ∧ w.text = simpleName ws := by
  obtain ⟨w, vs, hw, -, outer, -⟩ := @IsPath.outside_rename id _ path
  have some : (w :: vs).filter (·.kind = .ident) ≠ [] := by simp [hw]
  obtain ⟨u, last⟩ := Option.isSome_iff_exists.1 (List.getLast?_isSome.2 some)
  obtain ⟨mem, kind⟩ := List.mem_filter.1 (List.mem_of_getLast? last)
  rw [← outer] at mem
  refine ⟨u, outside_sublist.subset mem, by simpa using kind, ?_⟩
  rw [simpleName, outer, last]
  rfl

namespace HeaderWords

variable {h : HeaderWords}

theorem isToken (text : FromText (h.words ++ rest)) {w : Word} (hw : w ∈ h.words) :
    IsToken w.kind w.text.toList := text.isToken_of_mem w (List.mem_append_left _ hw)

theorem mem_words_of_typeParam {t : TypeParamWords} (ht : t ∈ h.typeParams) {w : Word}
    (hw : w ∈ t.words) : w ∈ h.words :=
  List.mem_append_left _ (List.mem_cons_of_mem _ (List.mem_flatMap.2 ⟨t, ht, hw⟩))

theorem mem_words_of_param {x : ParamWords × Word} (hx : x ∈ h.params) {w : Word}
    (hw : w ∈ x.1.type) : w ∈ h.words := by
  refine List.mem_append_right _ (List.mem_append_right _ (List.mem_flatMap.2 ⟨x, hx, ?_⟩))
  simp [ParamWords.words, hw]

/-- No angle bracket follows the one that opens the list. -/
theorem Of.head?_ne (text : FromText (h.words ++ rest)) (of : h.Of rest) (plain : h.Plain) :
    ∀ t ∈ h.typeParams.head?, t.text.head? ≠ some '<' := by
  intro t ht
  obtain ⟨ts, e⟩ := List.head?_eq_some_iff.1 ht
  have mem : t ∈ h.typeParams := by simp [e]
  obtain ⟨v, vs, words, hv⟩ : ∃ v vs, t.annotations ++ t.name :: t.bounds = v :: vs ∧
      v.kind ≠ .punct .lt := by
    obtain none | mark := of.list.annotations t mem
    · have name : t.name ∈ t.words := by simp [TypeParamWords.words]
      have token := isToken text (mem_words_of_typeParam mem name)
      have kind := kind_eq_of_isToken token (plain.typeParams t mem).name.1
      exact ⟨t.name, t.bounds, by simp [none], by simp [kind]⟩
    · obtain ⟨v, vs, e', hv⟩ := exists_of_isAt mark
      exact ⟨v, vs ++ t.name :: t.bounds, by simp [e'], by simp [hv]⟩
  have front : h.words ++ rest = h.opening :: v :: (vs ++ t.stop ::
      (ts.flatMap (·.words) ++ (h.middle ++ (paramWords h.params ++ rest)))) := by
    have : t.words = v :: vs ++ [t.stop] := by
      rw [TypeParamWords.words, ← words]
      simp
    rw [words_append, HeaderWords.list, e, List.flatMap_cons, this]
    simp
  rw [front] at text
  have first := text.head?_ne hv
  have some : v.text.toList ≠ [] := IsToken.ne_nil (FromText.isToken text.of_cons)
  rw [TypeParamWords.text, words, textFrom_cons, ← List.append_assoc, List.append_assoc,
    List.head?_append_of_ne_nil _ (by simp [some])]
  exact first

/-- The names that type parameters declare are names of the header. -/
theorem typeParam_mem_names (text : FromText (h.words ++ rest)) (plain : h.Plain) :
    ∀ t ∈ h.typeParams, t.name.text ∈ h.names := by
  intro t ht
  have mem := mem_words_of_typeParam ht (by simp [TypeParamWords.words] : t.name ∈ t.words)
  have kind := kind_eq_of_isToken (isToken text mem) (plain.typeParams t ht).name.1
  exact List.mem_map_of_mem (List.mem_filter.2 ⟨mem, by simpa using kind⟩)

theorem simpleName_mem_names {x : ParamWords × Word} (hx : x ∈ h.params) (path : IsPath x.1.type) :
    simpleName x.1.type ∈ h.names := by
  obtain ⟨w, hw, kind, name⟩ := path.exists_mem_simpleName
  rw [← name]
  exact List.mem_map_of_mem (List.mem_filter.2 ⟨mem_words_of_param hx hw, by simpa using kind⟩)

theorem fromText_params (text : FromText (h.words ++ rest)) :
    FromText (paramWords h.params ++ rest) := by
  rw [words_append, ← List.append_assoc] at text
  exact text.of_append

/-- The parameters are erased to the same types. -/
theorem eraseParams_rename (text : FromText (h.words ++ rest)) (of : h.Of rest) (plain : h.Plain)
    (renames : Renames ρ h.vars h.names) (resolves : h.Resolves ρ) :
    eraseParams (some (sourceText (h.rename ρ).list)) (paramsOf (h.rename ρ).params) =
      eraseParams (some (sourceText h.list)) (paramsOf h.params) := by
  have tokens : ∀ t ∈ h.typeParams, ∀ w ∈ t.words, IsToken w.kind w.text.toList :=
    fun t ht w hw ↦ isToken text (mem_words_of_typeParam ht hw)
  have stops : ∀ t ∈ h.typeParams, IsToken t.stop.kind t.stop.text.toList := fun t ht ↦
    tokens t ht t.stop (by simp [TypeParamWords.words])
  have opening : IsToken (.punct .lt) h.opening.text.toList :=
    of.list.opening ▸ isToken text (List.mem_append_left _ List.mem_cons_self)
  have respells : RespellsNames ρ := renames.respells <| by
    simpa [vars] using fun t ht ↦ (plain.typeParams t ht).name.2
  have start := of.head?_ne text plain
  rw [eraseParams, eraseParams, list, list]
  change ((renameParams ρ h.params).map (·.1.param)).map (eraseParam (typeVariables (some
    (sourceText (h.opening :: (h.typeParams.map (·.rename ρ)).flatMap (·.words)))))) = _
  rw [typeVariables_rename respells opening of.list.listed tokens start plain.typeParams,
    typeVariables_sourceText opening of.list.listed stops start plain.typeParams, paramsOf,
    renameParams, List.map_map, List.map_map, List.map_map]
  refine List.map_congr_left fun x hx ↦ ?_
  obtain ⟨vs, us, front, hof⟩ := of.params.exists_of (fromText_params text) x hx
  have path := hof.isPath front
  exact eraseParam_rename renames plain.typeParams tokens (typeParam_mem_names text plain)
    (simpleName_mem_names hx path) path (plain.params x hx) (hof.isToken front) hof.length_dots_le
    (resolves x hx)

/-- Renaming a header keeps the kinds of its type parameters. -/
theorem sameKinds_rename (ρ : String → String) (h : HeaderWords) :
    SameKinds (h.rename ρ).list h.list := by
  have each (t : TypeParamWords) := TypeParamWords.sameKinds_rename ρ t
  simp only [SameKinds] at each
  simp [SameKinds, HeaderWords.list, rename, List.map_flatMap, List.flatMap_map, each]

/-- The texts of the type parameters and of the parameters are all that changes. -/
theorem contents_rename {c : Content} (ρ : String → String) (text : FromText (h.words ++ rest))
    (of : h.Of rest) (read : contents owner column (h.words ++ rest) = .ok ([c], out)) :
    ∃ n c', c.header? = some (n, some (sourceText h.list), paramsOf h.params) ∧
      contents owner column ((h.rename ρ).words ++ rest) = .ok ([c'], out) ∧
      c'.header? = some (n, some (sourceText (h.rename ρ).list), paramsOf (h.rename ρ).params) := by
  obtain ⟨type, name, paren, middle, ht, hn, hp⟩ := of.middle
  have opening (h' : HeaderWords) (e : h'.opening = h.opening) (us : List Word) :
      isAt (.punct .lt) (h'.list ++ us) = true := by
    simp [HeaderWords.list, isAt, e, of.list.opening]
  have balance : balanced .lt .gt (h.list ++ (h.middle ++ (paramWords h.params ++ rest))) =
      .ok ((), h.middle ++ (paramWords h.params ++ rest)) := of.list.balanced
  rw [words_append] at read
  have balance' : balanced .lt .gt
      ((h.rename ρ).list ++ (h.middle ++ (paramWords (h.rename ρ).params ++ rest))) =
        .ok ((), h.middle ++ (paramWords (h.rename ρ).params ++ rest)) := by
    obtain ⟨v, taken, w, e, -, again⟩ := balanced_local balance
    have list : h.list = v :: (taken ++ [w]) := List.append_cancel_right <| by rw [e]; simp
    exact again _ _ (list ▸ sameKinds_rename ρ h)
  have params := of.params.params_eq hp
  have params' := (of.params.rename (fromText_params text) ρ).params_eq hp
  have same : (if renameParams ρ h.params = [] then rest.tail else rest) =
      if h.params = [] then rest.tail else rest := by simp [renameParams]
  rw [same] at params'
  rw [contents_eq, if_pos (opening h rfl _), bind_of_ok (sourceOf_append_iff.2 ⟨balance, rfl⟩),
    middle, List.append_assoc] at read
  obtain ⟨⟨n, header⟩, again⟩ := contentsAfter_withHeader ht hn hp params params' read
  obtain ⟨read', header'⟩ := again (some (sourceText (h.rename ρ).list))
  have whole : (h.rename ρ).words ++ rest =
      (h.rename ρ).list ++ (h.middle ++ (paramWords (h.rename ρ).params ++ rest)) := words_append
  refine ⟨n, _, header, ?_, by rw [header', header]; rfl⟩
  rw [whole, contents_eq, if_pos (opening (h.rename ρ) rfl _),
    bind_of_ok (sourceOf_append_iff.2 ⟨balance', rfl⟩), middle, List.append_assoc]
  exact read'

end HeaderWords

/-- What has a header is read from a name and parameters, behind a type or not. -/
theorem exists_parts {typeParams : Option String} {c : Content}
    (read : contentsAfter owner column typeParams ws = .ok ([c], out)) (header : c.header?.isSome) :
    ∃ middle xs rest, ws = middle ++ (paramWords xs ++ rest) ∧ IsMiddle middle ∧
      ParamsBefore xs rest := by
  rw [contentsAfter, lookAhead_bind] at read
  split at read
  next =>
    obtain ⟨k, _, hk, h₁⟩ := bind_eq_ok.1 read
    cases h₁
    obtain ⟨n, us, hn, h₂⟩ := bind_eq_ok.1 hk
    obtain ⟨name, rfl, hname, -⟩ := ident_eq_ok.1 hn
    rw [lookAhead_bind] at h₂
    cases hp : isAt (.punct .lparen) us with
    | true =>
      simp only [hp, Bool.not_true, Bool.false_eq_true, if_false] at h₂
      obtain ⟨ps, _, hps, -⟩ := bind_eq_ok.1 h₂
      obtain ⟨paren, xs, rest, rfl, open_, hx⟩ := exists_paramsBefore hps
      exact ⟨[name, paren], xs, rest, rfl, ⟨[], name, paren, rfl, .inl rfl, hname, open_⟩, hx⟩
    | false =>
      -- A compact constructor has no header.
      simp only [hp, Bool.not_false, if_true] at h₂
      obtain ⟨ps, us, -, h₃⟩ := bind_eq_ok.1 h₂
      obtain ⟨throws, xs, -, h₄⟩ := bind_eq_ok.1 h₃
      obtain ⟨body, ys, -, h₅⟩ := bind_eq_ok.1 h₄
      cases h₅
      simp [Content.header?] at header
  next =>
    obtain ⟨type, us, ht, h₁⟩ := bind_eq_ok.1 read
    obtain ⟨n, xs, hn, h₂⟩ := bind_eq_ok.1 h₁
    obtain ⟨type, rfl, whole⟩ := exists_typeWords ht
    obtain ⟨name, rfl, hname, -⟩ := ident_eq_ok.1 hn
    rw [lookAhead_bind] at h₂
    split at h₂
    next =>
      obtain ⟨m, _, hm, -⟩ := bind_eq_ok.1 h₂
      obtain ⟨ps, _, hps, -⟩ := bind_eq_ok.1 hm
      obtain ⟨paren, ys, rest, rfl, open_, hx⟩ := exists_paramsBefore hps
      exact ⟨type ++ [name, paren], ys, rest, by simp,
        ⟨type, name, paren, rfl, .inr whole, hname, open_⟩, hx⟩
    next =>
      -- Fields have no header.
      obtain ⟨fs, _, -, h₃⟩ := bind_eq_ok.1 h₂
      obtain ⟨f, -, rfl⟩ := List.mem_map.1 <|
        (congrArg (c ∈ ·.1) (Except.ok.inj h₃)).mpr (List.mem_singleton_self c)
      cases header

/-- Every declaration with a list of type parameters has a header. -/
theorem exists_headerWords {c : Content} {opening : Word} {ts : List TypeParamWords}
    (read : contents owner column (opening :: ts.flatMap (·.words) ++ vs) = .ok ([c], out))
    (header : c.header?.isSome) (list : TypeParamsBefore opening ts vs) :
    ∃ (h : HeaderWords) (rest : List Word), h.opening = opening ∧ h.typeParams = ts ∧
      opening :: ts.flatMap (·.words) ++ vs = h.words ++ rest ∧ h.Of rest := by
  have lt : isAt (.punct .lt) (opening :: ts.flatMap (·.words) ++ vs) = true := by
    simp [isAt, list.opening]
  rw [contents_eq, if_pos lt, bind_of_ok (sourceOf_append_iff.2 ⟨list.balanced, rfl⟩)] at read
  obtain ⟨middle, xs, rest, rfl, hm, hx⟩ := exists_parts read header
  exact ⟨⟨opening, ts, middle, xs⟩, rest, rfl, rfl, by rw [HeaderWords.words_append]; rfl,
    ⟨list, hm, hx⟩⟩

/-- A declaration with type parameters has a header, and with other names for its variables it has
the same signature, so it is declared where it was. -/
theorem signature_rename {c : Content} (text : FromText ws)
    (read : contents owner column ws = .ok ([c], out)) :
    (c.header?.isSome → ∀ {opening ts vs}, ws = opening :: ts.flatMap (·.words) ++ vs →
      TypeParamsBefore opening ts vs → ∃ (h : HeaderWords) (rest : List Word),
        h.opening = opening ∧ h.typeParams = ts ∧ ws = h.words ++ rest ∧ h.Of rest) ∧
    ∀ {h : HeaderWords} {rest : List Word} {ρ : String → String}, ws = h.words ++ rest → h.Of rest →
      h.Plain → Renames ρ h.vars h.names → h.Resolves ρ →
        ∃ c', contents owner column ((h.rename ρ).words ++ rest) = .ok ([c'], out) ∧
          ∀ {i i' : Item}, i.content = c → i'.content = c' →
            (i.signature? owner).isSome ∧ i'.signature? owner = i.signature? owner ∧
              ∀ decl : TypeDecl, decl.declares owner i' = decl.declares owner i := by
  refine ⟨?_, ?_⟩
  · rintro header opening ts vs rfl list
    exact exists_headerWords read header list
  · rintro h rest ρ rfl of plain renames resolves
    obtain ⟨n, c', header, read', header'⟩ := h.contents_rename ρ text of read
    refine ⟨c', read', ?_⟩
    rintro i i' rfl rfl
    have before := Item.signature?_eq header owner
    have same : i'.signature? owner = i.signature? owner := by
      rw [Item.signature?_eq header' owner, before,
        HeaderWords.eraseParams_rename text of plain renames resolves]
    refine ⟨by rw [before]; rfl, same, fun decl ↦ ?_⟩
    rw [TypeDecl.declares, TypeDecl.declares, TypeDecl.counterpart?, TypeDecl.counterpart?, same]

/-- An instance with two variables, one of which bounds a list. -/
theorem signature_rename_variables :
    let ws := wordsOf [⟨.punct .lt, "", "<"⟩, ⟨.ident, "", "T"⟩,
      ⟨.keyword .extendsWord, " ", "extends"⟩, ⟨.ident, " ", "A"⟩, ⟨.punct .lt, "", "<"⟩,
      ⟨.ident, "", "U"⟩, ⟨.punct .gt, "", ">"⟩, ⟨.punct .comma, "", ","⟩, ⟨.ident, " ", "U"⟩,
      ⟨.punct .gt, "", ">"⟩, ⟨.ident, " ", "void"⟩, ⟨.ident, " ", "f"⟩, ⟨.punct .lparen, "", "("⟩,
      ⟨.ident, "", "T"⟩, ⟨.punct .ellipsis, "", "..."⟩, ⟨.ident, " ", "a"⟩,
      ⟨.punct .comma, "", ","⟩, ⟨.ident, " ", "List"⟩, ⟨.punct .lt, "", "<"⟩, ⟨.ident, "", "U"⟩,
      ⟨.punct .gt, "", ">"⟩, ⟨.ident, " ", "b"⟩, ⟨.punct .rparen, "", ")"⟩,
      ⟨.punct .semi, "", ";"⟩]
    let h : HeaderWords := ⟨ws[0],
      [⟨[], ws[1], (ws.drop 2).take 5, ws[7]⟩, ⟨[], ws[8], [], ws[9]⟩], (ws.drop 10).take 3,
      [(⟨[], [ws[13]], [ws[14]], ws[15], []⟩, ws[16]),
        (⟨[], (ws.drop 17).take 4, [], ws[21], []⟩, ws[22])]⟩
    let ρ (x : String) : String := if x = "T" then "X" else if x = "U" then "Y" else x
    let owner := TypeDecl.bare .classType "C"
    let i (typeParams type type' : String) : Item := ⟨none, [], .empty, .method ⟨some typeParams,
      "void", "f", [⟨none, type, true, "a"⟩, ⟨none, type', false, "b"⟩], none, none, none⟩⟩
    let before := i "<T extends A<U>, U>" "T" "List<U>"
    let after := i "<X extends A<Y>, Y>" "X" "List<Y>"
    contents owner 0 ws = .ok ([before.content], []) ∧
      contents owner 0 ((h.rename ρ).words ++ ws.drop 23) = .ok ([after.content], []) ∧
      (∃ (h : HeaderWords) (rest : List Word), h.vars = ["T", "U"] ∧ ws = h.words ++ rest ∧
        h.Of rest) ∧
      before.signature? owner = some (.method "f" ["A[]", "List"]) ∧
      ∀ decl : TypeDecl, decl.declares owner after = decl.declares owner before := by
  intro ws h ρ owner i before after
  have text : FromText ws := @fromText_of_tokenize
    "<T extends A<U>, U> void f(T... a, List<U> b);" ⟨_, ""⟩ (tokenize_eq_ok.2 (by decide +kernel))
  have read : contents owner 0 ws = .ok ([before.content], []) := by decide +kernel
  have read' : contents owner 0 ((h.rename ρ).words ++ ws.drop 23) = .ok ([after.content], []) := by
    decide +kernel
  have whole : ws = h.words ++ ws.drop 23 := by decide +kernel
  have list : TypeParamsBefore h.opening h.typeParams (ws.drop 10) :=
    ⟨by decide +kernel, rfl, ⟨rfl, rfl⟩, by decide +kernel⟩
  have of : h.Of (ws.drop 23) := by
    refine ⟨list, ⟨[ws[10]], ws[11], ws[12], rfl, .inr (by decide +kernel), rfl, rfl⟩, .inr ?_⟩
    exact .cons ⟨rfl, ⟨_, rfl⟩, rfl, .inr ⟨_, rfl, rfl⟩, rfl, by decide +kernel⟩ rfl
      (.last ⟨rfl, ⟨_, rfl⟩, rfl, .inl rfl, rfl, by decide +kernel⟩ rfl)
  have plain : h.Plain := by decide +kernel
  have vars : h.vars = ["T", "U"] := rfl
  have renames : Renames ρ h.vars h.names := by
    refine ⟨fun x hx ↦ ?_, by decide +kernel, by decide +kernel⟩
    simp only [vars, List.mem_cons, List.not_mem_nil, or_false, not_or] at hx
    simp [ρ, hx]
  have resolves : h.Resolves ρ := by decide +kernel
  obtain ⟨some, every⟩ := signature_rename text read
  obtain ⟨h', rest, opening, typeParams, words, of'⟩ := some rfl (by decide +kernel) list
  obtain ⟨c', again, matching⟩ := every whole of plain renames resolves
  obtain rfl : after.content = c' :=
    (List.cons.inj (congrArg Prod.fst (Except.ok.inj (read'.symm.trans again)))).1
  have names : h'.vars = ["T", "U"] := by rw [HeaderWords.vars, typeParams]; rfl
  exact ⟨read, read', ⟨h', rest, names, words, of'⟩, by decide +kernel,
    (@matching before after rfl rfl).2.2⟩

/-- A variable whose bound is a variable is erased to the name of the latter, so another name for
that shows. -/
theorem exists_variable_shows :
    let ws := wordsOf [⟨.punct .lt, "", "<"⟩, ⟨.ident, "", "T"⟩,
      ⟨.keyword .extendsWord, " ", "extends"⟩, ⟨.ident, " ", "U"⟩, ⟨.punct .comma, "", ","⟩,
      ⟨.ident, " ", "U"⟩, ⟨.punct .gt, "", ">"⟩, ⟨.ident, " ", "void"⟩, ⟨.ident, " ", "f"⟩,
      ⟨.punct .lparen, "", "("⟩, ⟨.ident, "", "T"⟩, ⟨.ident, " ", "t"⟩, ⟨.punct .rparen, "", ")"⟩,
      ⟨.punct .semi, "", ";"⟩]
    let h : HeaderWords := ⟨ws[0],
      [⟨[], ws[1], (ws.drop 2).take 2, ws[4]⟩, ⟨[], ws[5], [], ws[6]⟩], (ws.drop 7).take 3,
      [(⟨[], [ws[10]], [], ws[11], []⟩, ws[12])]⟩
    let ρ (x : String) : String := if x = "U" then "V" else x
    let owner := TypeDecl.bare .classType "C"
    let i (typeParams : String) : Item := ⟨none, [], .empty, .method ⟨some typeParams, "void", "f",
      [⟨none, "T", false, "t"⟩], none, none, none⟩⟩
    let before := i "<T extends U, U>"
    let after := i "<T extends V, V>"
    FromText ws ∧ ws = h.words ++ ws.drop 13 ∧ h.Of (ws.drop 13) ∧ h.Plain ∧
      Renames ρ h.vars h.names ∧ contents owner 0 ws = .ok ([before.content], []) ∧
      contents owner 0 ((h.rename ρ).words ++ ws.drop 13) = .ok ([after.content], []) ∧
      before.signature? owner = some (.method "f" ["U"]) ∧
      after.signature? owner = some (.method "f" ["V"]) ∧
      ({ owner with members := [.item after] } : TypeDecl).declares owner before = false := by
  intro ws h ρ owner i before after
  have text : FromText ws := @fromText_of_tokenize "<T extends U, U> void f(T t);" ⟨_, ""⟩
    (tokenize_eq_ok.2 (by decide +kernel))
  have of : h.Of (ws.drop 13) := by
    refine ⟨⟨by decide +kernel, rfl, ⟨rfl, rfl⟩, by decide +kernel⟩,
      ⟨[ws[7]], ws[8], ws[9], rfl, .inr (by decide +kernel), rfl, rfl⟩, .inr ?_⟩
    exact .last ⟨rfl, ⟨_, rfl⟩, rfl, .inl rfl, rfl, by decide +kernel⟩ rfl
  have vars : h.vars = ["T", "U"] := rfl
  have renames : Renames ρ h.vars h.names := by
    refine ⟨fun x hx ↦ ?_, by decide +kernel, by decide +kernel⟩
    simp only [vars, List.mem_cons, List.not_mem_nil, or_false, not_or] at hx
    simp [ρ, hx]
  exact ⟨text, by decide +kernel, of, by decide +kernel, renames, by decide +kernel,
    by decide +kernel, by decide +kernel, by decide +kernel, by decide +kernel⟩

end PlatformOverlay.Java
