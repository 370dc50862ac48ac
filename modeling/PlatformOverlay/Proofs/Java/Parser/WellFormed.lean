import PlatformOverlay.Java.Source
import PlatformOverlay.Proofs.Java.WellFormed

/-!
# What is read is well-formed

Each parser turns words of a text into well-formed declarations.  A parser that takes the parser for
members as an argument needs this of the members on fewer words, which is what the induction for
`members_wellFormed` provides.

There is a lemma for each rule, and all have one form: where the rule succeeds on words of a text,
its value is well-formed and what it leaves are again words of the text. What a part of a
declaration has to satisfy comes from how it is kept: as a name, a group, a type or a text up to a
mark, each with a predicate in `PlatformOverlay.Proofs.Java.Parser.Part`.

Some facts are about what a declaration is not. Without type parameters a method does not start like
another member, and a type is not the word `record` in front of a name and a parenthesis, or else it
would have been read in another way. These are needed when it is printed and read back.
-/

open PlatformOverlay.Java.Parser

namespace PlatformOverlay.Java

/-! ## Parts of declarations -/

namespace Parser

variable {ws rest : List Word}

/-- What a reader leaves of the words of a text are the last words of the text. -/
theorem fromText_of_eq_ok {α : Type} {p : Parser α} {a : α} (h : FromText ws) (hp : Shortens p)
    (e : p ws = .ok (a, rest)) : FromText rest := by
  obtain ⟨taken, rfl⟩ := hp ws a rest e
  exact h.of_append

/-- An annotation has a qualified name and, with arguments, a group in parentheses. -/
theorem annotationUse_wellFormed {a : Annotation} (h : FromText ws)
    (ha : annotationUse ws = .ok (a, rest)) : a.WellFormed := by
  obtain ⟨_, vs, hat, h₁⟩ := bind_eq_ok.1 ha
  have hvs := fromText_of_eq_ok h .expect hat
  obtain ⟨name, us, hn, h₂⟩ := bind_eq_ok.1 h₁
  have hus := fromText_of_eq_ok hvs (strides_qualifiedName _).shortens hn
  have name := isQualifiedName_of_eq_ok hvs hn
  rw [lookAhead_bind] at h₂
  split at h₂
  · rename_i hp
    obtain ⟨args, xs, hargs, h₃⟩ := bind_eq_ok.1 h₂
    cases h₃
    refine ⟨name, ?_⟩
    rintro _ ⟨⟩
    exact isGroup_of_eq_ok hus hp hargs
  · cases h₂
    exact ⟨name, by simp⟩

/-- The modifiers of a declaration are followed by neither a modifier nor an annotation, since
all of them have been taken. -/
theorem modifiersAfter_wellFormed {s r : List Annotation × Modifiers} {ws rest : List Word}
    (h : FromText ws) (hs : ∀ a ∈ s.1, a.WellFormed) (hm : modifiersAfter s ws = .ok (r, rest)) :
    (∀ a ∈ r.1, a.WellFormed) ∧ modifierAt rest = none ∧ isAtAnnotation rest = false := by
  obtain ⟨annotations, modifiers⟩ := s
  rw [modifiersAfter_eq] at hm
  split at hm
  · obtain ⟨a, vs, ha, h₁⟩ := bind_eq_ok.1 hm
    have := (strides_annotationUse.advances ws a vs ha).2
    refine modifiersAfter_wellFormed (fromText_of_eq_ok h strides_annotationUse.shortens ha) ?_ h₁
    have wf := annotationUse_wellFormed h ha
    intro b hb
    rcases List.mem_append.1 hb with hb | hb
    · exact hs b hb
    · exact List.mem_singleton.1 hb ▸ wf
  · rename_i hat
    rw [lookAhead_bind] at hm
    cases hd : modifierAt ws with
    | none =>
      rw [hd] at hm
      cases hm
      exact ⟨hs, hd, by simpa using hat⟩
    | some m =>
      obtain ⟨m, n⟩ := m
      rw [hd] at hm
      dsimp only at hm
      rw [skip_bind] at hm
      have : ws.length - n < ws.length := by simpa using (behind_of_modifierAt hd).2
      have hdrop : FromText (ws.drop n) := by
        refine @FromText.of_append (ws.take n) _ ?_
        rwa [List.take_append_drop]
      exact modifiersAfter_wellFormed (s := (annotations, modifiers.push m)) hdrop hs hm
termination_by ws.length

/-- A type that follows where no annotation starts has none. -/
theorem isAt_ident_of_type {t : String} (h : isAtAnnotation ws = false)
    (ht : type ws = .ok (t, rest)) : isAt .ident ws = true := by
  obtain ⟨_, vs, ha, h₁⟩ := bind_eq_ok.1 (sourceOf_eq_ok ht)
  rw [typeAnnotations_eq] at ha
  split at ha
  · obtain ⟨a, us, hann, -⟩ := bind_eq_ok.1 ha
    rw [isAtAnnotation_of_annotationUse hann] at h
    cases h
  · cases ha
    obtain ⟨_, us, hi, -⟩ := bind_eq_ok.1 h₁
    obtain ⟨w, rfl, hw, -⟩ := ident_eq_ok.1 hi
    simp [isAt_cons, hw]

/-- A parameter has a name, a type and modifiers that are read back. -/
theorem param_wellFormed {p : Param} (h : FromText ws) (hp : param ws = .ok (p, rest)) :
    p.WellFormed := by
  obtain ⟨⟨lead, r⟩, vs, hl, h₁⟩ := bind_eq_ok.1 hp
  have hvs := fromText_of_eq_ok h walks_modifiers.shortens (withSource_eq_ok hl)
  obtain ⟨-, -, none⟩ := modifiersAfter_wellFormed h (by simp) (withSource_eq_ok hl)
  obtain ⟨type, us, ht, h₂⟩ := bind_eq_ok.1 h₁
  have hus := fromText_of_eq_ok hvs strides_type.shortens ht
  have hi := isAt_ident_of_type none ht
  obtain ⟨varargs, xs, he, h₃⟩ := bind_eq_ok.1 h₂
  have hxs := fromText_of_eq_ok hus .eat he
  obtain ⟨name, ys, hn, h₄⟩ := bind_eq_ok.1 h₃
  cases h₄
  exact ⟨(withSource_modifiers_eq_ok h hl hi).1,
    ((type_eq_ok hvs ht).2.1 hi).append_brackets, isName_of_ident hxs hn⟩

/-- Parameters up to the parenthesis, by induction on the words. -/
theorem paramsTail_wellFormed {ps : List Param} {ws rest : List Word} (h : FromText ws)
    (hp : paramsTail () ws = .ok (ps, rest)) : ∀ p ∈ ps, p.WellFormed := by
  rw [paramsTail_eq] at hp
  obtain ⟨first, vs, hf, h₁⟩ := bind_eq_ok.1 hp
  have wf := param_wellFormed h hf
  have shorter := (strides_param.advances ws first vs hf).2
  have hvs := fromText_of_eq_ok h strides_param.shortens hf
  obtain ⟨comma, us, he, h₂⟩ := bind_eq_ok.1 h₁
  have hus := fromText_of_eq_ok hvs .eat he
  have := (Shortens.eat vs comma us he).length_le
  cases comma with
  | true =>
    obtain ⟨ps, xs, hps, h₃⟩ := bind_eq_ok.1 h₂
    cases h₃
    exact List.forall_mem_cons.2 ⟨wf, paramsTail_wellFormed hus hps⟩
  | false =>
    obtain ⟨_, _, _, h₃⟩ := bind_eq_ok.1 h₂
    cases h₃
    exact List.forall_mem_singleton.2 wf
termination_by ws.length

theorem params_wellFormed {ps : List Param} (h : FromText ws)
    (hp : params ws = .ok (ps, rest)) : ∀ p ∈ ps, p.WellFormed := by
  obtain ⟨_, vs, ho, h₁⟩ := bind_eq_ok.1 hp
  have hvs := fromText_of_eq_ok h .expect ho
  obtain ⟨close, us, he, h₂⟩ := bind_eq_ok.1 h₁
  have hus := fromText_of_eq_ok hvs .eat he
  cases close with
  | true =>
    cases h₂
    simp
  | false => exact paramsTail_wellFormed hus h₂

/-- Types with commas between them, by induction on the words. -/
theorem typeList_wellFormed {ts : List String} {ws rest : List Word} (h : FromText ws)
    (ht : typeList () ws = .ok (ts, rest)) : ∀ t ∈ ts, IsType t := by
  rw [typeList_eq] at ht
  obtain ⟨first, vs, hf, h₁⟩ := bind_eq_ok.1 ht
  have wf := (type_eq_ok h hf).1
  have shorter := (strides_type.advances ws first vs hf).2
  have hvs := fromText_of_eq_ok h strides_type.shortens hf
  obtain ⟨comma, us, he, h₂⟩ := bind_eq_ok.1 h₁
  have hus := fromText_of_eq_ok hvs .eat he
  have := (Shortens.eat vs comma us he).length_le
  cases comma with
  | true =>
    obtain ⟨ts, xs, hts, h₃⟩ := bind_eq_ok.1 h₂
    cases h₃
    exact List.forall_mem_cons.2 ⟨wf, typeList_wellFormed hus hts⟩
  | false =>
    cases h₂
    exact List.forall_mem_singleton.2 wf
termination_by ws.length

/-! ## Type headers -/

/-- The parts that are read between the name of a type and its body are well-formed, and the
others stay as they are. -/
theorem clauses_wellFormed {decl decl' : TypeDecl} {ws rest : List Word} (h : FromText ws)
    (hd : decl.HeadWellFormed) (hc : clauses decl ws = .ok (decl', rest)) :
    decl'.HeadWellFormed ∧ decl'.kind = decl.kind ∧ decl'.name = decl.name ∧
      decl'.enumConstants = decl.enumConstants := by
  rw [clauses_eq] at hc
  have list : ∀ next : List String → TypeDecl, ws ≠ [] →
      (do skip 1; let l ← typeList (); clauses (next l) : Parser TypeDecl) ws = .ok (decl', rest) →
      ∃ l vs, clauses (next l) vs = .ok (decl', rest) ∧ FromText vs ∧ vs.length < ws.length ∧
        ∀ t ∈ l, IsType t := by
    intro next ne hc
    rw [skip_bind] at hc
    obtain ⟨l, vs, hl, h₁⟩ := bind_eq_ok.1 hc
    have hdrop : FromText (ws.drop 1) := fromText_of_eq_ok (a := ()) h Shortens.skip rfl
    have := (walks_typeList.shortens _ _ _ hl).length_le
    have := length_drop_lt ne Nat.one_pos
    exact ⟨l, vs, h₁, fromText_of_eq_ok hdrop walks_typeList.shortens hl, by omega,
      typeList_wellFormed hdrop hl⟩
  split at hc
  · cases hc
    exact ⟨hd, rfl, rfl, rfl⟩
  split at hc
  · rename_i ho
    obtain ⟨text, vs, ht, h₁⟩ := bind_eq_ok.1 hc
    have := ((strides_sourceOf (strides_balanced _ _)).advances ws _ _ ht).2
    have hvs := fromText_of_eq_ok h (strides_sourceOf (strides_balanced _ _)).shortens ht
    have text_wf : ∀ s ∈ some text, IsGroup .lt .gt s := by
      rintro _ ⟨⟩
      exact isGroup_of_eq_ok h ho.1 ht
    have wf : TypeDecl.HeadWellFormed { decl with typeParams := some text } :=
      { hd with typeParams := text_wf }
    have later := clauses_wellFormed hvs wf h₁
    exact later
  split at hc
  · rename_i ho
    obtain ⟨ps, vs, hp, h₁⟩ := bind_eq_ok.1 hc
    have := (strides_params.advances ws _ _ hp).2
    have hvs := fromText_of_eq_ok h strides_params.shortens hp
    have wf : TypeDecl.HeadWellFormed { decl with components := ps } :=
      { hd with components := params_wellFormed h hp, record := fun _ ↦ ho.2 }
    have later := clauses_wellFormed hvs wf h₁
    exact later
  split at hc
  · obtain ⟨l, vs, h₁, hvs, shorter, hl⟩ := list _ (ne_nil_of_isAt ‹_›) hc
    have wf : TypeDecl.HeadWellFormed { decl with extending := l } := { hd with extending := hl }
    have later := clauses_wellFormed hvs wf h₁
    exact later
  split at hc
  · obtain ⟨l, vs, h₁, hvs, shorter, hl⟩ := list _ (ne_nil_of_isAt ‹_›) hc
    have wf : TypeDecl.HeadWellFormed { decl with implementing := l } :=
      { hd with implementing := hl }
    have later := clauses_wellFormed hvs wf h₁
    exact later
  split at hc
  · obtain ⟨l, vs, h₁, hvs, shorter, hl⟩ := list _ (ne_nil_of_isAtText ‹_›) hc
    have wf : TypeDecl.HeadWellFormed { decl with permitting := l } := { hd with permitting := hl }
    have later := clauses_wellFormed hvs wf h₁
    exact later
  · exact (failExpecting_ne_ok hc).elim
termination_by ws.length

/-! ## Members -/

/-- The exceptions of a method are kept as the text up to its body. -/
theorem throwsClause_wellFormed {throws : Option String} (h : FromText ws)
    (ht : throwsClause ws = .ok (throws, rest)) :
    ∀ s ∈ throws, IsTextUntil endsThrows throwsMarks s := by
  obtain ⟨b, vs, he, h₁⟩ := bind_eq_ok.1 ht
  have hvs := fromText_of_eq_ok h .eat he
  cases b with
  | true =>
    obtain ⟨text, us, hu, h₂⟩ := bind_eq_ok.1 h₁
    cases text with
    | none => exact (fail_ne_ok h₂).elim
    | some text =>
      cases h₂
      rintro _ ⟨⟩
      refine isTextUntil_of_eq_ok hvs hu fun _ kind hk rest' (hr : isAt kind rest' = true) ↦
        ⟨?_, ?_⟩
      · simp only [throwsMarks, List.mem_cons, List.not_mem_nil, or_false] at hk
        rcases hk with rfl | rfl | rfl <;> simp [endsThrows, hr]
      · exact stopsNoEarlier_of_head fun _ _ _ _ hw ↦ by simp [endsThrows, isAt_cons, hw]
  | false =>
    cases h₁
    simp

theorem constructor_wellFormed {c : Constructor} {owner : TypeDecl} {typeParams : Option String}
    {column : Nat} (h : FromText ws) (ho : isAtConstructor owner ws = true)
    (htp : ∀ s ∈ typeParams, IsGroup .lt .gt s)
    (hc : constructor typeParams column ws = .ok (c, rest)) :
    c.WellFormed owner.kind owner.name := by
  obtain ⟨name, vs, hn, h₁⟩ := bind_eq_ok.1 hc
  have hvs := fromText_of_eq_ok h .expect hn
  have hname := isName_of_ident h hn
  obtain ⟨w, rfl, hw, rfl⟩ := ident_eq_ok.1 hn
  rw [lookAhead_bind] at h₁
  cases hp : isAt (.punct .lparen) vs with
  | true =>
    simp only [hp, Bool.not_true, Bool.false_eq_true, if_false] at h₁
    obtain ⟨ps, us, hps, h₂⟩ := bind_eq_ok.1 h₁
    have hus := fromText_of_eq_ok hvs strides_params.shortens hps
    obtain ⟨throws, xs, ht, h₃⟩ := bind_eq_ok.1 h₂
    have hxs := fromText_of_eq_ok hus walks_throwsClause.shortens ht
    obtain ⟨body, ys, hb, h₄⟩ := bind_eq_ok.1 h₃
    cases h₄
    exact ⟨htp, hname, params_wellFormed hvs hps, throwsClause_wellFormed hus ht,
      (block_eq_ok hxs hb).1, by simp⟩
  | false =>
    simp only [hp, Bool.not_false, if_true] at h₁
    -- The body follows, so there are no exceptions.
    have compact : (owner.kind = .recordType ∧ w.text = owner.name) ∧
        isAt (.punct .lbrace) vs = true := by
      simpa [isAtConstructor, isAt_cons, isAtText, hw, hp] using ho
    have none : throwsClause vs = .ok (none, vs) := by
      rw [throwsClause, bind_of_ok (eat_of_not_isAt (by simp [isAt_eq_of_isAt compact.2]))]
      rfl
    obtain ⟨ps, us, hps, h₂⟩ := bind_eq_ok.1 h₁
    cases hps
    rw [bind_of_ok none] at h₂
    obtain ⟨body, ys, hb, h₄⟩ := bind_eq_ok.1 h₂
    cases h₄
    exact ⟨htp, hname, by simp, by simp, (block_eq_ok hvs hb).1,
      fun _ ↦ ⟨compact.1.1, compact.1.2, rfl, rfl⟩⟩

/-- Brackets are nothing or start with a pair. -/
theorem brackets_eq (ws : List Word) :
    (brackets ws).1 = "" ∨ ∃ t, (brackets ws).1 = "[]" ++ t := by
  fun_cases brackets ws with
  | case1 => exact .inr ⟨_, rfl⟩
  | case2 => exact .inl rfl
  | case3 => exact .inl rfl

/-- A type with brackets is not the word `record`, which would start a record declaration. -/
theorem append_brackets_ne_record {s : String} (h : s ≠ "record") :
    s ++ (brackets ws).1 ≠ "record" := by
  rcases brackets_eq ws with e | ⟨t, e⟩
  · simpa [e] using h
  · intro h'
    have : '[' ∈ (s ++ (brackets ws).1).toList := by simp [e]
    rw [h'] at this
    revert this
    decide +kernel

/-- A method has a block or none, and none if a semicolon follows. -/
theorem methodBody_wellFormed {body : Option Snippet} {column : Nat} (h : FromText ws)
    (hb : methodBody column ws = .ok (body, rest)) :
    (∀ b ∈ body, IsGroup .lbrace .rbrace b.text) ∧
      (isAt (.punct .semi) ws = true → body = none) := by
  rw [methodBody, lookAhead_bind] at hb
  split at hb
  · rename_i ho
    obtain ⟨b, vs, hblock, h₁⟩ := bind_eq_ok.1 hb
    cases h₁
    refine ⟨?_, fun hs ↦ ?_⟩
    · rintro _ ⟨⟩
      exact (block_eq_ok h hblock).1
    · simp [isAt_eq_of_isAt hs] at ho
  · obtain ⟨_, _, _, h₁⟩ := bind_eq_ok.1 hb
    cases h₁
    simp

/-- A method has a type that is read back. Without type parameters, it does not start like
another member. -/
theorem method_wellFormed {m : Method} {typeParams : Option String} {type name : String}
    {column : Nat} (h : FromText ws) (htp : ∀ s ∈ typeParams, IsGroup .lt .gt s)
    (ht : IsType type) (plain : typeParams = none → IsPlainType type ∧ type ≠ "record")
    (hn : IsName name) (hm : method typeParams type name column ws = .ok (m, rest)) :
    m.WellFormed := by
  obtain ⟨ps, vs, hps, h₁⟩ := bind_eq_ok.1 hm
  have hvs := fromText_of_eq_ok h strides_params.shortens hps
  obtain ⟨brs, us, hb, h₂⟩ := bind_eq_ok.1 h₁
  have hus := fromText_of_eq_ok hvs walks_dims.shortens hb
  obtain rfl : (brackets vs).1 = brs := congrArg Prod.fst (Except.ok.inj hb)
  obtain ⟨throws, xs, hth, h₃⟩ := bind_eq_ok.1 h₂
  have hxs := fromText_of_eq_ok hus walks_throwsClause.shortens hth
  obtain ⟨b, ys, he, h₄⟩ := bind_eq_ok.1 h₃
  have hys := fromText_of_eq_ok hxs .eat he
  have plain' : typeParams = none → IsPlainType (type ++ (brackets vs).1) ∧
      type ++ (brackets vs).1 ≠ "record" :=
    fun e ↦ ⟨(plain e).1.append_brackets, append_brackets_ne_record (plain e).2⟩
  cases b with
  | true =>
    simp only [if_true] at h₄
    obtain ⟨text, zs, hd, h₅⟩ := bind_eq_ok.1 h₄
    have hzs := fromText_of_eq_ok hys (walks_textUntil _).shortens hd
    obtain ⟨body, _, hbody, h₆⟩ := bind_eq_ok.1 h₅
    cases h₆
    obtain ⟨bodyWf, noBody⟩ := methodBody_wellFormed hzs hbody
    refine ⟨htp, ht.append_brackets, plain', hn, params_wellFormed h hps,
      throwsClause_wellFormed hus hth, bodyWf, ?_, fun _ ↦ noBody (stop_of_textUntil hd)⟩
    rintro _ rfl
    refine isTextUntil_of_eq_ok hys hd fun _ kind hk rest' hr ↦ ?_
    obtain rfl := List.mem_singleton.1 hk
    exact ⟨hr, stopsNoEarlier_of_head fun _ _ _ _ hw ↦ by simp [isAt_cons, hw]⟩
  | false =>
    simp only [Bool.false_eq_true, if_false] at h₄
    obtain ⟨text, zs, hd, h₅⟩ := bind_eq_ok.1 h₄
    cases hd
    obtain ⟨body, _, hbody, h₆⟩ := bind_eq_ok.1 h₅
    cases h₆
    exact ⟨htp, ht.append_brackets, plain', hn, params_wellFormed h hps,
      throwsClause_wellFormed hus hth, (methodBody_wellFormed hys hbody).1, by simp, by simp⟩

/-- An initializer is kept as the text up to a comma of the declaration or its semicolon. -/
theorem fieldInit_wellFormed {init : Option Snippet} {column : Nat} (h : FromText ws)
    (hi : fieldInit column ws = .ok (init, rest)) :
    ∀ s ∈ init, IsTextUntil endsInitializer [.punct .semi] s.text := by
  rw [fieldInit, lookAhead_bind] at hi
  split at hi
  · rw [skip_bind] at hi
    have hdrop : FromText (ws.drop 1) := fromText_of_eq_ok (a := ()) h Shortens.skip rfl
    obtain ⟨text, us, hu, h₁⟩ := bind_eq_ok.1 hi
    cases text with
    | none => exact (fail_ne_ok h₁).elim
    | some text =>
      cases h₁
      rintro _ ⟨⟩
      refine isTextUntil_of_eq_ok hdrop hu fun hs kind hk rest' hr ↦ ?_
      obtain rfl := List.mem_singleton.1 hk
      exact ⟨by simp [endsInitializer, hr], stopsNoEarlier_endsInitializer hs hr⟩
  · cases hi
    simp

/-- The fields of a declaration, by induction on the words. -/
theorem declarators_wellFormed {fs : List Field} {type name : String} {column : Nat}
    {ws rest : List Word} (h : FromText ws) (ht : IsType type) (hn : IsName name)
    (hd : declarators type column name ws = .ok (fs, rest)) : ∀ f ∈ fs, f.WellFormed := by
  rw [declarators_eq] at hd
  obtain ⟨brs, vs, hb, h₁⟩ := bind_eq_ok.1 hd
  have hvs := fromText_of_eq_ok h walks_dims.shortens hb
  have l₁ := (walks_dims.shortens ws brs vs hb).length_le
  obtain ⟨init, us, hi, h₂⟩ := bind_eq_ok.1 h₁
  have hus := fromText_of_eq_ok hvs (walks_fieldInit _).shortens hi
  have l₂ := ((walks_fieldInit _).shortens vs init us hi).length_le
  have wf : Field.WellFormed ⟨type ++ brs, name, init⟩ := by
    obtain rfl : (brackets ws).1 = brs := congrArg Prod.fst (Except.ok.inj hb)
    exact ⟨ht.append_brackets, hn, fieldInit_wellFormed hvs hi⟩
  obtain ⟨comma, xs, he, h₃⟩ := bind_eq_ok.1 h₂
  have hxs := fromText_of_eq_ok hus .eat he
  have l₃ := (Shortens.eat us comma xs he).length_le
  cases comma with
  | true =>
    obtain ⟨next, ys, hnext, h₄⟩ := bind_eq_ok.1 h₃
    have hys := fromText_of_eq_ok hxs .expect hnext
    have l₄ := (Advances.expect xs next ys hnext).2
    obtain ⟨fs, zs, hfs, h₅⟩ := bind_eq_ok.1 h₄
    cases h₅
    exact List.forall_mem_cons.2
      ⟨wf, declarators_wellFormed hys ht (isName_of_ident hxs hnext) hfs⟩
  | false =>
    obtain ⟨_, _, _, h₄⟩ := bind_eq_ok.1 h₃
    cases h₄
    exact List.forall_mem_singleton.2 wf
termination_by ws.length

/-- The word `record`, a name and a parenthesis begin a record. -/
theorem typeKindAt_of_record {w v : Word} (hw : w.shape = (.ident, "record"))
    (hv : v.kind = .ident) (hp : isAt (.punct .lparen) ws = true) :
    typeKindAt (w :: v :: ws) ≠ none := by
  obtain ⟨kind, text⟩ := Prod.ext_iff.1 hw
  simp_all [typeKindAt, Word.shape, isAt_cons]

/-- The content of a member behind its type parameters. -/
theorem contentsAfter_wellFormed {cs : List Content} {owner : TypeDecl} {column : Nat}
    {typeParams : Option String} (h : FromText ws) (htp : ∀ s ∈ typeParams, IsGroup .lt .gt s)
    (none : typeParams = none → isAtAnnotation ws = false ∧ typeKindAt ws = none)
    (hc : contentsAfter owner column typeParams ws = .ok (cs, rest)) :
    ∀ c ∈ cs, c.WellFormed owner.kind owner.name := by
  rw [contentsAfter, lookAhead_bind] at hc
  split at hc
  · rename_i ho
    obtain ⟨c, us, hctor, h₁⟩ := bind_eq_ok.1 hc
    cases h₁
    exact List.forall_mem_singleton.2 (constructor_wellFormed h ho htp hctor)
  · obtain ⟨type, us, ht, h₁⟩ := bind_eq_ok.1 hc
    have hus := fromText_of_eq_ok h strides_type.shortens ht
    obtain ⟨isType, plain, taken, rfl, spells⟩ := type_eq_ok h ht
    obtain ⟨name, xs, hn, h₂⟩ := bind_eq_ok.1 h₁
    have hxs := fromText_of_eq_ok hus .expect hn
    have hname := isName_of_ident hus hn
    rw [lookAhead_bind] at h₂
    split at h₂
    · rename_i hp
      obtain ⟨m, ys, hm, h₃⟩ := bind_eq_ok.1 h₂
      cases h₃
      refine List.forall_mem_singleton.2 (method_wellFormed hxs htp isType (fun e ↦ ?_) hname hm)
      obtain ⟨hat, hk⟩ := none e
      refine ⟨plain (isAt_ident_of_type hat ht), ?_⟩
      rintro rfl
      obtain ⟨w, rfl, hw, text⟩ :=
        spells.of_isToken (show Lexer.IsToken .ident _ by decide +kernel) rfl
      obtain ⟨v, rfl, hv, -⟩ := ident_eq_ok.1 hn
      exact typeKindAt_of_record (Prod.ext hw text) hv hp hk
    · obtain ⟨fs, ys, hfs, h₃⟩ := bind_eq_ok.1 h₂
      cases h₃
      intro c hc
      obtain ⟨f, hf, rfl⟩ := List.mem_map.1 hc
      exact declarators_wellFormed hxs isType hname hfs f hf

/-- The content of a member is what its kind says, in a type of this kind and name. -/
theorem contents_wellFormed {cs : List Content} {owner : TypeDecl} {column : Nat}
    (h : FromText ws) (hat : isAtAnnotation ws = false) (hk : typeKindAt ws = none)
    (hc : contents owner column ws = .ok (cs, rest)) :
    ∀ c ∈ cs, c.WellFormed owner.kind owner.name := by
  rw [contents_eq] at hc
  split at hc
  · rename_i hlt
    obtain ⟨text, vs, ht, h₁⟩ := bind_eq_ok.1 hc
    have hvs := fromText_of_eq_ok h (strides_sourceOf (strides_balanced _ _)).shortens ht
    refine contentsAfter_wellFormed hvs ?_ (by simp) h₁
    rintro _ ⟨⟩
    exact isGroup_of_eq_ok h hlt ht
  · exact contentsAfter_wellFormed h (by simp) (fun _ ↦ ⟨hat, hk⟩) hc

/-- Comments in front of the first word. -/
theorem isDoc_of_head {d : Snippet} (h : FromText ws) (hd : d ∈ ws.head?.bind Word.doc) :
    IsDoc d.text := by
  cases ws with
  | nil => simp at hd
  | cons w ws => exact FromText.isDoc h (by simpa using hd)

theorem length_lt_of_eat {kind : TokenKind} (h : eat kind ws = .ok (true, rest)) :
    rest.length < ws.length := by
  cases hk : isAt kind ws with
  | true =>
    rw [eat_of_isAt hk] at h
    cases h
    simpa using length_drop_lt (ne_nil_of_isAt hk) Nat.one_pos
  | false => simp [eat_of_not_isAt hk] at h

theorem eq_of_eat {kind : TokenKind} (h : eat kind ws = .ok (false, rest)) : ws = rest := by
  cases hk : isAt kind ws with
  | true => simp [eat_of_isAt hk] at h
  | false =>
    rw [eat_of_not_isAt hk] at h
    exact congrArg Prod.snd (Except.ok.inj h)

/-- Members read from fewer words than these are well-formed. -/
def MembersBefore (ws : List Word) : Prop :=
  ∀ {owner : TypeDecl} {vs rest : List Word} {ms : List Member}, vs.length < ws.length →
    FromText vs → members owner vs = .ok (ms, rest) → ∀ m ∈ ms, m.WellFormed owner.kind owner.name

/-- The constants of an enum are kept as the text up to the semicolon or the brace. -/
theorem enumConstants_wellFormed {constants : Option Snippet} (h : FromText ws)
    (hc : enumConstants ws = .ok (constants, rest)) :
    ∀ s ∈ constants, IsTextUntil endsConstants [.punct .semi] s.text := by
  rw [enumConstants, lookAhead_bind] at hc
  obtain ⟨text, vs, ht, h₁⟩ := bind_eq_ok.1 hc
  obtain ⟨_, us, _, h₂⟩ := bind_eq_ok.1 h₁
  cases h₂
  intro s hs
  obtain ⟨text, rfl, rfl⟩ := Option.map_eq_some_iff.1 hs
  refine isTextUntil_of_eq_ok h ht fun _ kind hk rest' hr ↦ ?_
  obtain rfl := List.mem_singleton.1 hk
  refine ⟨by simp [endsConstants, hr], ?_⟩
  exact stopsNoEarlier_of_head fun _ _ _ _ hw ↦ by simp [endsConstants, isAt_cons, hw]

/-- A body with well-formed members makes a well-formed head a well-formed declaration. -/
theorem typeBody_wellFormed {decl decl' : TypeDecl} (h : FromText ws) (hm : MembersBefore ws)
    (hd : decl.HeadWellFormed) (hb : typeBody members decl ws = .ok (decl', rest)) :
    decl'.All TypeDecl.WellFormed := by
  obtain ⟨_, vs, ho, h₁⟩ := bind_eq_ok.1 hb
  have hvs := fromText_of_eq_ok h .expect ho
  have shorter := (Advances.expect ws _ vs ho).2
  have build : ∀ {constants : Option Snippet} {us : List Word}, FromText us →
      us.length < ws.length → (∀ s ∈ constants, IsTextUntil endsConstants [.punct .semi] s.text) →
      (constants ≠ none → decl.kind = .enumType) →
      (do return { decl with enumConstants := constants, members := ← members decl } :
        Parser TypeDecl) us = .ok (decl', rest) → decl'.All TypeDecl.WellFormed := by
    intro constants us hus shorter hc enum h₂
    obtain ⟨ms, xs, hms, h₃⟩ := bind_eq_ok.1 h₂
    cases h₃
    have all := hm shorter hus hms
    have head : TypeDecl.HeadWellFormed
        { decl with enumConstants := constants, members := ms } := { hd with }
    exact .mk ⟨head, hc, enum, fun i hi ↦ all _ hi⟩ fun t ht ↦ all _ ht
  dsimp only at h₁
  split at h₁
  · rename_i hk
    obtain ⟨constants, us, hc, h₂⟩ := bind_eq_ok.1 h₁
    have hus := fromText_of_eq_ok hvs walks_enumConstants.shortens hc
    have := (walks_enumConstants.shortens vs _ us hc).length_le
    exact build hus (by omega) (enumConstants_wellFormed hvs hc) (fun _ ↦ hk) h₂
  · obtain ⟨constants, us, hc, h₂⟩ := bind_eq_ok.1 h₁
    cases hc
    exact build hvs shorter (by simp) (by simp) h₂

/-- A type declaration is well formed if all members behind its words are. -/
theorem typeDecl_wellFormed {decl : TypeDecl} {doc : Option Snippet}
    {annotations : List Annotation} {modifiers : Modifiers} (h : FromText ws)
    (hm : MembersBefore ws) (hdoc : ∀ d ∈ doc, IsDoc d.text)
    (ha : ∀ a ∈ annotations, a.WellFormed)
    (hd : typeDecl members doc annotations modifiers ws = .ok (decl, rest)) :
    decl.All TypeDecl.WellFormed := by
  rw [typeDecl, lookAhead_bind] at hd
  cases hk : typeKindAt ws with
  | none =>
    rw [hk] at hd
    exact (failExpecting_ne_ok hd).elim
  | some r =>
    obtain ⟨kind, n⟩ := r
    rw [hk] at hd
    dsimp only at hd
    rw [skip_bind] at hd
    have hvs : FromText (ws.drop n) := fromText_of_eq_ok (a := ()) h Shortens.skip rfl
    obtain ⟨name, us, hn, h₁⟩ := bind_eq_ok.1 hd
    have hus := fromText_of_eq_ok hvs .expect hn
    have shorter := (Advances.expect _ _ us hn).2
    obtain ⟨decl', xs, hc, h₂⟩ := bind_eq_ok.1 h₁
    have hxs := fromText_of_eq_ok hus (walks_clauses _).shortens hc
    have := ((walks_clauses _).shortens us _ xs hc).length_le
    rw [List.length_drop] at shorter
    have head :
        TypeDecl.HeadWellFormed { TypeDecl.bare kind name with doc, annotations, modifiers } :=
      ⟨hdoc, ha, isName_of_ident hvs hn, by simp [TypeDecl.bare], by simp [TypeDecl.bare],
        by simp [TypeDecl.bare], by simp [TypeDecl.bare], by simp [TypeDecl.bare],
        by simp [TypeDecl.bare]⟩
    exact typeBody_wellFormed hxs (fun hv ↦ hm (by omega)) (clauses_wellFormed hus head hc).1 h₂

theorem member_wellFormed {ms : List Member} {owner : TypeDecl} (h : FromText ws)
    (hm : MembersBefore ws) (hms : member members owner ws = .ok (ms, rest)) :
    ∀ m ∈ ms, m.WellFormed owner.kind owner.name := by
  rw [member, lookAhead_bind, lookAhead_bind] at hms
  obtain ⟨⟨annotations, modifiers⟩, vs, hmod, h₁⟩ := bind_eq_ok.1 hms
  have hvs := fromText_of_eq_ok h walks_modifiers.shortens hmod
  have := (walks_modifiers.shortens ws _ vs hmod).length_le
  obtain ⟨ha, -, none⟩ := modifiersAfter_wellFormed h (by simp) hmod
  dsimp only at h₁
  rw [get_bind] at h₁
  split at h₁
  · obtain ⟨b, us, hb, h₂⟩ := bind_eq_ok.1 h₁
    cases h₂
    exact List.forall_mem_singleton.2
      ⟨fun d ↦ isDoc_of_head h, ha, (block_eq_ok hvs hb).1⟩
  split at h₁
  · obtain ⟨t, us, ht, h₂⟩ := bind_eq_ok.1 h₁
    cases h₂
    exact List.forall_mem_singleton.2
      (typeDecl_wellFormed hvs (fun hv ↦ hm (by omega)) (fun d ↦ isDoc_of_head h) ha ht)
  · rename_i hk
    obtain ⟨cs, us, hcs, h₂⟩ := bind_eq_ok.1 h₁
    cases h₂
    intro m hmem
    obtain ⟨c, hc, rfl⟩ := List.mem_map.1 hmem
    exact ⟨fun d ↦ isDoc_of_head h, ha, contents_wellFormed hvs none (by simpa using hk) hcs c hc⟩

/-- Members are well formed, by induction on the words: those of nested types are read from
fewer. -/
theorem members_wellFormed {owner : TypeDecl} {ws rest : List Word} {ms : List Member}
    (h : FromText ws) (hms : members owner ws = .ok (ms, rest)) :
    ∀ m ∈ ms, m.WellFormed owner.kind owner.name := by
  rw [members_eq] at hms
  obtain ⟨semi, vs, he, h₁⟩ := bind_eq_ok.1 hms
  have hvs := fromText_of_eq_ok h .eat he
  cases semi with
  | true =>
    have := length_lt_of_eat he
    exact members_wellFormed hvs h₁
  | false =>
    obtain rfl := eq_of_eat he
    obtain ⟨brace, us, he', h₂⟩ := bind_eq_ok.1 h₁
    cases brace with
    | true =>
      cases h₂
      simp
    | false =>
      obtain rfl := eq_of_eat he'
      rw [if_neg (by simp), lookAhead_bind] at h₂
      split at h₂
      · exact (fail_ne_ok h₂).elim
      · obtain ⟨first, xs, hf, h₃⟩ := bind_eq_ok.1 h₂
        have hxs := fromText_of_eq_ok h (strides_member owner).shortens hf
        have := ((strides_member owner).advances _ _ _ hf).2
        obtain ⟨ms, ys, hms, h₄⟩ := bind_eq_ok.1 h₃
        cases h₄
        have firstWf := member_wellFormed h (fun _ hv hms ↦ members_wellFormed hv hms) hf
        have restWf := members_wellFormed hxs hms
        intro m hm
        exact (List.mem_append.1 hm).elim (firstWf m) (restWf m)
termination_by ws.length

/-! ## Compilation units -/

theorem importDecl_wellFormed {i : Import} (h : FromText ws)
    (hi : importDecl ws = .ok (i, rest)) : i.WellFormed := by
  obtain ⟨_, vs, ho, h₁⟩ := bind_eq_ok.1 hi
  have hvs := fromText_of_eq_ok h .expect ho
  obtain ⟨isStatic, us, he, h₂⟩ := bind_eq_ok.1 h₁
  have hus := fromText_of_eq_ok hvs .eat he
  obtain ⟨first, xs, hf, h₃⟩ := bind_eq_ok.1 h₂
  have hxs := fromText_of_eq_ok hus .expect hf
  obtain ⟨⟨path, wildcard⟩, ys, hp, h₄⟩ := bind_eq_ok.1 h₃
  obtain ⟨_, zs, _, h₅⟩ := bind_eq_ok.1 h₄
  cases h₅
  have start : dotted first [] = first := by simp [dotted]
  exact ⟨isQualifiedName_of_importPath hxs (isName_of_ident hus hf) (by simp) (start ▸ hp)⟩

theorem imports_wellFormed {is : List Import} {ws rest : List Word} (h : FromText ws)
    (hi : imports () ws = .ok (is, rest)) : ∀ i ∈ is, i.WellFormed := by
  rw [imports_eq] at hi
  obtain ⟨semi, vs, he, h₁⟩ := bind_eq_ok.1 hi
  have hvs := fromText_of_eq_ok h .eat he
  cases semi with
  | true =>
    have := length_lt_of_eat he
    exact imports_wellFormed hvs h₁
  | false =>
    obtain rfl := eq_of_eat he
    rw [if_neg (by simp), lookAhead_bind] at h₁
    split at h₁
    · obtain ⟨i, us, hf, h₂⟩ := bind_eq_ok.1 h₁
      have hus := fromText_of_eq_ok h strides_importDecl.shortens hf
      have := (strides_importDecl.advances _ _ _ hf).2
      obtain ⟨is, xs, his, h₃⟩ := bind_eq_ok.1 h₂
      cases h₃
      exact List.forall_mem_cons.2 ⟨importDecl_wellFormed h hf, imports_wellFormed hus his⟩
    · cases h₁
      simp
termination_by ws.length

/-- The types of a file are well formed at all depths. -/
theorem types_wellFormed {ts : List TypeDecl} {ws rest : List Word} (h : FromText ws)
    (ht : types () ws = .ok (ts, rest)) : ∀ t ∈ ts, t.All TypeDecl.WellFormed := by
  rw [types_eq, lookAhead_bind] at ht
  split at ht
  · cases ht
    simp
  · obtain ⟨semi, vs, he, h₁⟩ := bind_eq_ok.1 ht
    have hvs := fromText_of_eq_ok h .eat he
    cases semi with
    | true =>
      have := length_lt_of_eat he
      exact types_wellFormed hvs h₁
    | false =>
      obtain rfl := eq_of_eat he
      rw [if_neg (by simp), lookAhead_bind] at h₁
      obtain ⟨⟨annotations, modifiers⟩, us, hmod, h₂⟩ := bind_eq_ok.1 h₁
      have hus := fromText_of_eq_ok h walks_modifiers.shortens hmod
      have := (walks_modifiers.shortens _ _ us hmod).length_le
      have ha := (modifiersAfter_wellFormed h (by simp) hmod).1
      obtain ⟨t, xs, hd, h₃⟩ := bind_eq_ok.1 h₂
      have hxs := fromText_of_eq_ok hus (strides_typeDecl _ _ _).shortens hd
      have := ((strides_typeDecl _ _ _).advances us t xs hd).2
      obtain ⟨ts, ys, hts, h₄⟩ := bind_eq_ok.1 h₃
      cases h₄
      refine List.forall_mem_cons.2 ⟨?_, types_wellFormed hxs hts⟩
      exact typeDecl_wellFormed hus (fun _ hv hms ↦ members_wellFormed hv hms)
        (fun d ↦ isDoc_of_head h) ha hd
termination_by ws.length

theorem compilationUnit_wellFormed {u : CompilationUnit} (h : FromText ws)
    (hu : compilationUnit ws = .ok (u, rest)) : u.WellFormed := by
  rw [compilationUnit, lookAhead_bind] at hu
  obtain ⟨⟨annotations, modifiers⟩, vs, hmod, h₁⟩ := bind_eq_ok.1 hu
  have hvs := fromText_of_eq_ok h walks_modifiers.shortens hmod
  have ha := (modifiersAfter_wellFormed h (by simp) hmod).1
  have hdoc : ∀ d ∈ ws.head?.bind Word.doc, IsDoc d.text := fun d ↦ isDoc_of_head h
  obtain ⟨package, us, he, h₂⟩ := bind_eq_ok.1 h₁
  have hus := fromText_of_eq_ok hvs .eat he
  cases package with
  | true =>
    obtain ⟨name, xs, hn, h₃⟩ := bind_eq_ok.1 h₂
    have hxs := fromText_of_eq_ok hus (strides_qualifiedName _).shortens hn
    obtain ⟨_, ys, hs, h₄⟩ := bind_eq_ok.1 h₃
    have hys := fromText_of_eq_ok hxs .expect hs
    obtain ⟨is, zs, hi, h₅⟩ := bind_eq_ok.1 h₄
    have hzs := fromText_of_eq_ok hys walks_imports.shortens hi
    obtain ⟨ts, _, ht, h₆⟩ := bind_eq_ok.1 h₅
    cases h₆
    refine ⟨hdoc, by simp, ?_, ha, by simp, imports_wellFormed hys hi, types_wellFormed hzs ht⟩
    rintro _ ⟨⟩
    exact isQualifiedName_of_eq_ok hus hn
  | false =>
    obtain rfl := eq_of_eat he
    rw [if_neg (by simp)] at h₂
    split at h₂
    · obtain ⟨is, zs, hi, h₅⟩ := bind_eq_ok.1 h₂
      have hzs := fromText_of_eq_ok hvs walks_imports.shortens hi
      obtain ⟨ts, _, ht, h₆⟩ := bind_eq_ok.1 h₅
      cases h₆
      refine ⟨?_, ?_, by simp, by simp, by simp, imports_wellFormed hvs hi, types_wellFormed hzs ht⟩
      · intro d hd
        cases is with
        | nil => simp at hd
        | cons i is => exact hdoc d hd
      · cases is <;> simp
    · obtain ⟨t, xs, hd, h₃⟩ := bind_eq_ok.1 h₂
      have hxs := fromText_of_eq_ok hvs (strides_typeDecl _ _ _).shortens hd
      obtain ⟨ts, ys, hts, h₄⟩ := bind_eq_ok.1 h₃
      cases h₄
      refine ⟨by simp, by simp, by simp, by simp, by simp, by simp, List.forall_mem_cons.2
        ⟨?_, types_wellFormed hxs hts⟩⟩
      exact typeDecl_wellFormed hvs (fun _ hv hms ↦ members_wellFormed hv hms) hdoc ha hd

end Parser

variable {path : Path} {text : String} {u : CompilationUnit} {lexed : Lexer.Lexed}

theorem fromText_of_tokenize (h : tokenize text = .ok lexed) : FromText (wordsOf lexed.tokens) :=
  ⟨.atStart, lexed.tokens, lexed.trailing.toList, rfl,
    (Lexer.tokenizeChars_iff.1 (tokenize_eq_ok.1 h)).2.2, rfl⟩

theorem parse_of_tokenizeChars {rest : List Word} (hp : isModuleInfo path = false)
    (ht : Lexer.tokenizeChars text.toList = .ok lexed)
    (hu : Parser.compilationUnit (wordsOf lexed.tokens) = .ok (u, rest)) :
    parse path text = .ok u := by
  rw [parse, if_neg (by simp [hp]), tokenize_eq_ok.2 ht]
  dsimp only
  rw [hu]

/-- A file that is read has been tokenized, and its words have been read. -/
theorem parse_eq_ok (other : isModuleInfo path = false) (h : parse path text = .ok u) :
    ∃ lexed rest, tokenize text = .ok lexed ∧
      Parser.compilationUnit (wordsOf lexed.tokens) = .ok (u, rest) := by
  rw [parse, if_neg (by simp [other])] at h
  dsimp only at h
  split at h
  · cases h
  next lexed hlexed =>
    split at h
    next unit rest hunit =>
      cases h
      exact ⟨lexed, rest, hlexed, hunit⟩
    · cases h

/-- What is read from a text is well-formed. -/
theorem wellFormed_of_parse (h : parse path text = .ok u) : u.WellFormed := by
  cases info : isModuleInfo path with
  | true =>
    rw [parse, if_pos info] at h
    cases h
    exact ⟨by simp [CompilationUnit.empty], by simp [CompilationUnit.empty],
      by simp [CompilationUnit.empty], by simp [CompilationUnit.empty],
      by simp [CompilationUnit.empty], by simp [CompilationUnit.empty],
      by simp [CompilationUnit.empty]⟩
  | false =>
    obtain ⟨lexed, rest, hlexed, hunit⟩ := parse_eq_ok info h
    exact compilationUnit_wellFormed (fromText_of_tokenize hlexed) hunit

end PlatformOverlay.Java
