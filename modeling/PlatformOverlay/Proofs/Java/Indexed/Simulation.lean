import PlatformOverlay.Proofs.Java.Indexed.Agree
import PlatformOverlay.Proofs.Java.Indexed.Grammar

/-!
# The two readings of the grammar agree

For each rule, the reader with a cursor agrees with the parser of words.

Most of these proofs follow the rule from its first step to its last and have one line for each. The
others are about the places where the readings differ in form:

* a group is closed by a loop here and by a search there (`agrees_close`);
* segments and brackets are read one at a time here and at once there (`segments_eq`,
  `brackets_eq`);
* members call themselves within nested types, so that they agree by induction on the words that are
  left (`agrees_members`).
-/

namespace PlatformOverlay.Java.Indexed

variable {α β σ : Type} {input : Input} {words ws : List Word} {cursor : Nat}

/-! ## What stands further on -/

theorem length_pos_of_isAt {kind : TokenKind} (h : Parser.isAt kind ws = true) : 1 ≤ ws.length :=
  List.length_pos_iff.2 (Parser.ne_nil_of_isAt h)

theorem length_pos_of_isAtText {kind : TokenKind} {text : String}
    (h : Parser.isAtText kind text ws = true) : 1 ≤ ws.length :=
  List.length_pos_iff.2 (Parser.ne_nil_of_isAtText h)

theorem two_le_length {kind kind' : TokenKind}
    (h : Parser.isAt kind ws && Parser.isAt kind' ws.tail) : 2 ≤ ws.length := by
  have := length_pos_of_isAt (Bool.and_eq_true_iff.1 h).2
  rw [List.length_tail] at this
  omega

theorem modifierAt_bounds {m : Modifier} {n : Nat} (h : Parser.modifierAt ws = some (m, n)) :
    0 < n ∧ n ≤ ws.length := by
  cases ws with
  | nil => cases h
  | cons w ws =>
    rw [Parser.modifierAt] at h
    split at h
    · cases h
      simp
    · split at h
      · cases h
        simp
      split at h
      · rename_i spelled
        obtain _ | ⟨a, _ | ⟨b, ws⟩⟩ := ws
        · simp [Parser.isAtText] at spelled
        · simp at spelled
        · cases h
          simp
      · cases h
    · cases h

theorem typeKindAt_bounds {kind : TypeKind} {n : Nat} (h : Parser.typeKindAt ws = some (kind, n)) :
    n ≤ ws.length := by
  cases ws with
  | nil => cases h
  | cons w ws =>
    rw [Parser.typeKindAt] at h
    split at h
    · cases h
      simp
    · cases h
      simp
    · cases h
      simp
    · split at h
      · rename_i further
        cases h
        simpa using length_pos_of_isAt further
      · cases h
    · split at h
      · cases h
        simp
      · cases h
    · cases h

section

variable (h : Presents input words)

include h

theorem looks_isAtAnnotation : Looks input words isAtAnnotation Parser.isAtAnnotation := by
  refine ((looks_isAt h _).bind fun _ ↦ (looks_kindAt h 1).bind fun _ ↦ .pure).congr fun ws ↦ ?_
  rw [Parser.isAtAnnotation, Bool.eq_iff_iff]
  simp

theorem looks_isAtBrackets : Looks input words isAtBrackets Parser.isAtBrackets := by
  refine ((looks_isAt h _).bind fun _ ↦ (looks_kindAt h 1).bind fun _ ↦ .pure).congr fun ws ↦ ?_
  rw [Parser.isAtBrackets, Bool.eq_iff_iff]
  simp

/-- The look-ahead behind a comma reads tokens within the list only, the end of the text
included. -/
theorem looks_declaratorFollows :
    Looks input words declaratorFollows fun ws ↦ Parser.isAtDeclarator ws.tail := by
  refine ((looks_kindAt h 1).bind fun _ ↦ .ite ((looks_kindAt h 2).bind (k := fun kind ws ↦
    kind = some (.punct .comma) || kind = some (.punct .semi) || kind = some (.punct .lbracket) ||
      (kind = some .operator && textOf 2 ws = "=")) fun kind ↦ ?_) .pure).congr fun ws ↦ ?_
  · split
    · exact .pure
    · exact .pure
    · exact .pure
    · exact ((looks_textAt h 2).bind fun _ ↦ .pure).congr fun ws ↦ rfl
    · rename_i comma semi lbracket operator
      refine Looks.congr .pure fun ws ↦ ?_
      simpa using ⟨⟨⟨comma, semi⟩, lbracket⟩, fun e ↦ (operator e).elim⟩
  · rw [Parser.isAtDeclarator]
    obtain _ | ⟨a, _ | ⟨b, _ | ⟨c, ws⟩⟩⟩ := ws
    · rfl
    · rfl
    · simp [Parser.isAt, Parser.isAtText, kindOf]
    · simp [Parser.isAt, Parser.isAtText, textOf]

theorem looks_endsInitializer : Looks input words endsInitializer Parser.endsInitializer := by
  refine ((looks_isAt h _).bind fun _ ↦ .ite .pure ((looks_isAt h _).bind fun _ ↦
    .ite (looks_declaratorFollows h) .pure)).congr fun ws ↦ ?_
  rw [Parser.endsInitializer]
  cases Parser.isAt (.punct .semi) ws <;> cases Parser.isAt (.punct .comma) ws <;> rfl

/-- A constructor is told from a method by two tokens. -/
theorem looks_isAtConstructor (owner : TypeDecl) :
    Looks input words (isAtConstructor owner) (Parser.isAtConstructor owner) := by
  refine ((looks_isAt h _).bind fun _ ↦ .ite ((looks_kindAt h 1).bind fun _ ↦ .ite .pure
    ((looks_textAt h 0).bind fun _ ↦ (looks_kindAt h 1).bind fun _ ↦ .pure)) .pure).congr fun ws ↦
      ?_
  rw [Parser.isAtConstructor, Bool.eq_iff_iff]
  cases ws with
  | nil => simp [Parser.isAt]
  | cons w ws =>
    by_cases hk : w.kind = .ident <;> simp [Parser.isAtText, Parser.isAt, textOf, hk]

omit h in
theorem exists_of_kindOf_zero {kind : TokenKind} (h : kindOf 0 ws = some kind) :
    ∃ w vs, ws = w :: vs ∧ w.kind = kind := by
  cases ws with
  | nil => cases h
  | cons w vs => exact ⟨w, vs, rfl, Option.some.inj h⟩

/-- A modifier is known by up to three tokens, for which the texts are compared. -/
theorem looks_modifierAt : Looks input words modifierAt Parser.modifierAt := by
  refine (looks_kindAt h 0).bind_seen fun kind ↦ ?_
  split
  · refine ⟨_, .pure, fun ws seen ↦ ?_⟩
    obtain ⟨w, vs, rfl, hw⟩ := exists_of_kindOf_zero seen
    simp [Parser.modifierAt, hw]
  · refine ⟨_, (looks_textAt h 0).bind fun _ ↦ (looks_kindAt h 1).bind fun _ ↦ .ite .pure
      ((looks_kindAt h 1).bind fun _ ↦ (looks_textAt h 1).bind fun _ ↦
        (looks_textAt h 2).bind fun _ ↦ .ite .pure .pure), fun ws seen ↦ ?_⟩
    obtain ⟨w, vs, rfl, hw⟩ := exists_of_kindOf_zero seen
    rw [Parser.modifierAt, hw]
    obtain _ | ⟨a, _ | ⟨b, vs⟩⟩ := vs
    · simp [kindOf, textOf]
    · simp [kindOf, textOf]
    · simp [Parser.isAtText, kindOf, textOf, and_assoc]
  · rename_i keyword ident
    refine ⟨_, .pure, fun ws seen ↦ ?_⟩
    cases ws with
    | nil => rfl
    | cons w vs =>
      rw [kindOf_zero_cons] at seen
      rw [Parser.modifierAt]
      split
      · exact (keyword _ (seen.symm.trans (congrArg some ‹_›))).elim
      · exact (ident (seen.symm.trans (congrArg some ‹_›))).elim
      · rfl

/-- A type declaration is known by up to two words and a token. -/
theorem looks_typeKindAt : Looks input words typeKindAt Parser.typeKindAt := by
  refine (looks_kindAt h 0).bind_seen fun kind ↦ ?_
  have word {kind : TokenKind} {r : Option (TypeKind × Nat)}
      (e : ∀ w vs, w.kind = kind → Parser.typeKindAt (w :: vs) = r) :
      ∃ k, Looks input words (pure r) k ∧
        ∀ ws, kindOf 0 ws = some kind → k ws = Parser.typeKindAt ws := by
    refine ⟨_, .pure, fun ws seen ↦ ?_⟩
    obtain ⟨w, vs, rfl, hw⟩ := exists_of_kindOf_zero seen
    exact (e w vs hw).symm
  split
  · exact word fun w vs hw ↦ by simp [Parser.typeKindAt, hw]
  · exact word fun w vs hw ↦ by simp [Parser.typeKindAt, hw]
  · exact word fun w vs hw ↦ by simp [Parser.typeKindAt, hw]
  · refine ⟨_, (looks_kindAt h 1).bind fun _ ↦ .ite .pure .pure, fun ws seen ↦ ?_⟩
    obtain ⟨w, vs, rfl, hw⟩ := exists_of_kindOf_zero seen
    simp [Parser.typeKindAt, hw]
  · refine ⟨_, (looks_textAt h 0).bind fun _ ↦ (looks_kindAt h 1).bind fun _ ↦
      (looks_kindAt h 2).bind fun _ ↦ (looks_kindAt h 2).bind fun _ ↦ .ite .pure .pure,
      fun ws seen ↦ ?_⟩
    obtain ⟨w, vs, rfl, hw⟩ := exists_of_kindOf_zero seen
    simp [Parser.typeKindAt, textOf, hw]
  · refine ⟨_, .pure, fun ws seen ↦ ?_⟩
    cases ws with
    | nil => rfl
    | cons w vs =>
      rw [kindOf_zero_cons] at seen
      rw [Parser.typeKindAt]
      split <;> simp_all

/-! ## Groups -/

omit h in
/-- A failure can be reported at a token taken before. -/
theorem agreesAt_failAt {cause : Cause} {first : Nat} (bound : first ≤ words.length) :
    AgreesAt input words (failAt first cause : Reader α)
      (fun _ ↦ .error (Parser.faultAt cause (words.drop first))) cursor :=
  fun _ ↦ .failed cause first bound

/-- What is left of words behind the end of a group that begins with the words `group`, when
`depth` are open. -/
def close (opening closing : TokenKind) (group : List Word) : Nat → Parser Unit
  | 0 => pure ()
  | depth + 1 => fun ws ↦
    match Parser.afterClosing opening closing depth ws with
    | some left => .ok ((), left)
    | none => .error (Parser.faultAt .unbalanced group)

omit h in
/-- The closing loop inside a group, word by word. -/
theorem close_cons {opening closing : TokenKind} {group : List Word} {depth : Nat} {w : Word} :
    close opening closing group (depth + 1) (w :: ws) = close opening closing group
      (if w.kind = opening then depth + 2 else if w.kind = closing then depth else depth + 1)
      ws := by
  by_cases ho : w.kind = opening
  · simp [close, Parser.afterClosing, ho]
  by_cases hc : w.kind = closing
  · have other : closing ≠ opening := hc ▸ ho
    cases depth <;> simp [close, Parser.afterClosing, hc, other]
  · simp [close, Parser.afterClosing, ho, hc]

/-- The loop over a group agrees with the search for its end. By induction on the words that are
left, since the loop takes one in each round. -/
theorem agrees_close {opening closing : TokenKind} {first : Nat} (bound : first ≤ words.length)
    (depth : Nat) : Agrees input words (fixpoint (closeRule opening closing first) depth)
      (close opening closing (words.drop first) depth) := by
  refine agrees_fixpoint h.length (fun loop depth cursor ih ↦ ?_) depth
  cases depth with
  | zero => exact .pure
  | succ depth =>
    refine .look (looks_kindAt h 0) ?_
    cases hw : words.drop cursor with
    | nil =>
      refine .congr (agreesAt_failAt bound) ?_
      rw [hw]
      rfl
    | cons w ws =>
      exact .move_one h hw close_cons (ih _ _ (Nat.lt_succ_self cursor))

theorem agrees_group (opening closing : Punct) :
    Agrees input words (group opening closing) (Parser.balanced opening closing) := by
  intro cursor
  refine .look (looks_isAtEnd h) ?_
  cases hw : words.drop cursor with
  | nil =>
    refine .congr (Agrees.fail cursor) ?_
    rw [hw]
    rfl
  | cons w ws =>
    intro bound
    refine AgreesAt.here_bind (.move_one h hw ?_ (agrees_close h bound 1 _)) bound
    rw [hw]
    rfl

theorem agrees_balancedText (opening closing : Punct) :
    Agrees input words (balancedText opening closing)
      (Parser.sourceOf (Parser.balanced opening closing)) :=
  agrees_sourceOf h (agrees_group h opening closing)
    (Parser.strides_balanced opening closing).advances

theorem agrees_block (column : Nat) :
    Agrees input words (block column) (Parser.block column) := by
  refine .bind (.lookAhead (looks_isAt h _)) fun opens ↦ .ite ?_ (agrees_failExpecting h)
  exact .bind (agrees_balancedText h _ _) fun text ↦ .pure

theorem agrees_seek {stop : Reader Bool} {stop' : List Word → Bool}
    (hs : Looks input words stop stop') (depth : Nat) :
    Agrees input words (fixpoint (seekRule stop) depth)
      fun ws ↦ (Parser.seek stop' depth ws).map ((), ·) := by
  refine agrees_fixpoint h.length (p := fun depth ws ↦ (Parser.seek stop' depth ws).map ((), ·))
    (fun loop depth cursor ih ↦ ?_) depth
  refine .look (looks_kindAt h 0) ?_
  cases hw : words.drop cursor with
  | nil =>
    refine .congr (Agrees.fail cursor) ?_
    rw [hw]
    rfl
  | cons w ws =>
    refine .look (.ite hs .pure) ?_
    have stops : ((if depth = 0 then stop' (words.drop cursor) else false) = true) ↔
        depth = 0 ∧ stop' (w :: ws) := by
      rw [hw]
      split <;> simp_all
    by_cases here : depth = 0 ∧ stop' (w :: ws)
    · rw [if_pos (stops.2 here)]
      refine .of_done (fun _ ↦ rfl) fun _ ↦ ?_
      rw [hw, Parser.seek.eq_def]
      dsimp only
      rw [if_pos here]
      rfl
    · have written := Parser.seek.eq_def stop' depth (w :: ws)
      dsimp only at written
      rw [if_neg here] at written
      -- All three ways on go over one word and differ only in the depth behind it.
      have past {next : Nat} (e : Parser.seek stop' depth (w :: ws) = Parser.seek stop' next ws) :
          AgreesAt input words (do move 1; loop next)
            (fun ws ↦ (Parser.seek stop' depth ws).map ((), ·)) cursor :=
        .move_one h hw (congrArg (Except.map _) e) (ih next _ (Nat.lt_succ_self cursor))
      rw [if_neg fun e ↦ here (stops.1 e), seekPast]
      split
      · rename_i opens
        exact past (written.trans (if_pos opens))
      · rename_i opens
        rw [if_neg opens] at written
        split
        · rename_i closes
          rw [if_pos closes] at written
          cases depth with
          | zero =>
            refine .look (looks_found h) (.congr (Agrees.fail cursor) ?_)
            rw [hw, written]
            rfl
          | succ depth => exact past written
        · rename_i closes
          exact past (written.trans (if_neg closes))

/-- The text up to a mark is sliced only if a token was taken. -/
theorem agrees_textUntil {stop : Reader Bool} {stop' : List Word → Bool}
    (hs : Looks input words stop stop') :
    Agrees input words (textUntil stop) (Parser.textUntil stop') :=
  .bind (agrees_withSource h (agrees_seek h hs 0)) fun _ ↦ .pure

/-! ## Names -/

omit h in
/-- The segments of a name, one at a time behind what has been read of it. -/
theorem segments_eq (what : String) {name : String} :
    (.ok (name ++ (Parser.segments ws).1, (Parser.segments ws).2) :
      Except Fault (String × List Word)) =
    (if Parser.isAt (.punct .dot) ws && Parser.isAt .ident ws.tail then do
      Parser.skip 1
      let segment ← Parser.ident what
      fun ws ↦ .ok (name ++ "." ++ segment ++ (Parser.segments ws).1, (Parser.segments ws).2)
    else return name : Parser String) ws := by
  obtain _ | ⟨dot, _ | ⟨w, ws⟩⟩ := ws
  · simp [Parser.segments, Parser.isAt]
  · simp [Parser.segments, Parser.isAt]
  · by_cases here : dot.kind = .punct .dot ∧ w.kind = .ident
    · rw [Parser.segments, if_pos here, if_pos (by simp [Parser.isAt, here.1, here.2]),
        Parser.skip_bind, List.drop_one, List.tail_cons,
        Parser.bind_of_ok (Parser.ident_cons here.2)]
      simp [String.append_assoc]
    · rw [Parser.segments, if_neg here, if_neg (by simpa [Parser.isAt] using here),
        String.append_empty]
      rfl

theorem agrees_segments (what name : String) :
    Agrees input words (fixpoint (segmentsRule what) name)
      fun ws ↦ .ok (name ++ (Parser.segments ws).1, (Parser.segments ws).2) := by
  refine agrees_fixpoint h.length
    (p := fun name ws ↦ .ok (name ++ (Parser.segments ws).1, (Parser.segments ws).2))
    (fun loop name cursor ih ↦ ?_) name
  refine .congr (.look (looks_isAt h _) (.look (looks_kindAt h 1) ?_)) (segments_eq what)
  refine .ite (by simp) (fun here ↦ ?_) fun _ ↦ .pure
  have room := length_pos_of_isAt (Bool.and_eq_true_iff.1 here).1
  refine .move_bind h room (.bind_advances (agrees_ident h _) .expect fun segment next lt ↦ ?_)
  exact ih _ next (Nat.lt_of_succ_lt lt)

theorem agrees_qualifiedName (what : String) :
    Agrees input words (qualifiedName what) (Parser.qualifiedName what) :=
  .bind (agrees_ident h) fun first cursor ↦ .congr (agrees_segments h what first cursor) rfl

theorem agrees_importPath (path : String) :
    Agrees input words (fixpoint importPathRule path) (Parser.importPath path) := by
  refine agrees_fixpoint h.length (fun loop path cursor ih ↦ ?_) path
  refine .congr (.eat_ite h (.look_bind (looks_isAtText h _ _) ?_) .pure) Parser.importPath_eq
  refine .ite .rfl (fun here ↦ ?_) fun _ ↦ ?_
  · exact .move_bind h (length_pos_of_isAtText here) .pure
  · refine .bind_advances (agrees_ident h _) .expect fun segment next lt ↦ ?_
    exact ih _ next (Nat.lt_of_succ_lt lt)

theorem agrees_importDecl : Agrees input words importDecl Parser.importDecl := by
  refine .bind (agrees_expect h) fun _ ↦ .bind (agrees_eat h) fun isStatic ↦ ?_
  refine .bind (agrees_ident h) fun first ↦ .bind (agrees_importPath h first) fun path ↦ ?_
  exact .bind (agrees_expect h) fun _ ↦ .pure

/-! ## Annotations and modifiers -/

theorem agrees_annotationUse : Agrees input words annotationUse Parser.annotationUse := by
  refine .bind (agrees_expect h) fun _ ↦ .bind (agrees_qualifiedName h _) fun name ↦ ?_
  refine .bind (.lookAhead (looks_isAt h _)) fun hasArguments ↦ .ite ?_ .pure
  exact .bind (agrees_balancedText h _ _) fun arguments ↦ .pure

theorem agrees_modifiersAfter (s : List Annotation × Modifiers) :
    Agrees input words (fixpoint modifiersRule s) (Parser.modifiersAfter s) := by
  refine agrees_fixpoint h.length (fun loop s cursor ih ↦ ?_) s
  obtain ⟨annotations, modifiers⟩ := s
  refine .congr (.look ( looks_isAtAnnotation h) ?_) Parser.modifiersAfter_eq
  refine .ite .rfl (fun _ ↦ ?_) fun _ ↦ .look_bind (looks_modifierAt h) ?_
  · have taken := Parser.strides_annotationUse.advances
    exact .bind_advances (agrees_annotationUse h _) taken fun a next lt ↦ ih _ next lt
  · cases hm : Parser.modifierAt (words.drop cursor) with
    | none => exact .pure
    | some r =>
      obtain ⟨positive, room⟩ := modifierAt_bounds hm
      exact .move_bind h room (ih _ _ (Nat.lt_add_of_pos_right positive))

theorem agrees_modifiers : Agrees input words modifiers Parser.modifiers :=
  agrees_modifiersAfter h _

/-! ## Types and parameters -/

theorem agrees_typeAnnotations (u : Unit) :
    Agrees input words (fixpoint typeAnnotationsRule u) (Parser.typeAnnotations u) := by
  refine agrees_fixpoint h.length (fun loop _ cursor ih ↦ ?_) u
  refine .congr (.look (looks_isAt h _) (.ite .rfl (fun _ ↦ ?_) fun _ ↦ .pure))
    Parser.typeAnnotations_eq
  have taken := Parser.strides_annotationUse.advances
  exact .bind_advances (agrees_annotationUse h _) taken fun _ next lt ↦ ih _ next lt

/-- Rules that are fixpoints on both sides agree when their bodies do, given calls that agree. -/
theorem agrees_typeTail (u : Unit) :
    Agrees input words (fixpoint typeTailRule u) (Parser.typeTail u) := by
  refine agrees_fixpoint h.length (fun loop _ cursor ih ↦ ?_) u
  have two := ih () _ (Nat.lt_add_of_pos_right Nat.two_pos)
  refine .congr (.look (looks_isAt h _) (.look (looks_kindAt h 1) ?_)) Parser.typeTail_eq
  refine .ite (by simp) (fun here ↦ .move_bind h (two_le_length here) two) fun _ ↦ ?_
  refine .look (looks_isAt h _) (.ite .rfl (fun _ ↦ ?_) fun _ ↦ ?_)
  · have taken := (Parser.strides_balanced .lt .gt).advances
    exact .bounds_bind (agrees_group h _ _) taken fun next lt ↦ ih _ next lt
  · refine .look (looks_isAtBrackets h) (.ite .rfl (fun here ↦ ?_) fun _ ↦ .pure)
    exact .move_bind h (two_le_length here) two

theorem agrees_typeWords : Agrees input words typeWords Parser.typeWords := by
  refine .bind (agrees_typeAnnotations h _) fun _ ↦ ?_
  exact .bind (agrees_ident h) fun first ↦ agrees_typeTail h _

theorem agrees_type : Agrees input words type Parser.type :=
  agrees_sourceOf h (agrees_typeWords h) Parser.strides_typeWords.advances

omit h in
/-- Pairs of brackets, one at a time behind those that have been read. -/
theorem brackets_eq {taken : String} :
    (.ok (taken ++ (Parser.brackets ws).1, (Parser.brackets ws).2) :
      Except Fault (String × List Word)) =
    (if Parser.isAtBrackets ws then do
      Parser.skip 2
      fun ws ↦ .ok (taken ++ "[]" ++ (Parser.brackets ws).1, (Parser.brackets ws).2)
    else return taken : Parser String) ws := by
  rw [Parser.isAtBrackets]
  obtain _ | ⟨l, _ | ⟨r, ws⟩⟩ := ws
  · simp [Parser.brackets, Parser.isAt]
  · simp [Parser.brackets, Parser.isAt]
  · by_cases here : l.kind = .punct .lbracket ∧ r.kind = .punct .rbracket
    · rw [Parser.brackets, if_pos here, if_pos (by simp [Parser.isAt, here.1, here.2]),
        Parser.skip_bind]
      simp [String.append_assoc]
    · rw [Parser.brackets, if_neg here, if_neg (by simpa [Parser.isAt] using here),
        String.append_empty]
      rfl

theorem agrees_dims : Agrees input words dims Parser.dims := by
  have all (taken : String) : Agrees input words (fixpoint dimsRule taken) fun ws ↦
      .ok (taken ++ (Parser.brackets ws).1, (Parser.brackets ws).2) := by
    refine agrees_fixpoint h.length
      (p := fun taken ws ↦ .ok (taken ++ (Parser.brackets ws).1, (Parser.brackets ws).2))
      (fun loop taken cursor ih ↦ ?_) taken
    refine .congr (.look (looks_isAtBrackets h) ?_) brackets_eq
    refine .ite .rfl (fun here ↦ ?_) fun _ ↦ .pure
    exact .move_bind h (two_le_length here) (ih _ _ (Nat.lt_add_of_pos_right Nat.two_pos))
  exact fun cursor ↦ .congr (all "" cursor) (by simp [Parser.dims])

theorem agrees_typeList (u : Unit) :
    Agrees input words (fixpoint typeListRule u) (Parser.typeList u) := by
  refine agrees_fixpoint h.length (fun loop _ cursor ih ↦ ?_) u
  refine .congr (.bind_advances (agrees_type h _) Parser.strides_type.advances
    fun first next lt ↦ .eat_ite h ?_ .pure) Parser.typeList_eq
  exact .bind (ih _ _ (Nat.lt_succ_of_lt lt)) fun _ _ _ _ ↦ .pure

theorem agrees_param : Agrees input words param Parser.param := by
  refine .bind (agrees_withSource h (agrees_modifiers h)) fun lead ↦ ?_
  refine .bind (agrees_type h) fun written ↦ .bind (agrees_eat h) fun varargs ↦ ?_
  refine .bind (agrees_ident h) fun name ↦ ?_
  exact .bind (agrees_dims h) fun dims ↦ .pure

theorem agrees_paramsTail (u : Unit) :
    Agrees input words (fixpoint paramsRule u) (Parser.paramsTail u) := by
  refine agrees_fixpoint h.length (fun loop _ cursor ih ↦ ?_) u
  refine .congr (.bind_advances (agrees_param h _) Parser.strides_param.advances
    fun first next lt ↦ .eat_ite h ?_ ?_) Parser.paramsTail_eq
  · exact .bind (ih _ _ (Nat.lt_succ_of_lt lt)) fun _ _ _ _ ↦ .pure
  · exact .bind_agrees (agrees_expect h) fun _ _ _ ↦ .pure

theorem agrees_params : Agrees input words params Parser.params :=
  .bind (agrees_expect h) fun _ cursor ↦ .eat_ite h .pure (agrees_paramsTail h _ cursor)

/-! ## Declarations -/

theorem agrees_clauses (decl : TypeDecl) :
    Agrees input words (fixpoint clausesRule decl) (Parser.clauses decl) := by
  refine agrees_fixpoint h.length (fun loop decl cursor ih ↦ ?_) decl
  have list (next : List String → TypeDecl) (room : 1 ≤ (words.drop cursor).length) :
      AgreesAt input words (do move 1; let l ← typeList; loop (next l))
        (do Parser.skip 1; let l ← Parser.typeList (); Parser.clauses (next l)) cursor := by
    refine .move_bind h room (.bind_agrees (agrees_typeList h ()) fun l last le ↦ ?_)
    exact ih _ last (Nat.lt_of_succ_le le)
  -- One clause after another: each is the first that stands here, or the next one is looked for.
  refine .congr (.look (looks_isAt h _) (.ite .rfl (fun _ ↦ .pure) fun _ ↦ ?_)) Parser.clauses_eq
  refine .look (looks_isAt h _) (.ite (by simp) (fun _ ↦ ?_) fun _ ↦ ?_)
  · have taken := (Parser.strides_sourceOf (Parser.strides_balanced .lt .gt)).advances
    exact .bind_advances (agrees_balancedText h _ _ _) taken fun _ next lt ↦ ih _ next lt
  refine .look (looks_isAt h _) (.ite (by simp) (fun _ ↦ ?_) fun _ ↦ ?_)
  · have taken := Parser.strides_params.advances
    exact .bind_advances (agrees_params h _) taken fun _ next lt ↦ ih _ next lt
  refine .look (looks_isAt h _) (.ite .rfl (fun here ↦ ?_) fun _ ↦ ?_)
  · exact list _ (length_pos_of_isAt here)
  refine .look (looks_isAt h _) (.ite .rfl (fun here ↦ ?_) fun _ ↦ ?_)
  · exact list _ (length_pos_of_isAt here)
  refine .look (looks_isAtText h _ _) (.ite .rfl (fun here ↦ ?_) fun _ ↦ ?_)
  · exact list _ (length_pos_of_isAtText here)
  · exact agrees_failExpecting h cursor

theorem agrees_enumConstants : Agrees input words enumConstants Parser.enumConstants := by
  refine .bind (.lookAhead (looks_startColumn h)) fun column ↦ ?_
  refine .bind (agrees_textUntil h ?_) fun text ↦ .bind (agrees_eat h) fun _ ↦ .pure
  exact (looks_isAt h _).bind fun _ ↦ (looks_isAt h _).bind fun _ ↦ .pure

theorem agrees_throwsClause : Agrees input words throwsClause Parser.throwsClause := by
  refine fun cursor ↦ .eat_ite h (.bind_agrees (agrees_textUntil h ?_) fun text next _ ↦ ?_) .pure
  · exact (looks_isAt h _).bind fun _ ↦ (looks_isAt h _).bind fun _ ↦
      (looks_isAt h _).bind fun _ ↦ .pure
  · cases text with
    | some text => exact .pure
    | none => exact Agrees.fail next

theorem agrees_constructor (typeParams : Option String) (column : Nat) :
    Agrees input words (constructor typeParams column)
      (Parser.constructor typeParams column) := by
  refine .bind (agrees_ident h) fun name ↦ .bind (.lookAhead (looks_isAt h _)) fun opens ↦ ?_
  refine .join .pure (agrees_params h) fun params ↦ ?_
  refine .bind (agrees_throwsClause h) fun throws ↦ ?_
  exact .bind (agrees_block h column) fun body ↦ .pure

theorem agrees_methodBody (column : Nat) :
    Agrees input words (methodBody column) (Parser.methodBody column) := by
  refine .bind (.lookAhead (looks_isAt h _)) fun opens ↦ .ite ?_ ?_
  · exact .bind (agrees_block h column) fun body ↦ .pure
  · exact .bind (agrees_expect h) fun _ ↦ .pure

theorem agrees_method (typeParams : Option String) (type name : String) (column : Nat) :
    Agrees input words (method typeParams type name column)
      (Parser.method typeParams type name column) := by
  refine .bind (agrees_params h) fun params ↦ .bind (agrees_dims h) fun dims ↦ ?_
  refine .bind (agrees_throwsClause h) fun throws ↦ .bind (agrees_eat h) fun hasDefault ↦ ?_
  refine .join (agrees_textUntil h (looks_isAt h _)) .pure fun value ↦ ?_
  exact .bind (agrees_methodBody h column) fun body ↦ .pure

theorem agrees_fieldInit (column : Nat) :
    Agrees input words (fieldInit column) (Parser.fieldInit column) := by
  intro cursor
  refine .look_bind (looks_isAtText h _ _) (.ite .rfl (fun here ↦ ?_) fun _ ↦ .pure)
  refine .move_bind h (length_pos_of_isAtText here) ?_
  refine .bind_agrees (agrees_textUntil h (looks_endsInitializer h)) fun text next _ ↦ ?_
  cases text with
  | some text => exact .pure
  | none => exact Agrees.fail next

theorem agrees_declarators (type : String) (column : Nat) (name : String) :
    Agrees input words (fixpoint (declaratorsRule type column) name)
      (Parser.declarators type column name) := by
  refine agrees_fixpoint h.length (fun loop name cursor ih ↦ ?_) name
  refine .congr (.bind_agrees (agrees_dims h) fun _ next le ↦
    .bind_agrees (agrees_fieldInit h column) fun _ last le' ↦ .eat_ite h ?_ ?_)
    Parser.declarators_eq
  · refine .bind_advances (agrees_ident h _) .expect fun name further lt ↦ ?_
    exact .bind (ih name further (by omega)) fun _ _ _ _ ↦ .pure
  · exact .bind_agrees (agrees_expect h) fun _ _ _ ↦ .pure

theorem agrees_contents (owner : TypeDecl) (column : Nat) :
    Agrees input words (contents owner column) (Parser.contents owner column) := by
  have after (typeParams : Option String) : Agrees input words
      (do
        if ← isAtConstructor owner then
          return [.constructor (← constructor typeParams column)]
        else
          let type ← type
          let name ← ident "member name"
          if ← isAt (.punct .lparen) then
            return [.method (← method typeParams type name column)]
          else return (← fixpoint (declaratorsRule type column) name).map .field)
      (Parser.contentsAfter owner column typeParams) := by
    refine .bind (.lookAhead (looks_isAtConstructor h owner)) fun isConstructor ↦ .ite ?_ ?_
    · exact .bind (agrees_constructor h _ _) fun ctor ↦ .pure
    · refine .bind (agrees_type h) fun type ↦ .bind (agrees_ident h) fun name ↦ ?_
      refine .bind (.lookAhead (looks_isAt h _)) fun isMethod ↦ .ite ?_ ?_
      · exact .bind (agrees_method h _ _ _ _) fun method ↦ .pure
      · exact .bind (agrees_declarators h _ _ _) fun fields ↦ .pure
  refine .bind (.lookAhead (looks_isAt h _)) fun isGeneric ↦ .ite ?_ (.bind .pure after)
  exact .bind (agrees_balancedText h _ _) fun text ↦ .bind .pure after

section

variable {readMembers : TypeDecl → Reader (List Member)}

/-- A body agrees when members do behind its first word. -/
theorem agreesAt_typeBody {decl : TypeDecl}
    (hm : ∀ t next, cursor < next → AgreesAt input words (readMembers t) (Parser.members t) next) :
    AgreesAt input words (typeBody readMembers decl) (Parser.typeBody Parser.members decl)
      cursor := by
  refine .bind_advances (agrees_expect h _) .expect fun _ next lt ↦ ?_
  have rest (constants : Option Snippet) {last : Nat} (le : next ≤ last) : AgreesAt input words
      (do return { decl with enumConstants := constants, members := ← readMembers decl })
      (do return { decl with enumConstants := constants, members := ← Parser.members decl })
      last :=
    .bind (hm decl last (Nat.lt_of_lt_of_le lt le)) fun _ _ _ _ ↦ .pure
  refine .ite .rfl (fun _ ↦ ?_) fun _ ↦ ?_
  · exact .bind_agrees (agrees_enumConstants h) fun _ last le ↦ rest _ le
  · exact .bind_agrees .pure fun _ last le ↦ rest _ le

theorem agreesAt_typeDecl {start : Nat} {annotations : List Annotation} {modifiers : Modifiers}
    (hm : ∀ t next, cursor < next → AgreesAt input words (readMembers t) (Parser.members t) next) :
    AgreesAt input words (typeDecl readMembers start annotations modifiers)
      (Parser.typeDecl Parser.members (words[start]?.bind Word.doc) annotations modifiers)
      cursor := by
  refine .look_bind (looks_typeKindAt h) ?_
  cases hk : Parser.typeKindAt (words.drop cursor) with
  | none => exact agrees_failExpecting h cursor
  | some r =>
    refine .move_bind h (typeKindAt_bounds hk) ?_
    refine .bind_advances (agrees_ident h _) .expect fun name next lt ↦ .docBefore_bind h ?_
    refine .bind_agrees (agrees_clauses h _) fun decl last le ↦ ?_
    exact agreesAt_typeBody h fun t further lt' ↦ hm t further (by omega)

theorem agreesAt_member {owner : TypeDecl}
    (hm : ∀ t next, cursor < next → AgreesAt input words (readMembers t) (Parser.members t) next) :
    AgreesAt input words (member readMembers owner) (Parser.member Parser.members owner)
      cursor := by
  have first : words[cursor]? = (words.drop cursor).head? := List.head?_drop.symm
  refine .here_bind (.docBefore_bind h (.known (.look_bind (looks_startColumn h) ?_)))
  refine .bind_agrees (agrees_modifiers h) fun r next le ↦ .known (l := id) ?_
  refine .look (looks_isAt h _) (.ite .rfl (fun _ ↦ ?_) fun _ ↦ ?_)
  · rw [first]
    exact .bind_agrees (agrees_block h _) fun _ _ _ ↦ .pure
  refine .look (looks_typeKindAt h) (.ite .rfl (fun _ ↦ ?_) fun _ ↦ ?_)
  · rw [← first]
    exact .bind (agreesAt_typeDecl h fun t last lt ↦ hm t last (by omega)) fun _ _ _ _ ↦ .pure
  · rw [first]
    exact .bind_agrees (agrees_contents h owner _) fun _ _ _ ↦ .pure

end

/-- Members agree, by induction on the words that are left: the members of nested types are read
from fewer. -/
theorem agrees_members (owner : TypeDecl) :
    Agrees input words (members owner) (Parser.members owner) := by
  refine agrees_fixpoint h.length (fun loop owner cursor ih ↦ ?_) owner
  refine .congr (.eat_ite h (ih _ _ (Nat.lt_succ_self cursor)) (.eat_ite h .pure ?_))
    Parser.members_eq
  refine .look_bind (looks_isAtEnd h) (.ite .rfl (fun _ ↦ Agrees.fail cursor) fun _ ↦ ?_)
  have taken := (Parser.strides_member owner).advances
  refine .bind_advances (agreesAt_member h ih) taken fun first next lt ↦ ?_
  exact .bind (ih owner next lt) fun _ _ _ _ ↦ .pure

theorem agrees_typeDecl {start : Nat} {annotations : List Annotation} {modifiers : Modifiers} :
    Agrees input words (typeDecl members start annotations modifiers)
      (Parser.typeDecl Parser.members (words[start]?.bind Word.doc) annotations modifiers) :=
  fun _ ↦ agreesAt_typeDecl h fun t next _ ↦ agrees_members h t next

theorem agrees_imports (u : Unit) :
    Agrees input words (fixpoint importsRule u) (Parser.imports u) := by
  refine agrees_fixpoint h.length (fun loop _ cursor ih ↦ ?_) u
  refine .congr (.eat_ite h (ih _ _ (Nat.lt_succ_self cursor)) ?_) Parser.imports_eq
  refine .look_bind (looks_isAt h _) (.ite .rfl (fun _ ↦ ?_) fun _ ↦ .pure)
  have taken := Parser.strides_importDecl.advances
  refine .bind_advances (agrees_importDecl h _) taken fun first next lt ↦ ?_
  exact .bind (ih _ next lt) fun _ _ _ _ ↦ .pure

/-- The types of a file agree, with the comments and modifiers in front of each. -/
theorem agrees_types (u : Unit) : Agrees input words (fixpoint typesRule u) (Parser.types u) := by
  refine agrees_fixpoint h.length (fun loop _ cursor ih ↦ ?_) u
  refine .congr (.look_bind (looks_isAtEnd h) (.ite .rfl (fun _ ↦ .pure) fun _ ↦ ?_))
    Parser.types_eq
  refine .eat_ite h (ih _ _ (Nat.lt_succ_self cursor)) (.here_bind (.known ?_))
  refine .bind_agrees (agrees_modifiers h) fun r next le ↦ ?_
  have first : words[cursor]? = (words.drop cursor).head? := List.head?_drop.symm
  rw [← first]
  have taken := (Parser.strides_typeDecl (words[cursor]?.bind Word.doc) r.1 r.2).advances
  refine .bind_advances (agrees_typeDecl h next) taken fun decl last lt ↦ ?_
  exact .bind (ih _ last (Nat.lt_of_le_of_lt le lt)) fun _ _ _ _ ↦ .pure

/-- The readers of a whole file agree from its first token on. -/
theorem agrees_compilationUnit :
    AgreesAt input words compilationUnit Parser.compilationUnit 0 := by
  have first : words[0]? = (words.drop 0).head? := List.head?_drop.symm
  refine .docBefore_bind h (.here_bind (.known ?_))
  refine .bind_agrees (agrees_modifiers h) fun r next le ↦ ?_
  refine .eat_ite h ?_ (.ite .rfl (fun _ ↦ ?_) fun _ ↦ ?_)
  · rw [first]
    refine .bind_agrees (agrees_qualifiedName h _) fun package _ _ ↦ ?_
    refine .bind_agrees (agrees_expect h) fun _ _ _ ↦ ?_
    refine .bind_agrees (agrees_imports h ()) fun imports _ _ ↦ ?_
    exact .bind_agrees (agrees_types h ()) fun types _ _ ↦ .pure
  · rw [first]
    refine .bind_agrees (agrees_imports h ()) fun imports _ _ ↦ ?_
    exact .bind_agrees (agrees_types h ()) fun types _ _ ↦ .pure
  · rw [← first]
    refine .bind_agrees (agrees_typeDecl h) fun first _ _ ↦ ?_
    exact .bind_agrees (agrees_types h ()) fun types _ _ ↦ .pure

end

end PlatformOverlay.Java.Indexed
