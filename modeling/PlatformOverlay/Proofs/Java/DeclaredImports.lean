import PlatformOverlay.Proofs.Java.Parser.WellFormed

/-!
# The import declarations of a source text

The parser keeps what an import declaration says and forgets how it is written.  `declaredIn` takes
a source text apart at the declarations that the parser reads: they say what the parser has read
(`map_value_declaredIn`), they make up the text together with what is in front of them and
`behindImports` (`toList_eq`), and each is the source text of words that the parser reads as a
declaration (`exists_words_of_mem_declaredIn`).

`declaredIn` runs the parser of the grammar on the words of the text and looks at which words each
declaration has taken. So it is no second reading of imports, and what it finds is known to be what
a whole file has read behind its header (`exists_header`).
-/

namespace PlatformOverlay.Java

/-- An import declaration and where it stands. -/
structure DeclaredImport where
  /-- The source text in front of it, back to the declaration before it or to the start. -/
  lead : String
  /-- The source text from the word `import` to the semicolon. -/
  source : String
  value : Import
deriving DecidableEq, Repr

namespace DeclaredImport

def chars (d : DeclaredImport) : List Char := d.lead.toList ++ d.source.toList

end DeclaredImport

namespace Parser

/-- What stands in front of the import declarations. -/
def header : Parser Unit := do
  let _ ← modifiers
  if ← eat (.keyword .packageWord) then
    let _ ← qualifiedName "package name"
    let _ ← expect (.punct .semi) "';'"
    return ()
  else return ()

/-- The import declarations that words start with, semicolons aside, where `lead` is in front. -/
def declaredImports (lead : List Char) : List Word → List DeclaredImport
  | [] => []
  | w :: ws =>
    if w.kind = .punct .semi then declaredImports (lead ++ textFrom [w]) ws
    else
      match _h : withSource importDecl (w :: ws) with
      | .error _ => []
      | .ok ((source, value), rest) =>
          ⟨String.ofList lead ++ w.gap, source.getD "", value⟩ :: declaredImports [] rest
termination_by ws => ws.length
decreasing_by
  · exact Nat.lt_succ_self _
  · exact (strides_importDecl.advances _ _ _ (withSource_eq_ok _h)).2

end Parser

/-- The import declarations of a source text. -/
def declaredIn (text : String) : List DeclaredImport :=
  match tokenize text with
  | .error _ => []
  | .ok lexed =>
    let ws := wordsOf lexed.tokens
    match Parser.header ws with
    | .error _ => []
    | .ok (_, rest) => Parser.declaredImports (textFrom (ws.take (ws.length - rest.length))) rest

/-- What is behind the last import declaration of a source text. -/
def behindImports (text : String) : String :=
  String.ofList (text.toList.drop ((declaredIn text).flatMap DeclaredImport.chars).length)

namespace Parser

variable {ws vs rest : List Word} {lead : List Char} {is : List Import}

/-- An import declaration starts with its keyword. -/
theorem importDecl_eq_ok {i : Import} (h : importDecl ws = .ok (i, rest)) :
    isAt (.keyword .importWord) ws = true := by
  obtain ⟨_, _, here, -⟩ := bind_eq_ok.1 h
  obtain ⟨w, rfl, hw, -⟩ := expect_eq_ok.1 here
  simp [isAt, hw]

/-- The declarations say what is read. -/
theorem map_value_declaredImports (h : imports () ws = .ok (is, rest)) :
    (declaredImports lead ws).map (·.value) = is := by
  fun_induction declaredImports lead ws generalizing is with
  | case1 =>
    rw [imports_eq] at h
    cases h
    rfl
  | case2 lead w ws semi ih =>
    have here : isAt (.punct .semi) (w :: ws) = true := by simp [isAt, semi]
    rw [imports_eq, bind_of_ok (eat_of_isAt here), if_pos rfl] at h
    exact ih h
  | case3 lead w ws other e failed =>
    have here : isAt (.punct .semi) (w :: ws) = false := by simp [isAt, other]
    rw [imports_eq, bind_of_ok (eat_of_not_isAt here), if_neg (by simp), lookAhead_bind] at h
    split at h
    · obtain ⟨i, vs, hi, -⟩ := bind_eq_ok.1 h
      rw [withSource, hi] at failed
      cases failed
    · cases h
      rfl
  | case4 lead w ws other source value vs read ih =>
    have read := withSource_eq_ok read
    have here : isAt (.punct .semi) (w :: ws) = false := by simp [isAt, other]
    rw [imports_eq, bind_of_ok (eat_of_not_isAt here), if_neg (by simp), lookAhead_bind,
      if_pos (importDecl_eq_ok read), bind_of_ok read] at h
    obtain ⟨is, _, his, e⟩ := bind_eq_ok.1 h
    cases e
    rw [List.map_cons, ih his]

/-- The declarations make up the text of the words, but for what is behind the last one. -/
theorem exists_chars_declaredImports (lead : List Char) (ws : List Word) : ∃ behind,
    lead ++ textFrom ws = (declaredImports lead ws).flatMap DeclaredImport.chars ++ behind := by
  fun_induction declaredImports lead ws with
  | case1 => exact ⟨_, (List.nil_append _).symm⟩
  | case2 lead w ws semi ih =>
    obtain ⟨behind, e⟩ := ih
    exact ⟨behind, by rw [← e, textFrom_cons]; simp [textFrom]⟩
  | case3 => exact ⟨_, (List.nil_append _).symm⟩
  | case4 lead w ws other source value vs read ih =>
    obtain ⟨behind, e⟩ := ih
    obtain ⟨taken, eq⟩ := strides_importDecl.shortens _ _ _ (withSource_eq_ok read)
    rw [← eq, withSource_append_iff] at read
    cases taken with
    | nil =>
      have := (strides_importDecl.advances _ _ _ read.1).2
      simp at this
    | cons w' taken =>
      obtain ⟨rfl, rfl⟩ := List.cons.inj eq
      obtain ⟨-, rfl⟩ := read
      refine ⟨behind, ?_⟩
      rw [List.flatMap_cons, List.append_assoc, ← e, DeclaredImport.chars, textFrom_cons]
      simp [sourceText?, toList_sourceText, textFrom]

/-- A declaration is the source text of words that are read as such. -/
theorem exists_words_of_mem_declaredImports (hws : FromText ws) {d : DeclaredImport}
    (hd : d ∈ declaredImports lead ws) : ∃ taken rest, FromText (taken ++ rest) ∧
      importDecl (taken ++ rest) = .ok (d.value, rest) ∧ d.source = sourceText taken := by
  fun_induction declaredImports lead ws with
  | case1 => cases hd
  | case2 lead w ws semi ih => exact ih hws.of_cons hd
  | case3 => cases hd
  | case4 lead w ws other source value vs read ih =>
    obtain ⟨taken, eq⟩ := strides_importDecl.shortens _ _ _ (withSource_eq_ok read)
    rw [← eq] at hws
    rcases List.mem_cons.1 hd with rfl | hd
    · rw [← eq, withSource_append_iff] at read
      obtain ⟨read, rfl⟩ := read
      refine ⟨taken, vs, hws, read, ?_⟩
      cases taken <;> rfl
    · exact ih hws.of_append hd

/-! ## Files -/

/-- The header of a file is read without a step back. -/
theorem walks_header : Walks header := by
  intro F ws
  refine .bind (walks_modifiers F ws) fun lead vs _ ↦ .eat_bind (fun us _ ↦ ?_) .pure
  refine .bind (strides_qualifiedName _ F us).within fun package xs _ ↦ ?_
  exact .bind (Takes.expect).within fun _ _ _ ↦ .pure

/-- Neither an import nor a semicolon is read as a type. -/
theorem imports_of_typeDecl {doc : Option Snippet} {annotations : List Annotation}
    {modifiers : Modifiers} {t : TypeDecl}
    (h : typeDecl members doc annotations modifiers ws = .ok (t, rest)) :
    imports () ws = .ok ([], ws) := by
  have none (kind : TokenKind) (hk : kind = .punct .semi ∨ kind = .keyword .importWord) :
      isAt kind ws = false := by
    cases ws with
    | nil => rfl
    | cons w ws =>
      rw [isAt_cons, decide_eq_false_iff_not]
      rintro rfl
      rw [typeDecl, lookAhead_bind, typeKindAt] at h
      rcases hk with hk | hk
      all_goals
        rw [hk] at h
        exact failExpecting_ne_ok h
  rw [imports_eq, bind_of_ok (eat_of_not_isAt (none _ (.inl rfl))), if_neg (by simp),
    lookAhead_bind,
    if_neg (by simp [none _ (.inr rfl)])]
  rfl

/-- The imports of a file are read behind its header. -/
theorem exists_header {u : CompilationUnit} (h : compilationUnit ws = .ok (u, rest)) :
    ∃ vs more, header ws = .ok ((), vs) ∧ imports () vs = .ok (u.imports, more) := by
  rw [compilationUnit, lookAhead_bind] at h
  obtain ⟨⟨annotations, mods⟩, vs, hmods, h⟩ := bind_eq_ok.1 h
  obtain ⟨hasPackage, us, heat, h⟩ := bind_eq_ok.1 h
  have start : header ws = _ := (bind_of_ok hmods).trans (bind_of_ok heat)
  cases hasPackage with
  | true =>
    obtain ⟨package, xs, hname, h⟩ := bind_eq_ok.1 h
    obtain ⟨_, ys, hsemi, h⟩ := bind_eq_ok.1 h
    obtain ⟨is, zs, his, h⟩ := bind_eq_ok.1 h
    obtain ⟨ts, _, -, e⟩ := bind_eq_ok.1 h
    cases e
    exact ⟨ys, zs, start.trans ((bind_of_ok hname).trans (bind_of_ok hsemi)), his⟩
  | false =>
    rw [if_neg (by simp)] at h
    split at h
    · obtain ⟨is, zs, his, h⟩ := bind_eq_ok.1 h
      obtain ⟨ts, _, -, e⟩ := bind_eq_ok.1 h
      cases e
      exact ⟨us, zs, start, his⟩
    · obtain ⟨first, xs, hfirst, h⟩ := bind_eq_ok.1 h
      obtain ⟨ts, _, -, e⟩ := bind_eq_ok.1 h
      cases e
      exact ⟨us, us, start, imports_of_typeDecl hfirst⟩

end Parser

/-- The declarations of a file are the imports that are read from it. -/
theorem map_value_declaredIn {path : Path} {text : String} {u : CompilationUnit}
    (other : isModuleInfo path = false) (h : parse path text = .ok u) :
    (declaredIn text).map (·.value) = u.imports := by
  obtain ⟨lexed, rest, hlexed, hunit⟩ := parse_eq_ok other h
  obtain ⟨vs, more, hheader, himports⟩ := Parser.exists_header hunit
  rw [declaredIn, hlexed]
  dsimp only
  rw [hheader]
  exact Parser.map_value_declaredImports himports

/-- The declarations of a text are those of some words of it. -/
theorem declaredIn_cases (text : String) : declaredIn text = [] ∨ ∃ lexed taken rest,
    tokenize text = .ok lexed ∧ wordsOf lexed.tokens = taken ++ rest ∧
      declaredIn text = Parser.declaredImports (textFrom taken) rest := by
  cases hlexed : tokenize text with
  | error e => exact .inl (by rw [declaredIn, hlexed])
  | ok lexed =>
    cases hheader : Parser.header (wordsOf lexed.tokens) with
    | error e =>
      refine .inl ?_
      rw [declaredIn, hlexed]
      dsimp only
      rw [hheader]
    | ok r =>
      obtain ⟨⟨⟩, rest⟩ := r
      obtain ⟨taken, e⟩ := Parser.walks_header.shortens _ _ _ hheader
      refine .inr ⟨lexed, taken, rest, rfl, e.symm, ?_⟩
      rw [declaredIn, hlexed]
      dsimp only
      rw [hheader, ← e]
      simp

/-- A text is made up of its declarations, what is in front of each, and what is behind them. -/
theorem toList_eq (text : String) : text.toList =
    (declaredIn text).flatMap DeclaredImport.chars ++ (behindImports text).toList := by
  have start : (declaredIn text).flatMap DeclaredImport.chars <+: text.toList := by
    rcases declaredIn_cases text with none | ⟨lexed, taken, rest, hlexed, words, e⟩
    · simp [none]
    · obtain ⟨behind, made⟩ := Parser.exists_chars_declaredImports (textFrom taken) rest
      have whole := (Lexer.tokenizeChars_iff.1 (tokenize_eq_ok.1 hlexed)).1
      have joined : textFrom (wordsOf lexed.tokens) ++ _ = [] ++ charsOf lexed.tokens :=
        textFrom_wordsAfter
      rw [words, textFrom, List.flatMap_append, ← textFrom, ← textFrom, made, List.nil_append,
        List.append_assoc] at joined
      rw [e, whole, ← joined, List.append_assoc]
      exact List.prefix_append _ _
  obtain ⟨behind, e⟩ := start
  rw [behindImports, String.toList_ofList, ← e, List.drop_left]

/-- A declaration of a text is the source text of words that are read as such. -/
theorem exists_words_of_mem_declaredIn {text : String} {d : DeclaredImport}
    (hd : d ∈ declaredIn text) :
    ∃ taken rest, FromText (taken ++ rest) ∧
      Parser.importDecl (taken ++ rest) = .ok (d.value, rest) ∧ d.source = sourceText taken := by
  rcases declaredIn_cases text with none | ⟨lexed, front, rest, hlexed, words, e⟩
  · rw [none] at hd
    cases hd
  · have hws := fromText_of_tokenize hlexed
    rw [words] at hws
    exact Parser.exists_words_of_mem_declaredImports hws.of_append (e ▸ hd)

end PlatformOverlay.Java
