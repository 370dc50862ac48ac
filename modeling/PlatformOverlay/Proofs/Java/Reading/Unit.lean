import PlatformOverlay.Proofs.Java.Reading.Declaration

/-!
# Reading files back

The parser reads the first annotations of a file before it knows whether they belong to the package
or to the first type, so that a printed file is read in one of three ways: it has a package, or it
starts with an import, or with a type.

The comments in front of the first word go to the file in the first two cases and to the type in the
third. So a file without a package and without imports has no comments of its own, and this is the
one thing to look at when the three are put together (`compilationUnit_of_fits`).
-/

namespace PlatformOverlay.Java.Parser

open Lexer (IsToken)
open Printer

variable {ps qs : List Piece} {ws vs rest : List Word} {level : Nat} {apart first : Bool}

/-! ## Imports -/

/-- The path of an import ends in front of a star or a semicolon. -/
theorem importPath_of_fits (path : String) {wildcard : Bool}
    (hf : Fits ((if wildcard then [.text ".*"] else []) ++ [.text ";"]) ws rest) :
    ∃ vs, importPath path ws = .ok ((path, wildcard), vs) ∧ Fits [.text ";"] vs rest := by
  cases wildcard with
  | true =>
    obtain ⟨us, vs, rfl, hs, hvs⟩ := hf
    have shapes := hs.shapes.trans
      (isSlice_dot (show IsToken .operator "*".toList by decide +kernel) rfl (by decide +kernel)).2
    obtain ⟨d, _, rfl, hd, shapes⟩ := List.map_eq_cons_iff.1 shapes
    obtain ⟨w, rfl, hw⟩ := List.map_eq_singleton_iff.1 shapes
    have dot : isAt (.punct .dot) ([d, w] ++ vs) = true := by
      rw [List.cons_append, isAt_cons]
      exact decide_eq_true (congrArg Prod.fst hd)
    refine ⟨vs, ?_, hvs⟩
    rw [importPath_eq, bind_of_ok (eat_of_isAt dot), if_pos rfl, lookAhead_bind,
      if_pos (by simp [isAtText_cons, hw]), skip_bind]
    rfl
  | false =>
    have hf : Fits [.text ";"] ws rest := hf
    refine ⟨ws, ?_, hf⟩
    obtain ⟨w, vs, rfl, hw, -⟩ := fits_punct .semi hf
    rw [importPath_eq, bind_of_ok (eat_of_not_isAt (isAt_of_kind hw (by decide))), if_neg (by simp)]
    rfl

theorem importDecl_of_fits {i : Import} (h : i.WellFormed) (hf : Fits (importPieces i) ws rest) :
    importDecl ws = .ok (i, rest) ∧ isAt (.keyword .importWord) ws = true := by
  obtain ⟨isStatic, path, wildcard⟩ := i
  obtain ⟨first, segments, hfirst, hsegments, rfl⟩ := h.path
  obtain ⟨w, ws, rfl, hw, hf⟩ := fits_keyword (k := .importWord) (by decide) hf
  -- Unless the word for it stands there, the import is not static.
  have static : ∃ vs, eat (.keyword (.modifier .static)) ws = .ok (isStatic, vs) ∧
      Fits (.text (dotted first segments) ::
        ((if wildcard then [.text ".*"] else []) ++ [.text ";"]))
        vs rest := by
    cases isStatic with
    | true =>
      obtain ⟨v, vs, rfl, hv, hvs⟩ := fits_keyword (k := .modifier .static) (by decide) hf
      exact ⟨vs, eat_of_isAt (by simp [isAt_cons, hv]), hvs⟩
    | false =>
      obtain ⟨us, vs, rfl, hs, hvs⟩ := hf
      have ident : isAt .ident (us ++ vs) = true :=
        isAt_append_of_isAt (isAt_ident_of_spells h.path hs)
      exact ⟨us ++ vs, eat_of_not_isAt (by simp [isAt_eq_of_isAt ident]), us, vs, rfl, hs, hvs⟩
  obtain ⟨_, static, us, vs, rfl, hs, hvs⟩ := static
  obtain ⟨n, us, rfl, hn, hus⟩ := hs.of_dotted hfirst hsegments
  have text : n.text = first := congrArg Prod.snd hn
  obtain ⟨xs, path, hxs⟩ := importPath_of_fits (dotted first segments) hvs
  obtain ⟨v, xs, rfl, hv, rfl⟩ := fits_punct .semi hxs
  refine ⟨?_, by simp [isAt_cons, hw]⟩
  rw [importDecl, bind_of_ok (expect_cons hw), bind_of_ok static, List.cons_append,
    bind_of_ok (ident_cons (congrArg Prod.fst hn)), text]
  refine (bind_of_ok ((importPath_append hus).trans path)).trans ?_
  exact (bind_of_ok (expect_cons hv)).trans rfl

/-- Imports are read back, by induction on the list. -/
theorem imports_of_fits {is : List Import} {doc : Option String} (h : ∀ i ∈ is, i.WellFormed)
    (hf : Fits (lines level apart doc (is.map importPieces)) ws rest)
    (semi : isAt (.punct .semi) rest = false) (other : isAt (.keyword .importWord) rest = false) :
    imports () ws = .ok (is, rest) := by
  induction is generalizing ws apart doc with
  | nil =>
    obtain rfl : ws = rest := hf
    rw [imports_eq, bind_of_ok (eat_of_not_isAt semi), if_neg (by simp), lookAhead_bind,
      if_neg (by simp [other])]
    rfl
  | cons i is ih =>
    obtain ⟨hi, his⟩ := List.forall_mem_cons.1 h
    obtain ⟨-, hf⟩ := hf
    obtain ⟨vs, hvs, later⟩ := fits_append.1 hf
    obtain ⟨read, here⟩ := importDecl_of_fits hi hvs
    rw [imports_eq, bind_of_ok (eat_of_not_isAt (by simp [isAt_eq_of_isAt here])), if_neg (by simp),
      lookAhead_bind, if_pos here, bind_of_ok read, bind_of_ok (ih his later)]
    rfl

/-! ## Types -/

/-- The types of a file are read back, each with the comments in front. -/
theorem types_of_fits {ts : List TypeDecl} (h : ∀ t ∈ ts, t.All TypeDecl.WellFormed)
    (hp : ∀ t ∈ ts, t.All TypeDecl.Printable) (hf : Fits (typesPieces first ts) ws []) :
    types () ws = .ok (ts.map (·.printed 0), []) := by
  induction ts generalizing first ws with
  | nil =>
    obtain rfl : ws = [] := hf
    rw [types_eq]
    rfl
  | cons t ts ih =>
    obtain ⟨ht, hts⟩ := List.forall_mem_cons.1 h
    obtain ⟨hp, hps⟩ := List.forall_mem_cons.1 hp
    obtain ⟨us, htype, later⟩ := fits_append.1 hf
    obtain ⟨vs, reads⟩ := typeDecl_of_fits ht hp htype
    have starts := reads.starts.member.of_modifiers reads.modifiers
    rw [types_eq, lookAhead_bind, if_neg (by simpa using starts.nonempty),
      bind_of_ok (eat_of_not_isAt starts.semi), if_neg (by simp), lookAhead_bind,
      (Begins.doc reads.begins).1, bind_of_ok reads.modifiers]
    exact (bind_of_ok reads.reads).trans ((bind_of_ok (ih hts hps later)).trans rfl)

/-- Neither an import nor a semicolon stands in front of the types. -/
theorem not_isAt_of_types {ts : List TypeDecl} (h : ∀ t ∈ ts, t.All TypeDecl.WellFormed)
    (hp : ∀ t ∈ ts, t.All TypeDecl.Printable) (hf : Fits (typesPieces first ts) ws []) :
    isAt (.punct .semi) ws = false ∧ isAt (.keyword .importWord) ws = false := by
  cases ts with
  | nil =>
    obtain rfl : ws = [] := hf
    simp [isAt]
  | cons t ts =>
    obtain ⟨us, htype, -⟩ := fits_append.1 hf
    obtain ⟨vs, reads⟩ :=
      typeDecl_of_fits (List.forall_mem_cons.1 h).1 (List.forall_mem_cons.1 hp).1 htype
    refine ⟨(reads.starts.member.of_modifiers reads.modifiers).semi, ?_⟩
    exact isAt_of_modifiers (fun w ws hw ↦ by simp [modifierAt, hw]) (by decide) reads.modifiers
      (isAt_of_typeKindAt (fun w vs hw ↦ by simp [typeKindAt, hw]) reads.kind)

/-! ## Files -/

/-- The keyword of the package or of an import is no modifier. -/
theorem startsDeclared_of_keyword {k : Keyword} (h : isAt (.keyword k) ws = true)
    (hk : ∀ m, k ≠ .modifier m) : StartsDeclared [] ws := by
  refine ⟨?_, isAtAnnotation_of_isAt h (by simp), .of_isAt h (by simp) (by simp), ?_⟩
  · obtain ⟨w, vs, rfl, hw⟩ := exists_of_isAt h
    cases k <;> simp_all [modifierAt]
  · rintro front back e
    simp at e

theorem package_of_fits {p : String} (h : IsQualifiedName p)
    (hf : Fits [.text "package", .space .blank, .text p, .text ";"] ws rest) :
    isAt (.keyword .packageWord) ws = true ∧ ∃ o, o.kind = .punct .semi ∧
      qualifiedName "package name" ws.tail = .ok (p, o :: rest) := by
  obtain ⟨w, _, rfl, hw, us, vs, rfl, hs, hf⟩ := fits_keyword (k := .packageWord) (by decide) hf
  obtain ⟨o, vs, rfl, ho, rfl⟩ := fits_punct .semi hf
  exact ⟨by simp [isAt_cons, hw], o, ho, qualifiedName_of_spells h hs (isAt_of_kind ho (by decide))⟩

variable {u : CompilationUnit}

/-- A file with a package is read back: its header comments stand in front of the package. -/
theorem compilationUnit_of_package {p : String} (h : u.WellFormed) (hp : u.Printable)
    (package : u.package = some p) (hf : Fits (unitPieces u) ws []) :
    compilationUnit ws = .ok (u.printed, []) := by
  rw [unitPieces, package] at hf
  obtain ⟨xs, front, types⟩ := fits_append.1 hf
  obtain ⟨us, front, imports⟩ := fits_append.1 front
  have keyword : ∀ vs, Fits [.text "package", .space .blank, .text p, .text ";"] vs us →
      StartsDeclared [] vs := fun vs hvs ↦
    startsDeclared_of_keyword (package_of_fits (h.package p package) hvs).1 (by simp)
  have front :
    Fits (lines 0 false (u.header.map (snippet 0)) (u.packageAnnotations.map annotationPieces ++
    [modifierPieces .empty ++ [.text "package", .space .blank, .text p, .text ";"]])) ws us := front
  obtain ⟨begins, vs, hvs, read, -⟩ := modifiers_of_fits h.packageAnnotations keyword front
  obtain ⟨here, o, ho, name⟩ := package_of_fits (h.package p package) hvs
  obtain ⟨semi, other⟩ := not_isAt_of_types h.types hp types
  rw [compilationUnit, lookAhead_bind, (Begins.doc begins).1, bind_of_ok read]
  dsimp only
  rw [bind_of_ok (eat_of_isAt here), if_pos rfl, bind_of_ok name, bind_of_ok (expect_cons ho),
    bind_of_ok (imports_of_fits h.imports imports semi other),
    bind_of_ok (types_of_fits h.types hp types), CompilationUnit.printed, package]
  rfl

/-- Without a package, they stand in front of the first import. -/
theorem compilationUnit_of_imports (h : u.WellFormed) (hp : u.Printable)
    (package : u.package = none)
    (ne : u.imports ≠ []) (hf : Fits (unitPieces u) ws []) :
    compilationUnit ws = .ok (u.printed, []) := by
  obtain ⟨header, _, annotations, imports, ts⟩ := u
  obtain rfl := package
  obtain rfl : annotations = [] := Decidable.byContradiction fun ne ↦ absurd rfl (h.packaged ne)
  obtain ⟨i, is, rfl⟩ := List.exists_cons_of_ne_nil ne
  obtain ⟨xs, front, types⟩ := fits_append.1 hf
  obtain ⟨semi, other⟩ := not_isAt_of_types h.types hp types
  have read := imports_of_fits h.imports front semi other
  obtain ⟨begins, front⟩ := front
  obtain ⟨us, first, -⟩ := fits_append.1 front
  obtain ⟨-, here⟩ := importDecl_of_fits (List.forall_mem_cons.1 h.imports).1 first
  have starts := startsDeclared_of_keyword here (by simp)
  have none : modifiers ws = .ok (([], .empty), ws) :=
    modifiersAfter_of_none starts.modifier starts.annotation
  rw [compilationUnit, lookAhead_bind, (Begins.doc begins).1, bind_of_ok none]
  dsimp only
  rw [bind_of_ok (eat_of_not_isAt (by simp [isAt_eq_of_isAt here])), if_neg (by simp),
    if_pos ⟨rfl, rfl⟩,
    bind_of_ok read, bind_of_ok (types_of_fits h.types hp types)]
  rfl

/-- Without imports too, the comments in front of the first type are its own. -/
theorem compilationUnit_of_types (h : u.WellFormed) (hp : u.Printable) (package : u.package = none)
    (imports : u.imports = []) (hf : Fits (unitPieces u) ws []) :
    compilationUnit ws = .ok (u.printed, []) := by
  obtain ⟨header, _, annotations, _, ts⟩ := u
  obtain rfl := package
  obtain rfl := imports
  obtain rfl : annotations = [] := Decidable.byContradiction fun ne ↦ absurd rfl (h.packaged ne)
  obtain rfl : header = none := Decidable.byContradiction fun ne ↦ by simpa using h.headed ne
  have hf : Fits (typesPieces true ts) ws [] := hf
  have read := types_of_fits h.types hp hf
  cases ts with
  | nil =>
    obtain rfl : ws = [] := hf
    rfl
  | cons t ts =>
    obtain ⟨us, htype, later⟩ := fits_append.1 hf
    obtain ⟨ht, hts⟩ := List.forall_mem_cons.1 h.types
    obtain ⟨hpt, hpts⟩ := List.forall_mem_cons.1 hp
    obtain ⟨vs, reads⟩ := typeDecl_of_fits ht hpt htype
    have unpackaged : isAt (.keyword .packageWord) vs = false :=
      isAt_of_typeKindAt (fun w vs hw ↦ by simp [typeKindAt, hw]) reads.kind
    rw [compilationUnit, lookAhead_bind, (Begins.doc reads.begins).1, bind_of_ok reads.modifiers]
    dsimp only
    rw [bind_of_ok (eat_of_not_isAt unpackaged), if_neg (by simp)]
    -- Without annotations and modifiers there could be imports, which are looked for first.
    by_cases bare : t.annotations.isEmpty ∧ t.modifiers.isEmpty
    · have here : vs = ws :=
        reads.bare (by simpa using bare.1) (by simpa [Modifiers.isEmpty] using bare.2)
      obtain ⟨semi, other⟩ := not_isAt_of_types h.types hp hf
      have noImports : imports () vs = .ok ([], vs) := by
        rw [here]
        exact @imports_of_fits _ _ 0 true [] none (by simp) rfl semi other
      rw [if_pos bare, bind_of_ok noImports, here, bind_of_ok read]
      rfl
    · rw [if_neg bare, bind_of_ok reads.reads, bind_of_ok (types_of_fits hts hpts later)]
      rfl

/-- Words that fit the layout of a file are read as the file that has been printed. -/
theorem compilationUnit_of_fits (h : u.WellFormed) (hp : u.Printable)
    (hf : Fits (unitPieces u) ws []) :
    compilationUnit ws = .ok (u.printed, []) := by
  cases package : u.package with
  | some p => exact compilationUnit_of_package h hp package hf
  | none =>
    by_cases imports : u.imports = []
    · exact compilationUnit_of_types h hp package imports hf
    · exact compilationUnit_of_imports h hp package imports hf

end PlatformOverlay.Java.Parser
