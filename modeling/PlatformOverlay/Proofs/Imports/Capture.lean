import PlatformOverlay.Proofs.Imports.Header

/-!
# Which imports shortened names denote

Repairing a text shortens names in two passes, and each pass is a list of edits: from left to right
the pieces of the text before it and of the text behind it (`editsOf`).  The first pass writes the
simple names of imported paths (`importEdits`), the second one drops `java.lang` and the package of
the file in front of upper case letters (`packageEdits`), and besides the import block nothing else
happens to the lines that state no import (`Repairs`).

An import is the only one of its kind with its simple name (`eq_of_mem_union`).  So a name that the
first pass writes stands in the import block of the result for the path that it replaces, and for no
other one that is imported in the same way (`imported_names_not_captured`).

## What is not claimed

* Static imports are not compared with the others, and the names that lose a package with neither
  of them nor with each other.  In each of these cases a name may be captured
  (`exists_captured_name`).
* Only the import block is looked at.  A type that the text itself declares under the simple name of
  an import hides that import, before the repair and after it, and a path that is shortened denotes
  the declared type from then on.
-/

namespace PlatformOverlay.Imports

/-! ## Edits -/

/-- A piece of a text that is rewritten, with what is written for it.  A piece that stays as it is
has the same text on both sides. -/
structure Edit where
  before : List Char
  after : List Char
deriving DecidableEq, Repr

/-- What `replaceNames` does to a text from left to right: an edit for each replacement, and one for
each character that is kept. -/
def editsOf (find : List Char → Option Replacement) : Nat → Bool → List Char → List Edit
  | _, _, [] => []
  | skip + 1, _, c :: cs => editsOf find skip (c == '\n') cs
  | 0, lineStart, c :: cs =>
    match if lineStart then find (c :: cs) else none with
    | some r => ⟨(c :: cs).take r.length, r.text⟩ :: editsOf find (r.length - 1) (c == '\n') cs
    | none =>
      match if isNameChar c || c == '.' then none else find cs with
      | some r => ⟨[c], [c]⟩ :: ⟨cs.take r.length, r.text⟩ :: editsOf find r.length (c == '\n') cs
      | none => ⟨[c], [c]⟩ :: editsOf find 0 (c == '\n') cs

section edits

variable {find : List Char → Option Replacement}

/-- The text behind the edits is the text with its names replaced. -/
theorem flatMap_after_editsOf (skip : Nat) (lineStart : Bool) (cs : List Char) :
    (editsOf find skip lineStart cs).flatMap Edit.after = replaceNames find skip lineStart cs := by
  induction cs generalizing skip lineStart with
  | nil => cases skip <;> rw [editsOf, replaceNames, List.flatMap_nil]
  | cons c cs ih =>
    cases skip with
    | succ skip => rw [editsOf, replaceNames, ih]
    | zero =>
      rw [editsOf, replaceNames]
      cases here : if lineStart then find (c :: cs) else none with
      | some r => rw [List.flatMap_cons, ih]
      | none =>
        cases behind : if isNameChar c || c == '.' then none else find cs with
        | some r =>
          rw [List.flatMap_cons, List.flatMap_cons, ih, List.singleton_append]
          rfl
        | none => rw [List.flatMap_cons, ih, List.singleton_append]

/-- The text before the edits is the whole text, if what is found is in the text. -/
theorem flatMap_before_editsOf
    (fits : ∀ cs r, find cs = some r → 0 < r.length ∧ r.length ≤ cs.length) (skip : Nat)
    (lineStart : Bool) (cs : List Char) :
    (editsOf find skip lineStart cs).flatMap Edit.before = cs.drop skip := by
  induction cs generalizing skip lineStart with
  | nil => cases skip <;> rw [editsOf, List.flatMap_nil, List.drop_nil]
  | cons c cs ih =>
    cases skip with
    | succ skip => rw [editsOf, ih, List.drop_succ_cons]
    | zero =>
      rw [editsOf, List.drop_zero]
      cases here : if lineStart then find (c :: cs) else none with
      | some r =>
        have found : find (c :: cs) = some r := (Option.ite_none_right_eq_some.1 here).2
        obtain ⟨n, hn⟩ := Nat.exists_eq_add_one.2 (fits _ r found).1
        simp only [List.flatMap_cons, ih, hn, Nat.add_sub_cancel, List.take_succ_cons,
          List.cons_append, List.take_append_drop]
      | none =>
        cases behind : if isNameChar c || c == '.' then none else find cs with
        | some r =>
          simp only [List.flatMap_cons, ih, List.singleton_append, List.take_append_drop]
        | none => simp only [List.flatMap_cons, ih, List.singleton_append, List.drop_zero]

/-- A piece stays as it is, or it was found. -/
theorem mem_editsOf {skip : Nat} {lineStart : Bool} {cs : List Char} {e : Edit}
    (h : e ∈ editsOf find skip lineStart cs) :
    e.before = e.after ∨ ∃ more r, find more = some r ∧ e = ⟨more.take r.length, r.text⟩ := by
  induction cs generalizing skip lineStart with
  | nil => cases skip <;> simp [editsOf] at h
  | cons c cs ih =>
    cases skip with
    | succ skip => exact ih (by rwa [editsOf] at h)
    | zero =>
      rw [editsOf] at h
      cases here : if lineStart then find (c :: cs) else none with
      | some r =>
        rw [here] at h
        rcases List.mem_cons.1 h with rfl | h
        · exact .inr ⟨c :: cs, r, (Option.ite_none_right_eq_some.1 here).2, rfl⟩
        · exact ih h
      | none =>
        rw [here] at h
        cases behind : if isNameChar c || c == '.' then none else find cs with
        | some r =>
          simp only [behind, List.mem_cons] at h
          rcases h with rfl | rfl | h
          · exact .inl rfl
          · exact .inr ⟨cs, r, (Option.ite_none_left_eq_some.1 behind).2, rfl⟩
          · exact ih h
        | none =>
          simp only [behind, List.mem_cons] at h
          rcases h with rfl | h
          · exact .inl rfl
          · exact ih h

end edits

/-! ## The two passes of a repair -/

/-- The first pass: the simple names of imported paths are written for them. -/
def importEdits (imports : List ImportLine) (text : List Char) : List Edit :=
  editsOf (findImported (shortenable imports)) 0 true text

/-- The second pass: `java.lang` and the package are dropped in front of upper case letters. -/
def packageEdits (package : Option String) (text : List Char) : List Edit :=
  editsOf (findImplicit ("java.lang" :: package.toList)) 0 true text

/-- The one pass and then the other make the body of a text into that of the repaired one, which has
the imports in a block behind its package declaration and ends with a line feed. -/
structure Repairs (imports : List ImportLine) (body fixed : String) (first second : List Edit) :
    Prop where
  body : first.flatMap Edit.before = body.toList
  between : second.flatMap Edit.before = first.flatMap Edit.after
  block : HasBlock fixed imports
  fixed : ∃ head rest, second.flatMap Edit.after = head ++ rest ∧ fixed = String.ofList
    (endLine (head ++ '\n' :: '\n' :: (importBlock imports).toList ++ Text.dropBlanks rest))

variable {generated common fixed : String} {package : Option String}

/-- A text is repaired by these two passes. -/
theorem repairs_of_repair (h : repair generated common package = some fixed) :
    let imports := union (importsOf generated) (importsOf common)
    let first := importEdits imports (bodyOf generated).toList
    Repairs imports (bodyOf generated) fixed first
      (packageEdits package (first.flatMap Edit.after)) := by
  have named := endsWithName_of_mem_union generated common
  refine ⟨?_, ?_, hasBlock_of_repair h, ?_⟩
  · rw [importEdits, flatMap_before_editsOf (looksAtRun_findImported named).length_le,
      List.drop_zero]
  · refine (flatMap_before_editsOf (fun cs r found ↦ ?_) 0 true _).trans (List.drop_zero ..)
    obtain ⟨p, -, c, rest, rfl, -, rfl⟩ := findImplicit_eq_some found
    simp [← String.length_toList]
  · obtain ⟨head, rest, split, rfl⟩ := repair_eq_some.1 h
    refine ⟨head, rest, ?_, rfl⟩
    rw [packageEdits, importEdits, flatMap_after_editsOf, flatMap_after_editsOf]
    exact (splitAtPackage_eq_some split).1

/-! ## Shortened names -/

/-- A qualified name in a text and the shorter one that is written for it. -/
structure Shortening where
  qualified : String
  name : String
deriving DecidableEq, Repr

/-- The edits that change something. -/
def shortenings (edits : List Edit) : List Shortening :=
  (edits.filter fun e ↦ e.before ≠ e.after).map fun e ↦
    ⟨String.ofList e.before, String.ofList e.after⟩

/-- A shortening of a list of edits was found at some place of the text. -/
theorem mem_shortenings_editsOf {find : List Char → Option Replacement} {cs : List Char}
    {s : Shortening} (h : s ∈ shortenings (editsOf find 0 true cs)) : ∃ more r,
      find more = some r ∧ s = ⟨String.ofList (more.take r.length), String.ofList r.text⟩ := by
  obtain ⟨e, he, rfl⟩ := List.mem_map.1 h
  obtain ⟨he, changed⟩ := List.mem_filter.1 he
  obtain ⟨more, r, found, rfl⟩ := (mem_editsOf he).resolve_left (of_decide_eq_true changed)
  exact ⟨more, r, found, rfl⟩

/-- A static or another import brings in the name that is shortened. -/
def ImportedAs (imports : List ImportLine) (isStatic : Bool) (s : Shortening) : Prop :=
  ∃ i ∈ imports, i.isStatic = isStatic ∧ i.isWildcard = false ∧ i.path = s.qualified ∧
    i.reference = s.name

/-- What the first pass shortens is the path of an import, and the simple name of this import is
written for it. -/
theorem importedAs_of_mem {imports : List ImportLine} {text : List Char} {s : Shortening}
    (h : s ∈ shortenings (importEdits imports text)) :
    ∃ isStatic, ImportedAs imports isStatic s := by
  obtain ⟨run, r, found, rfl⟩ := mem_shortenings_editsOf h
  obtain ⟨i, hi, single, starts, rfl⟩ := findImported_eq_some found
  rw [startsWithPath, Bool.and_eq_true, List.isPrefixOf_iff_prefix] at starts
  obtain ⟨rest, rfl⟩ := starts.1
  refine ⟨i.isStatic, i, hi, rfl, single, ?_, by simp⟩
  simp [← String.length_toList]

/-- What the second pass shortens are the packages in front of upper case letters. -/
theorem exists_package_of_mem {text : List Char} {s : Shortening}
    (h : s ∈ shortenings (packageEdits package text)) : ∃ p ∈ "java.lang" :: package.toList,
      ∃ c, ('A' ≤ c ∧ c ≤ 'Z') ∧ s = ⟨p ++ "." ++ String.singleton c, String.singleton c⟩ := by
  obtain ⟨run, r, found, rfl⟩ := mem_shortenings_editsOf h
  obtain ⟨p, hp, c, rest, rfl, upper, rfl⟩ := findImplicit_eq_some found
  have taken : (p.toList ++ '.' :: c :: rest).take (p.length + 2) = p.toList ++ ['.', c] := by
    rw [← String.length_toList, List.take_length_add_append]
    rfl
  refine ⟨p, hp, c, upper, ?_⟩
  rw [taken]
  congr 1
  rw [← String.toList_inj]
  simp

/-- The repaired text comes from the two passes and has the imports of both texts in its block.
What the first pass shortens is imported there, and no other import of the same kind brings the
simple name into scope: two names that are both imported statically, or both not, stay apart.  The
second pass drops packages only. -/
theorem imported_names_not_captured (h : repair generated common package = some fixed) :
    let imports := union (importsOf generated) (importsOf common)
    let first := importEdits imports (bodyOf generated).toList
    let second := packageEdits package (first.flatMap Edit.after)
    Repairs imports (bodyOf generated) fixed first second ∧
    (∀ s ∈ shortenings first,
      (∃ isStatic, ImportedAs imports isStatic s) ∧
      ∀ isStatic, ImportedAs imports isStatic s →
        (∀ i ∈ imports, i.isStatic = isStatic → i.isWildcard = false → i.reference = s.name →
          i.path = s.qualified) ∧
        ∀ s' ∈ shortenings first, ImportedAs imports isStatic s' → s'.name = s.name → s' = s) ∧
    ∀ s ∈ shortenings second, ∃ p ∈ "java.lang" :: package.toList,
      ∃ c, ('A' ≤ c ∧ c ≤ 'Z') ∧ s = ⟨p ++ "." ++ String.singleton c, String.singleton c⟩ := by
  intro imports first second
  refine ⟨repairs_of_repair h, fun s hs ↦ ⟨importedAs_of_mem hs, fun isStatic imported ↦ ?_⟩,
    fun s hs ↦ exists_package_of_mem hs⟩
  obtain ⟨i, hi, rfl, single, path, reference⟩ := imported
  have unique : ∀ j ∈ imports, j.isStatic = i.isStatic → j.isWildcard = false →
      j.reference = s.name → j = i := by
    intro j hj kind single' reference'
    refine eq_of_mem_union hj hi ?_
    simp [ImportLine.key, kind, single, single', reference, reference']
  refine ⟨fun j hj kind single' reference' ↦ ?_, fun s' _ imported' name ↦ ?_⟩
  · rw [unique j hj kind single' reference', path]
  · obtain ⟨j, hj, kind, single', path', reference'⟩ := imported'
    obtain rfl := unique j hj kind single' (reference'.trans name)
    cases s
    cases s'
    simp_all

/-- A name of another package that is imported and written out. -/
theorem imported_names_not_captured_single :
    let generated := "package a;\nimport b.B;\nclass C extends b.B \x7b\x7d\n"
    let imports := union (importsOf generated) (importsOf "")
    let first := importEdits imports (bodyOf generated).toList
    let fixed := "package a;\n\nimport b.B;\n\nclass C extends B \x7b\x7d\n"
    repair generated "" (some "a") = some fixed ∧ ⟨"b.B", "B"⟩ ∈ shortenings first ∧
      Repairs imports (bodyOf generated) fixed first
        (packageEdits (some "a") (first.flatMap Edit.after)) ∧
      ∀ i ∈ imports, i.isStatic = false → i.isWildcard = false → i.reference = "B" →
        i.path = "b.B" := by
  intro generated imports first fixed
  have repaired : repair generated "" (some "a") = some fixed := by decide +kernel
  have shortened : ⟨"b.B", "B"⟩ ∈ shortenings first := by decide +kernel
  obtain ⟨passes, kept, -⟩ := imported_names_not_captured repaired
  have imported : ImportedAs imports false ⟨"b.B", "B"⟩ :=
    ⟨⟨"import b.B;", "b.B", "B", false⟩, by decide +kernel, rfl, by decide, rfl, rfl⟩
  exact ⟨repaired, shortened, passes, ((kept _ shortened).2 false imported).1⟩

/-! ## Captured names -/

/-- The names that lose their packages in a list of edits, with the letters behind the edits that
belong to them. -/
def typeNames : List Edit → List Shortening
  | [] => []
  | e :: edits =>
    let more := (edits.flatMap Edit.before).takeWhile isNameChar
    if e.before = e.after then typeNames edits
    else ⟨String.ofList (e.before ++ more), String.ofList (e.after ++ more)⟩ :: typeNames edits

/-- Static imports and those on demand apart, the path that is shortened is the only one that is
imported under the name. -/
def OnlyImportOf (imports : List ImportLine) (s : Shortening) : Prop :=
  ∀ i ∈ imports, i.isStatic = false → i.isWildcard = false → i.reference = s.name →
    i.path = s.qualified

section captures

variable (generated common : String) (package : Option String)

/-- No imported path is shortened to a name that is imported from elsewhere. -/
def ImportedUncaptured : Prop :=
  (repair generated common package).isSome →
    let imports := union (importsOf generated) (importsOf common)
    ∀ s ∈ shortenings (importEdits imports (bodyOf generated).toList), OnlyImportOf imports s

/-- No name that loses its package is imported from elsewhere. -/
def DroppedUncaptured : Prop :=
  (repair generated common package).isSome →
    let imports := union (importsOf generated) (importsOf common)
    let first := importEdits imports (bodyOf generated).toList
    ∀ s ∈ typeNames (packageEdits package (first.flatMap Edit.after)), OnlyImportOf imports s

/-- No two names that lose their packages become the same. -/
def DroppedApart : Prop :=
  (repair generated common package).isSome →
    let imports := union (importsOf generated) (importsOf common)
    let first := importEdits imports (bodyOf generated).toList
    let dropped := typeNames (packageEdits package (first.flatMap Edit.after))
    ∀ s ∈ dropped, ∀ s' ∈ dropped, s.name = s'.name → s.qualified = s'.qualified

end captures

/-- None of the three holds of every text.  A path gets the name of another import when the common
text imports it statically, a name of `java.lang` when it loses its package, and a type beside the
file and one of `java.lang` have the same name when both lose theirs. -/
theorem exists_captured_name :
    (¬∀ generated common package, ImportedUncaptured generated common package) ∧
    (¬∀ generated common package, DroppedUncaptured generated common package) ∧
    ¬∀ generated common package, DroppedApart generated common package := by
  refine ⟨fun h ↦ ?_, fun h ↦ ?_, fun h ↦ ?_⟩
  · let text := "package a;\n\nimport x.y.z.T;\n\nclass C \x7b\n  b.B.T t;\n\x7d\n"
    let imports : List ImportLine :=
      [⟨"import x.y.z.T;", "x.y.z.T", "T", false⟩, ⟨"import static b.B.T;", "b.B.T", "T", true⟩]
    have union_eq : union (importsOf text) (importsOf "import static b.B.T;\n") = imports := by
      rw [union, List.mergeSort_of_pairwise (by decide +kernel)]
      decide +kernel
    have longest : shortenable imports = imports := List.mergeSort_of_pairwise (by decide +kernel)
    have repaired : (repair text "import static b.B.T;\n" (some "a")).isSome := by
      rw [repair, union_eq, shortenNames, longest]
      decide +kernel
    have only := h text "import static b.B.T;\n" (some "a") repaired
    simp only [union_eq, importEdits, longest] at only
    exact absurd (only ⟨"b.B.T", "T"⟩ (by decide +kernel) _ (List.mem_cons_self ..) rfl (by decide)
      rfl) (by decide)
  · have only := h
      "package a;\n\nimport x.String;\n\nclass C \x7b\n  String s;\n  java.lang.String t;\n\x7d\n"
      "" (some "a") (by decide +kernel) ⟨"java.lang.String", "String"⟩ (by decide +kernel)
    exact absurd (only ⟨"import x.String;", "x.String", "String", false⟩ (by decide +kernel) rfl
      (by decide) rfl) (by decide)
  · have same := h
      "package a;\n\nclass C \x7b\n  a.String s;\n  java.lang.String t;\n\x7d\n" "" (some "a")
      (by decide +kernel) ⟨"a.String", "String"⟩ (by decide +kernel)
      ⟨"java.lang.String", "String"⟩ (by decide +kernel) rfl
    exact absurd same (by decide)

end PlatformOverlay.Imports
