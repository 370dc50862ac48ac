import PlatformOverlay.Proofs.Imports.LiteralLines
import PlatformOverlay.Proofs.Imports.LiteralNames
import PlatformOverlay.Proofs.Imports.Repair
import PlatformOverlay.Proofs.Java.RoundTrip

/-!
# Literals of a repaired file

The import block comes where no literal is, so a repaired file has the literals of its body.  Each
is a literal of the generated file, edited as a text of its own: import lines and carriage returns
at line ends are left out and names are shortened, in it as in the code around it
(`literals_of_repair_print`).

Repairing knows nothing of tokens. So the literals of a text are found here in a way that can be
followed through edits, character by character (`literalsFrom`), and three edits are looked at:

* leaving out lines (`literalsFrom_bodyText`),
* replacing names (`literalsFrom_shortenNames`),
* putting in the block (`literalsFrom_written`).

`Separated` has what these need of the two files: nothing but the import stands on an import line,
and the package line does not end within a text block.

## What is not claimed

Literals do not stay as they are, since names are shortened in them, too (`exists_edited_literal`).
Those without a dot and without carriage returns do (`edited_literal`).
-/

namespace PlatformOverlay.Imports

open Java Java.Lexer
open Text (charLines dropBlanks dropReturn isBlank)

/-! ## Import statements -/

/-- Nothing stands behind the semicolon, and the statement can be read. -/
structure ImportLine.IsBare (i : ImportLine) : Prop where
  semicolon : ';' ∉ i.statement.toList.dropLast
  readable : ∃ lexed, tokenize i.statement = .ok lexed

/-- The characters of import statements. -/
def isStatementChar (c : Char) : Bool := isBlank c || isPathChar c || c == '*' || c == ';'

/-- In a bare statement, only line feeds end anything. -/
theorem isInert_of_isStatementChar {c : Char} (h : isStatementChar c = true) (lineFeed : c ≠ '\n') :
    isInert c = true := by
  have ne {d : Char} (hd : isStatementChar d = false) : c ≠ d := by
    rintro rfl
    rw [h] at hd
    cases hd
  simpa [isInert] using ⟨ne (by decide), ne (by decide), ne (by decide), ne (by decide), lineFeed⟩

theorem all_isStatementChar_of_blank {gap : List Char} (h : gap.all isBlank = true) :
    gap.all isStatementChar = true :=
  List.all_eq_true.2 fun c hc ↦ by simp [isStatementChar, List.all_eq_true.1 h c hc]

/-- The line pattern accepts only such characters in a name. -/
theorem isStatementChar_of_next {p q : Place} {c : Char} (h : p.next c = some q) :
    isStatementChar c = true := by
  by_contra other
  have other : ((isBlank c = false ∧ isNameChar c = false ∧ c ≠ '.') ∧ c ≠ '*') ∧ c ≠ ';' := by
    simpa [isStatementChar, isPathChar, and_assoc] using other
  cases p <;> simp [Place.next, other] at h

theorem all_isStatementChar_of_scan {p q : Place} {cs : List Char} (h : p.scan cs = some q) :
    cs.all isStatementChar = true := by
  induction cs generalizing p with
  | nil => rfl
  | cons c cs ih =>
    rw [Place.scan_cons, Option.bind_eq_some_iff] at h
    obtain ⟨next, step, h⟩ := h
    rw [List.all_cons, isStatementChar_of_next step, ih h]
    rfl

/-- A name that the line pattern reads has such characters only. -/
theorem all_isStatementChar_of_qualifiedName? {cs : List Char}
    (h : (qualifiedName? cs).isSome = true) : cs.all isStatementChar = true := by
  rw [isSome_qualifiedName?, Option.any_eq_true] at h
  obtain ⟨p, read, -⟩ := h
  exact all_isStatementChar_of_scan read

theorem all_isStatementChar_of_splitStatic {cs : List Char}
    (h : (splitStatic cs).2.all isStatementChar = true) : cs.all isStatementChar = true := by
  rw [splitStatic] at h
  cases hw : afterWord? "static" cs with
  | none => rwa [hw] at h
  | some rest =>
    obtain ⟨gap, e, -, blank, -⟩ := afterWord?_eq_some.1 hw
    rw [hw] at h
    dsimp only at h
    split at h
    · rw [e, List.all_append, List.all_append, h, all_isStatementChar_of_blank blank]
      decide
    · exact h

/-- A line with a bare import has only the characters of import statements. -/
theorem ImportLine.IsBare.all_isStatementChar {line : List Char} {i : ImportLine} (bare : i.IsBare)
    (h : ImportLine.parse? (String.ofList line) = some i) : line.all isStatementChar = true := by
  obtain ⟨gap, written, behind, states, path, reference, hq, rfl⟩ := parse?_eq_some.1 h
  rw [String.toList_ofList] at states
  have name : written.all isStatementChar = true :=
    all_isStatementChar_of_splitStatic (all_isStatementChar_of_qualifiedName? (by rw [hq]; rfl))
  have blank : behind.all isBlank = true := by
    obtain ⟨rest, e, hrest⟩ := Text.exists_dropBlanksEnd behind
    obtain nil | ⟨core, c, hc⟩ := List.eq_nil_or_concat' (Text.dropBlanksEnd behind)
    · rwa [e, nil]
    · refine absurd ?_ bare.semicolon
      have statement : (Text.trim (String.ofList line)).toList =
          "import".toList ++ gap ++ (written ++ ';' :: core) ++ [c] := by
        rw [Text.trim, String.toList_ofList, String.toList_ofList, states.dropBlanksEnd.eq, hc]
        simp
      rw [statement, List.dropLast_concat]
      simp
  obtain ⟨front, e, hfront⟩ := Text.exists_dropBlanks line
  rw [e, states.eq]
  simp only [List.all_append, List.all_cons, name, all_isStatementChar_of_blank hfront,
    all_isStatementChar_of_blank states.gap_blank, all_isStatementChar_of_blank blank]
  decide

/-! ## Import lines of a text -/

/-- The first line of a text is one of its lines, with its carriage return or without. -/
theorem mem_charLines_lineOf {cs : List Char} (h : lineOf cs ≠ []) :
    lineOf cs ∈ charLines cs ∨ dropReturn (lineOf cs) ∈ charLines cs := by
  obtain ⟨line, rest, rfl, oneLine, ends⟩ := exists_line cs
  rw [lineOf_append oneLine ends] at h ⊢
  obtain rfl | ⟨more, rfl⟩ := exists_line_end ends
  · left
    rw [List.append_nil, charLines, Text.splitChars_of_notMem oneLine, Text.linesOfPieces,
      if_neg (by simpa using h)]
    exact List.mem_singleton_self line
  · right
    rw [Text.charLines_append, Text.splitChars_of_notMem oneLine]
    exact List.mem_cons_self

theorem all_isStatementChar_of_dropReturn {line : List Char}
    (h : (dropReturn line).all isStatementChar = true) : line.all isStatementChar = true := by
  rw [dropReturn] at h
  split at h
  next last =>
    obtain ⟨front, rfl⟩ := List.getLast?_eq_some_iff.1 last
    rw [List.dropLast_concat] at h
    rw [List.all_append, h]
    decide
  next => exact h

/-- If all imports of a text are bare, then no literal begins or ends on one of their lines. -/
theorem inertImports_of_isBare {cs : List Char} (bare : ∀ i ∈ importsIn cs, i.IsBare) :
    InertImports ('\n' :: cs) := by
  intro behind suffix isImport
  have lines : ∀ line ∈ charLines behind, line ∈ charLines cs := by
    obtain same | ⟨front, rfl⟩ := List.suffix_cons_iff.1 suffix
    · rw [(List.cons.inj same).2]
      exact fun line hl ↦ hl
    · rw [Text.charLines_append]
      exact fun line hl ↦ List.mem_append_right _ hl
  have chars {line : List Char} (mem : line ∈ charLines behind) (h : Imports.isImport line = true) :
      line.all isStatementChar = true := by
    obtain ⟨i, hi⟩ := Option.isSome_iff_exists.1 h
    exact (bare i (List.mem_filterMap.2 ⟨line, lines line mem, hi⟩)).all_isStatementChar hi
  have whole : (lineOf behind).all isStatementChar = true := by
    have nonempty : lineOf behind ≠ [] := fun nil ↦ by
      rw [nil] at isImport
      exact absurd isImport (by decide)
    obtain mem | mem := mem_charLines_lineOf nonempty
    · exact chars mem isImport
    · exact all_isStatementChar_of_dropReturn (chars mem (by rwa [isImport_dropReturn]))
  refine List.all_eq_true.2 fun c hc ↦ isInert_of_isStatementChar (List.all_eq_true.1 whole c hc) ?_
  rintro rfl
  simpa using List.all_eq_true.1 List.all_takeWhile _ hc

/-! ## The import block -/

/-- The statement of a bare import is code all through. -/
theorem isCode_of_isBare {i : ImportLine} (bare : i.IsBare) (stated : i.IsStated) :
    ∀ c ∈ i.statement.toList, isCode c = true := by
  obtain ⟨lexed, h⟩ := bare.readable
  have chars := bare.all_isStatementChar ((congrArg _ String.ofList_toList).trans stated.reads)
  have read := literalsFrom_eq_some.2 ⟨lexed, tokenize_eq_ok.1 h, rfl⟩
  rw [← List.append_nil i.statement.toList] at read
  refine isCode_of_literalsFrom (fun c hc ↦ ?_) read
  have lineFeed : c ≠ '\n' := ne_of_mem_of_not_mem hc stated.oneLine
  obtain ⟨slash, double, single, -⟩ :=
    ne_of_isInert (isInert_of_isStatementChar (List.all_eq_true.1 chars c hc) lineFeed)
  exact ⟨slash, double, single⟩

/-- The block with the empty line in front of it is made of lines of code. -/
theorem exists_importBlock_lines {imports : List ImportLine}
    (h : ∀ i ∈ imports, ∀ c ∈ i.statement.toList, isCode c = true) : ∃ lines : List Char,
      '\n' :: (importBlock imports).toList = lines ++ ['\n'] ∧ ∀ c ∈ lines, isCode c = true := by
  rw [importBlock]
  split
  · exact ⟨[], rfl, by simp⟩
  · refine ⟨'\n' :: (String.join (imports.map (·.statement ++ "\n"))).toList, by simp, ?_⟩
    refine List.forall_mem_cons.2 ⟨by decide, fun c hc ↦ ?_⟩
    rw [String.toList_join, List.mem_flatMap] at hc
    obtain ⟨line, hline, hc⟩ := hc
    obtain ⟨i, hi, rfl⟩ := List.mem_map.1 hline
    rw [String.toList_append, List.mem_append] at hc
    obtain inStatement | lineFeed := hc
    · exact h i hi c inStatement
    · rw [List.mem_singleton.1 lineFeed]
      decide

/-- Blanks belong to no comment and no literal. -/
theorem ne_of_isBlank {c : Char} (h : isBlank c = true) :
    c ≠ '/' ∧ c ≠ '"' ∧ c ≠ '\'' ∧ c ≠ '*' := by
  refine ⟨?_, ?_, ?_, ?_⟩
  all_goals
    rintro rfl
    exact absurd h (by decide)

theorem literalsFrom_endLine {cs : List Char} {l : List (List Char)}
    (read : literalsFrom .code cs = some l) : literalsFrom .code (endLine cs) = some l := by
  rw [endLine]
  split
  · exact read
  · exact literalsFrom_lineFeed read

/-- A file has the literals of the text that the block is put in. -/
theorem literalsFrom_written {imports : List ImportLine} {head rest : List Char}
    {l : List (List Char)} (code : ∀ i ∈ imports, ∀ c ∈ i.statement.toList, isCode c = true)
    (outside : EndsOutside head) (ends : AtLineEnd rest)
    (read : literalsFrom .code (head ++ rest) = some l) :
    literalsFrom .code (written imports head (dropBlanks rest)) = some l := by
  obtain ⟨lines, hlines, code⟩ := exists_importBlock_lines code
  obtain ⟨gap, e, blank⟩ := Text.exists_dropBlanks rest
  generalize dropBlanks rest = solid at e ⊢
  subst e
  have ends := exists_line_end ends
  obtain ⟨next, put, l', readRest, rfl, place, behind⟩ :=
    exists_place_of_endsOutside outside ends read
  have whole : head ++ '\n' :: '\n' :: (importBlock imports).toList ++ solid =
      head ++ '\n' :: (lines ++ '\n' :: solid) := by
    rw [hlines]
    simp
  have lines := literalsFrom_lines place
    (fun c hc ↦ ne_of_isBlank (List.all_eq_true.1 blank c hc)) code ends readRest
  refine literalsFrom_endLine ?_
  rw [whole, behind, ← List.cons_append, lines, Option.map_some]

/-! ## Repaired files -/

/-- The text with its imports left out and its names shortened. -/
def edited (imports : List ImportLine) (package : Option String) (text : String) : String :=
  String.ofList (shortenNames imports package (bodyOf text).toList)

/-- Import lines hold nothing else, and the line taken for the package declaration does not end in
a text block.  What else is on an import line would be moved with it, and the import block would be
put in the text block. -/
structure Separated (generated common : String) (package : Option String) : Prop where
  bare : ∀ i ∈ importsOf generated ++ importsOf common, i.IsBare
  declared : ∀ head rest, splitAtPackage true (shortenNames (union (importsOf generated)
    (importsOf common)) package (bodyOf generated).toList) = some (head, rest) → EndsOutside head

section edits

variable {imports : List ImportLine} {package : Option String}
  (named : ∀ i ∈ imports, i.isWildcard = false → i.EndsWithName)
  (plain : ∀ p ∈ package, p.toList.all isPlain = true)

include named plain

/-- What has no dots, no carriage returns and no line feed at its end stays as it is. -/
theorem edited_undotted {text : String} (dot : '.' ∉ text.toList) (cr : '\r' ∉ text.toList)
    (last : text.toList.getLast? ≠ some '\n') : edited imports package text = text := by
  have body : (bodyOf text).toList = text.toList := by
    rw [← bodyText_undotted dot cr last, bodyText, String.ofList_toList]
  rw [edited, body, shortenNames_undotted named plain dot, String.ofList_toList]

/-- A literal without dots and carriage returns stays as it is. -/
theorem edited_literal {source : String} {lexed : Lexed}
    (read : tokenizeChars source.toList = .ok lexed) {literal : String}
    (mem : literal ∈ lexed.literals) (dot : '.' ∉ literal.toList) (cr : '\r' ∉ literal.toList) :
    edited imports package literal = literal := by
  obtain ⟨front, q, whole⟩ := endsWithQuote_of_literalsFrom
    (literalsFrom_eq_some.2 ⟨lexed, read, rfl⟩) literal.toList (List.mem_map_of_mem mem)
  refine edited_undotted named plain dot cr fun last ↦ ?_
  rw [whole, List.getLast?_concat] at last
  exact absurd (Option.some.inj last) (q.ne_of_ne (by decide))

end edits

/-! ## Literals -/

/-- The literals of a repaired text are those of the text, each edited by itself, and it can be
tokenized if the text can. -/
theorem literals_of_repair {generated common fixed : String} {package : Option String}
    (separated : Separated generated common package)
    (plain : ∀ p ∈ package, p.toList.all isPlain = true)
    {lexed : Lexed} (read : tokenizeChars generated.toList = .ok lexed)
    (h : repair generated common package = some fixed) : ∃ lexed',
      tokenizeChars fixed.toList = .ok lexed' ∧ lexed'.literals =
        lexed.literals.map (edited (union (importsOf generated) (importsOf common)) package) := by
  have named := endsWithName_of_mem_union generated common
  obtain ⟨head, rest, split, rfl⟩ := repair_eq_some.1 h
  obtain ⟨whole, ends, -⟩ := splitAtPackage_eq_some split
  have inert : InertImports ('\n' :: generated.toList) := inertImports_of_isBare fun i hi ↦
    separated.bare i (List.mem_append_left _ (by rwa [importsOf_eq]))
  have code : ∀ i ∈ union (importsOf generated) (importsOf common),
      ∀ c ∈ i.statement.toList, isCode c = true := fun i hi ↦
    isCode_of_isBare (separated.bare i (List.mem_append.2 (mem_of_mem_union hi)))
      (isStated_of_mem_union generated common i hi)
  have body := literalsFrom_bodyText inert (literalsFrom_eq_some.2 ⟨lexed, read, rfl⟩)
  have short := literalsFrom_shortenNames named plain body
  rw [bodyText, String.ofList_toList, whole] at short
  obtain ⟨lexed', read', literals⟩ := literalsFrom_eq_some.1
    (literalsFrom_written code (separated.declared head rest split) ends short)
  refine ⟨lexed', by rwa [String.toList_ofList],
    List.map_injective_iff.2 (fun _ _ ↦ String.toList_inj.1) ?_⟩
  rw [literals, List.map_map, List.map_map, List.map_map]
  refine List.map_congr_left fun literal _ ↦ ?_
  simp [edited, bodyText]

/-- A repaired file can be read, and its literals are those of the generated file, each with its
imports left out and its names shortened. -/
theorem literals_of_repair_print {path : Path} {source common fixed : String} {u : CompilationUnit}
    (parsed : parse path source = .ok u) (separated : Separated u.print common u.package)
    (h : repair u.print common u.package = some fixed) :
    let edit := edited (union (importsOf u.print) (importsOf common)) u.package
    ∃ lexed lexed', tokenize u.print = .ok lexed ∧ tokenize fixed = .ok lexed' ∧
      lexed'.literals = lexed.literals.map edit ∧
      ∀ literal ∈ lexed.literals, '.' ∉ literal.toList → '\r' ∉ literal.toList →
        edit literal = literal := by
  have wellFormed := wellFormed_of_parse parsed
  have plain : ∀ p ∈ u.package, p.toList.all isPlain = true := fun p hp ↦
    isPlain_of_isQualifiedName (wellFormed.package p hp)
  obtain ⟨lexed, read, -⟩ := Printer.exists_tokenize_print wellFormed
  obtain ⟨lexed', read', literals⟩ := literals_of_repair separated plain read h
  exact ⟨lexed, lexed', tokenize_eq_ok.2 read, tokenize_eq_ok.2 read', literals,
    fun literal mem ↦ edited_literal (endsWithName_of_mem_union u.print common) plain read mem⟩

/-- The name in the literal is shortened as the one in front of it, and the empty literal stays. -/
theorem literals_of_repair_print_imported :
    let fixed := "package a;\n\nimport b.B;\n\nclass C \x7b\n    B b = new B(\"B\", \"\");\n\x7d\n"
    ∃ u lexed lexed', parse ⟨"C.java"⟩
        "package a;\nimport b.B;\nclass C \x7b B b = new b.B(\"b.B\", \"\"); \x7d" = .ok u ∧
      Separated u.print "" u.package ∧ repair u.print "" u.package = some fixed ∧
      tokenize u.print = .ok lexed ∧ tokenize fixed = .ok lexed' ∧
      lexed.literals = ["\"b.B\"", "\"\""] ∧ lexed'.literals =
        [edited (union (importsOf u.print) (importsOf "")) u.package "\"b.B\"", "\"\""] := by
  let decl : TypeDecl := { TypeDecl.bare .classType "C" with
    members := [.item ⟨none, [], .empty, .field ⟨"B", "b", some ⟨"new b.B(\"b.B\", \"\")", 10⟩⟩⟩] }
  let u : CompilationUnit := ⟨none, some "a", [], [⟨false, "b.B", false⟩], [decl]⟩
  have print : u.print =
      "package a;\n\nimport b.B;\n\nclass C \x7b\n    B b = new b.B(\"b.B\", \"\");\n\x7d\n" := by
    decide +kernel
  have parsed : parse ⟨"C.java"⟩
      "package a;\nimport b.B;\nclass C \x7b B b = new b.B(\"b.B\", \"\"); \x7d" = .ok u := by
    refine @parse_of_tokenizeChars _ _ _ _ [] (by decide +kernel) (by cbv) ?_
    rfl
  have separated : Separated u.print "" u.package := by
    have imports : importsOf u.print ++ importsOf "" = [⟨"import b.B;", "b.B", "B", false⟩] := by
      rw [print]
      decide +kernel
    have front : (splitAtPackage true (shortenNames (union (importsOf u.print) (importsOf ""))
        (some "a") (bodyOf u.print).toList)).map Prod.fst = some "package a;".toList := by
      rw [print]
      decide +kernel
    refine ⟨?_, fun head rest split ↦ ?_⟩
    · rw [imports]
      exact List.forall_mem_singleton.2 ⟨by decide, _, tokenize_eq_ok.2 (by cbv)⟩
    · rw [split] at front
      cases front
      exact ⟨[], .inl rfl, _, (by cbv : tokenizeChars "package a;".toList = .ok _)⟩
  have fixed : repair u.print "" u.package =
      some "package a;\n\nimport b.B;\n\nclass C \x7b\n    B b = new B(\"B\", \"\");\n\x7d\n" := by
    rw [print]
    decide +kernel
  obtain ⟨lexed, lexed', read, read', literals, kept⟩ :=
    literals_of_repair_print parsed separated fixed
  have before : lexed.literals = ["\"b.B\"", "\"\""] := by
    have scanned : literalsFrom .code u.print.toList =
        some (["\"b.B\"", "\"\""].map String.toList) := by
      rw [print]
      decide +kernel
    rw [literalsFrom_eq_some.2 ⟨lexed, tokenize_eq_ok.1 read, rfl⟩] at scanned
    exact List.map_injective_iff.2 (fun _ _ ↦ String.toList_inj.1) (Option.some.inj scanned)
  refine ⟨u, lexed, lexed', parsed, separated, fixed, read, read', before, ?_⟩
  have empty := kept "\"\"" (by simp [before]) (by decide) (by decide)
  rw [literals, before, List.map_cons, List.map_singleton, empty]

/-- A literal that reads like the name of a class of `java.lang` does not stay as it is. -/
theorem exists_edited_literal : ¬ ∀ (path : Path) (source common fixed : String)
    (u : CompilationUnit), parse path source = .ok u → u.package.isSome = true →
    (∀ i ∈ importsOf common, i.IsBare) → repair u.print common u.package = some fixed →
    ∃ lexed lexed', tokenize u.print = .ok lexed ∧ tokenize fixed = .ok lexed' ∧
      lexed'.literals = lexed.literals := by
  intro h
  let decl : TypeDecl := { TypeDecl.bare .classType "C" with
    members := [.item ⟨none, [], .empty,
      .field ⟨"String", "s", some ⟨"\"java.lang.String\"", 10⟩⟩⟩] }
  let u : CompilationUnit := ⟨none, some "a", [], [], [decl]⟩
  have print : u.print =
      "package a;\n\nclass C \x7b\n    String s = \"java.lang.String\";\n\x7d\n" := by
    decide +kernel
  have parsed : parse ⟨"C.java"⟩
      "package a;\nclass C \x7b String s = \"java.lang.String\"; \x7d" = .ok u := by
    refine @parse_of_tokenizeChars _ _ _ _ [] (by decide +kernel) (by cbv) ?_
    rfl
  have fixed : repair u.print "" u.package =
      some "package a;\n\nclass C \x7b\n    String s = \"String\";\n\x7d\n" := by
    rw [print]
    decide +kernel
  have bare : ∀ i ∈ importsOf "", i.IsBare := by
    have none : importsOf "" = [] := by decide
    simp [none]
  obtain ⟨lexed, lexed', read, read', literals⟩ := h _ _ _ _ u parsed rfl bare fixed
  have before : literalsFrom .code u.print.toList = some ["\"java.lang.String\"".toList] := by
    rw [print]
    decide +kernel
  have after : literalsFrom .code
      "package a;\n\nclass C \x7b\n    String s = \"String\";\n\x7d\n".toList =
        some ["\"String\"".toList] := by
    decide +kernel
  rw [literalsFrom_eq_some.2 ⟨lexed, tokenize_eq_ok.1 read, rfl⟩] at before
  rw [literalsFrom_eq_some.2 ⟨lexed', tokenize_eq_ok.1 read', rfl⟩, literals, before] at after
  exact absurd after (by decide)

end PlatformOverlay.Imports
