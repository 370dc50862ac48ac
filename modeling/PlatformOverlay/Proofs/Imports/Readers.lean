import Mathlib.Data.List.TakeWhile
import PlatformOverlay.Proofs.Imports.Body
import PlatformOverlay.Proofs.Imports.Declaration

/-!
# The two readers of imports

The repair of a file reads imports line by line, the parser reads them as declarations.  Both find
the same imports in a text where each declaration stands on a line of its own, is written as import
lines are, and no other line looks like one (`declared_importsOf`).  Without any of this they may
not (`readers_differ`).

`ReadByLine` is this condition, and it can be decided for a text. A text is cut at its declarations
as the parser finds them (`declaredIn`), and the lines of the whole are put together from the
pieces:

1. in front of a declaration no line states an import, and the declaration starts a line
   (`exists_importsIn_append`);
2. the line that it starts states the same import (`parse?_of_importDecl`), whatever stands behind
   its semicolon on that line (`map_declared_importsIn`);
3. behind the last declaration no line states an import any more.

Comments need no care of their own: those in front of declarations are part of the pieces between
them, and `ReadByLine` asks of these pieces that no line in them looks like an import.
-/

namespace PlatformOverlay.Imports

open Java
open Text (isBlank charLines dropReturn splitChars)

/-! ## Where declarations stand -/

/-- A declaration that is the first on its line, is written with the characters of import lines and
names something qualified. -/
structure OnLine (d : DeclaredImport) : Prop where
  first : (d.lead.toList.reverse.takeWhile (· != '\n')).all isBlank = true
  plain : d.source.toList.all isDeclarationChar = true
  qualified : d.value.wildcard = true ∨ '.' ∈ d.value.path.toList

instance (d : DeclaredImport) : Decidable (OnLine d) :=
  decidable_of_iff
    ((d.lead.toList.reverse.takeWhile (· != '\n')).all isBlank = true ∧
      d.source.toList.all isDeclarationChar = true ∧
      (d.value.wildcard = true ∨ '.' ∈ d.value.path.toList))
    ⟨fun h ↦ ⟨h.1, h.2.1, h.2.2⟩, fun h ↦ ⟨h.first, h.plain, h.qualified⟩⟩

/-- Each import declaration has a line to itself, and no line of the rest of the text looks like
one. -/
structure ReadByLine (text : String) : Prop where
  onLine : ∀ d ∈ declaredIn text, OnLine d
  /-- No two declarations are on one line. -/
  apart : ∀ d ∈ (declaredIn text).tail, '\n' ∈ d.lead.toList
  quietLead : ∀ d ∈ declaredIn text, importsOf d.lead = []
  quietBehind : importsOf (behindImports text) = []

instance (text : String) : Decidable (ReadByLine text) :=
  decidable_of_iff
    ((∀ d ∈ declaredIn text, OnLine d) ∧ (∀ d ∈ (declaredIn text).tail, '\n' ∈ d.lead.toList) ∧
      (∀ d ∈ declaredIn text, importsOf d.lead = []) ∧ importsOf (behindImports text) = [])
    ⟨fun h ↦ ⟨h.1, h.2.1, h.2.2.1, h.2.2.2⟩, fun h ↦ ⟨h.onLine, h.apart, h.quietLead,
      h.quietBehind⟩⟩

/-! ## Line by line -/

theorem importsIn_of_notMem {line : List Char} (h : '\n' ∉ line) :
    importsIn line = (ImportLine.parse? (String.ofList line)).toList := by
  cases line with
  | nil => decide
  | cons c line =>
    have one : charLines (c :: line) = [c :: line] := by
      rw [charLines, Text.splitChars_of_notMem h, Text.linesOfPieces]
      rfl
    rw [importsIn, one, List.filterMap_cons, List.filterMap_nil]
    cases ImportLine.parse? (String.ofList (c :: line)) <;> rfl

/-- The imports of a text from its first line and the text behind. -/
theorem importsIn_lineFeed {line : List Char} (h : '\n' ∉ line) (more : List Char) :
    importsIn (line ++ '\n' :: more) =
      (ImportLine.parse? (String.ofList (dropReturn line))).toList ++ importsIn more := by
  rw [importsIn, Text.charLines_append, Text.splitChars_of_notMem h, List.map_singleton,
    List.singleton_append, List.filterMap_cons, importsIn]
  cases ImportLine.parse? (String.ofList (dropReturn line)) <;> rfl

/-- The first line of a text without imports does not look like one. -/
theorem isImport_firstLine {cs : List Char} (h : importsIn cs = []) :
    isImport (cs.takeWhile (· != '\n')) = false := by
  obtain ⟨line, rest, rfl, oneLine, atEnd⟩ := exists_line cs
  rw [(Text.takeWhile_sep oneLine atEnd).1]
  rcases exists_line_end atEnd with rfl | ⟨more, rfl⟩
  · rw [List.append_nil, importsIn_of_notMem oneLine, Option.toList_eq_nil_iff] at h
    rw [isImport, h]
    rfl
  · rw [importsIn_lineFeed oneLine, List.append_eq_nil_iff, Option.toList_eq_nil_iff] at h
    rw [← isImport_dropReturn, isImport, h.1]
    rfl

/-- A carriage return at the end of a line stands behind a semicolon in it. -/
theorem exists_dropReturn_append {line front : List Char} (ends : line.getLast? = some ';')
    (oneLine : '\n' ∉ front) :
    ∃ behind, dropReturn (line ++ front) = line ++ behind ∧ '\n' ∉ behind := by
  rw [dropReturn]
  split
  next last =>
    have nonempty : front ≠ [] := by
      rintro rfl
      rw [List.append_nil, ends] at last
      cases last
    exact ⟨front.dropLast, List.dropLast_append_of_ne_nil nonempty,
      fun hm ↦ oneLine ((List.dropLast_sublist front).subset hm)⟩
  next => exact ⟨front, rfl, oneLine⟩

/-- A line that starts with an import statement is read apart from the text that is left of it. -/
theorem map_declared_importsIn {line more : List Char} {value : Import}
    (reads : ∀ behind, '\n' ∉ behind →
      ∃ i, ImportLine.parse? (String.ofList (line ++ behind)) = some i ∧
      i.declared = value)
    (oneLine : '\n' ∉ line) (ends : line.getLast? = some ';')
    (quiet : isImport (more.takeWhile (· != '\n')) = false) :
    (importsIn (line ++ more)).map ImportLine.declared =
      value :: (importsIn more).map ImportLine.declared := by
  obtain ⟨front, rest, rfl, first, atEnd⟩ := exists_line more
  rw [(Text.takeWhile_sep first atEnd).1] at quiet
  have whole : '\n' ∉ line ++ front := by simp [oneLine, first]
  rcases exists_line_end atEnd with rfl | ⟨back, rfl⟩
  · obtain ⟨i, hi, rfl⟩ := reads front first
    rw [isImport, Option.isSome_eq_false_iff, Option.isNone_iff_eq_none] at quiet
    rw [List.append_nil, importsIn_of_notMem whole, hi, importsIn_of_notMem first, quiet]
    rfl
  · obtain ⟨behind, e, hb⟩ := exists_dropReturn_append ends first
    obtain ⟨i, hi, rfl⟩ := reads behind hb
    rw [← isImport_dropReturn, isImport, Option.isSome_eq_false_iff,
      Option.isNone_iff_eq_none] at quiet
    rw [importsIn_lineFeed first, quiet, ← List.append_assoc, importsIn_lineFeed whole, e, hi]
    rfl

/-- What the last line of a text starts with. -/
theorem exists_lastLine {lead : List Char}
    (h : (lead.reverse.takeWhile (· != '\n')).all isBlank = true) :
    ∃ gap, gap.all isBlank = true ∧ '\n' ∉ gap ∧
      (lead = gap ∨ ∃ front, lead = front ++ '\n' :: gap) := by
  refine ⟨(lead.reverse.takeWhile (· != '\n')).reverse, by simpa using h, fun hm ↦ ?_, ?_⟩
  · simpa using List.mem_takeWhile_imp (List.mem_reverse.1 hm)
  have whole := congrArg List.reverse (@List.takeWhile_append_dropWhile _ (· != '\n') lead.reverse)
  rw [List.reverse_append, List.reverse_reverse] at whole
  cases hd : lead.reverse.dropWhile (· != '\n') with
  | nil =>
    rw [hd] at whole
    exact .inl whole.symm
  | cons c front =>
    have lineFeed := List.head?_dropWhile_not (· != '\n') lead.reverse
    rw [hd] at lineFeed whole
    obtain rfl : c = '\n' := by simpa using lineFeed
    exact .inr ⟨front.reverse, by simpa using whole.symm⟩

/-- In front of the last line of a text without imports no line states one. -/
theorem exists_importsIn_append {lead : List Char}
    (first : (lead.reverse.takeWhile (· != '\n')).all isBlank = true)
    (quiet : importsIn lead = []) :
    ∃ gap, gap.all isBlank = true ∧ '\n' ∉ gap ∧
      ∀ more, importsIn (lead ++ more) = importsIn (gap ++ more) := by
  obtain ⟨gap, blank, oneLine, rfl | ⟨front, rfl⟩⟩ := exists_lastLine first
  · exact ⟨lead, blank, oneLine, fun more ↦ rfl⟩
  · refine ⟨gap, blank, oneLine, fun more ↦ ?_⟩
    rw [List.append_assoc, List.cons_append, importsIn_append]
    intro line hl
    rw [importsIn, Text.charLines_append, List.filterMap_append, List.append_eq_nil_iff] at quiet
    have none := List.filterMap_eq_nil_iff.1 quiet.1 _ (List.mem_map_of_mem hl)
    rw [← isImport_dropReturn, isImport, none]
    rfl

/-- The line reader finds the declarations that stand on lines of their own. -/
theorem importsIn_declarations {ds : List DeclaredImport} {behind : List Char}
    (words : ∀ d ∈ ds, ∃ taken rest, FromText (taken ++ rest) ∧
      Parser.importDecl (taken ++ rest) = .ok (d.value, rest) ∧ d.source = sourceText taken)
    (onLine : ∀ d ∈ ds, OnLine d) (apart : ∀ d ∈ ds.tail, '\n' ∈ d.lead.toList)
    (quietLead : ∀ d ∈ ds, importsOf d.lead = []) (quietBehind : importsIn behind = []) :
    (importsIn (ds.flatMap DeclaredImport.chars ++ behind)).map ImportLine.declared =
      ds.map (·.value) := by
  induction ds with
  | nil => simp [quietBehind]
  | cons d ds ih =>
    obtain ⟨⟨taken, rest, hws, read, source⟩, words⟩ := List.forall_mem_cons.1 words
    obtain ⟨⟨first, plain, qualified⟩, onLine⟩ := List.forall_mem_cons.1 onLine
    obtain ⟨quiet, quietLead⟩ := List.forall_mem_cons.1 quietLead
    rw [importsOf_eq] at quiet
    have later := ih words onLine (fun d hd ↦ apart d (List.mem_of_mem_tail hd)) quietLead
    obtain ⟨gap, blank, oneLine, skip⟩ := exists_importsIn_append first quiet
    -- What stands behind the semicolon on the line of `d` is the front of the next lead, or of what
    -- is behind all declarations.
    have next :
        isImport ((ds.flatMap DeclaredImport.chars ++ behind).takeWhile (· != '\n')) = false := by
      cases ds with
      | nil => exact isImport_firstLine quietBehind
      | cons d' ds =>
        have quiet' := quietLead d' List.mem_cons_self
        rw [importsOf_eq] at quiet'
        obtain ⟨line, more, e, first'⟩ := List.eq_append_cons_of_mem (apart d' List.mem_cons_self)
        have same := isImport_firstLine quiet'
        have firstLine (back : List Char) : (line ++ '\n' :: back).takeWhile (· != '\n') = line :=
          (Text.takeWhile_sep first' (by simp)).1
        rw [e, firstLine] at same
        rw [List.flatMap_cons, DeclaredImport.chars, e, List.append_assoc, List.append_assoc,
          List.append_assoc, List.cons_append, firstLine]
        exact same
    rw [List.flatMap_cons, DeclaredImport.chars, List.append_assoc, List.append_assoc, skip,
      ← List.append_assoc, List.map_cons, ← later]
    rw [source] at plain ⊢
    obtain ⟨w, static, name, tail, stop, is⟩ := exists_importWords read
    have ends := is.getLast?_sourceText hws
    refine map_declared_importsIn (fun _ hb ↦ parse?_of_importDecl hws read plain qualified blank
      hb) ?_ ?_ next
    · rw [List.mem_append, not_or]
      exact ⟨oneLine, fun hm ↦ absurd (List.all_eq_true.1 plain _ hm) (by decide)⟩
    · rw [List.getLast?_append, ends]
      rfl

/-- The imports that are read line by line are those that the parser reads, if each declaration has
a line to itself and no other line looks like an import. -/
theorem declared_importsOf {path : Path} {text : String} {unit : CompilationUnit}
    (other : isModuleInfo path = false) (h : parse path text = .ok unit)
    (layout : ReadByLine text) :
    (importsOf text).map ImportLine.declared = unit.imports := by
  rw [importsOf_eq, toList_eq, ← map_value_declaredIn other h]
  refine importsIn_declarations (fun d hd ↦ exists_words_of_mem_declaredIn hd)
    layout.onLine layout.apart
    layout.quietLead ?_
  rw [← importsOf_eq]
  exact layout.quietBehind

/-- Statements with blanks around the dots, a comment behind one and a star, and strings that look
like imports within their lines. -/
theorem declared_importsOf_blanks :
    let text := "package p;\n\nimport a . B ; // import x.Y;\n  import static\tc.D.*;;\r\n\n" ++
      "class C \x7b\n  String s = \"import x.Y;\";\n\x7d\n"
    ∃ unit, parse ⟨"C.java"⟩ text = .ok unit ∧ ReadByLine text ∧
      (importsOf text).map ImportLine.declared = unit.imports ∧
      unit.imports = [⟨false, "a.B", false⟩, ⟨true, "c.D", true⟩] := by
  intro text
  have imports : (parse ⟨"C.java"⟩ text).toOption.map (·.imports) =
      some [⟨false, "a.B", false⟩, ⟨true, "c.D", true⟩] := by decide +kernel
  have layout : ReadByLine text := by decide +kernel
  cases h : parse ⟨"C.java"⟩ text with
  | error e =>
    rw [h] at imports
    cases imports
  | ok unit =>
    rw [h] at imports
    exact ⟨unit, rfl, layout, declared_importsOf (by decide +kernel) h layout,
      Option.some.inj imports⟩

/-- The readers find different imports in a source file. -/
def ReadersDiffer (text : String) : Prop :=
  ∃ unit, parse ⟨"C.java"⟩ text = .ok unit ∧ (importsOf text).map ImportLine.declared ≠ unit.imports

/-- Whether the two readers differ on a text can be evaluated. -/
theorem readersDiffer_iff {text : String} : ReadersDiffer text ↔
    (parse ⟨"C.java"⟩ text).toOption.any (fun unit ↦
      decide ((importsOf text).map ImportLine.declared ≠ unit.imports)) = true := by
  rw [ReadersDiffer]
  cases parse ⟨"C.java"⟩ text with
  | error e => simp [Except.toOption]
  | ok unit => simp [Except.toOption]

instance (text : String) :
    Decidable (ReadersDiffer text) := decidable_of_iff _ readersDiffer_iff.symm

/-- An import in a comment, two on a line, one behind the package declaration, one with a comment in
it, one on two lines and one of a simple name. -/
theorem readers_differ : ReadersDiffer "/*\nimport a.B;\n*/\nclass C \x7b\x7d" ∧
    ReadersDiffer "import a.B; import c.D;" ∧ ReadersDiffer "package p; import a.B;" ∧
    ReadersDiffer "import a./**/B;" ∧ ReadersDiffer "import a.\nB;" ∧
    ReadersDiffer "import a;" := by
  decide +kernel

end PlatformOverlay.Imports
