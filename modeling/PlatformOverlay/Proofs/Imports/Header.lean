import PlatformOverlay.Java.Lexer
import PlatformOverlay.Proofs.Imports.Repair

/-!
# The header of a repaired file

Read from line feed to line feed, a repaired file is the shortened body up to its first package
declaration, an empty line, the import block, and the lines of the body that are left, without the
blank ones in front (`splitChars_written`).  No line of the body becomes an import by shortening, so
the imports of the file are those of the block (`repair_header`).  This needs names that an import
statement can have in it: a package that is not spelled with them is cut off in statements that are
no import lines, which then are (`exists_import_made`).

Whether or not more imports are read from it, a repaired file has the block (`HasBlock`), which
brings an import for every key of the common file (`brings_of_repair`), and goes on to do so when it
is repaired with another common file (`Brings.repair`). This part has no conditions, and the output
of a run relies on it.
-/

namespace PlatformOverlay.Imports

open Text (isBlank dropBlanks dropBlankLines splitChars)

/-- The lines of a text that ends with a line feed, which is put there if it is missing. -/
def endLines (lines : List (List Char)) : List (List Char) :=
  if lines.getLast? = some [] then lines else lines ++ [[]]

/-- The last line is empty if the text ends with a line feed. -/
theorem getLast?_of_getLast?_splitChars {cs : List Char} (nonempty : cs ≠ [])
    (h : (splitChars '\n' cs).getLast? = some []) : cs.getLast? = some '\n' := by
  obtain ⟨pieces, e⟩ := List.getLast?_eq_some_iff.1 h
  have joined := @Text.intercalate_splitChars '\n' cs
  rw [e] at joined
  by_cases nil : pieces = []
  · rw [nil] at joined
    exact absurd joined.symm nonempty
  · rw [Text.intercalate_append nil (by simp)] at joined
    rw [← joined]
    exact List.getLast?_concat

/-- Ending the last line of a text ends it among its lines. -/
theorem splitChars_endLine {cs : List Char} (nonempty : cs ≠ []) :
    splitChars '\n' (endLine cs) = endLines (splitChars '\n' cs) := by
  rw [endLine, endLines]
  split
  next ends =>
    obtain ⟨front, rfl⟩ := List.getLast?_eq_some_iff.1 ends
    rw [if_pos]
    rw [Text.splitChars_append, Text.splitChars_nil, List.getLast?_concat]
  next open_ =>
    rw [if_neg fun last ↦ open_ (getLast?_of_getLast?_splitChars nonempty last),
      Text.splitChars_append, Text.splitChars_nil]

/-- The lines of a repaired file. -/
theorem splitChars_written {imports : List ImportLine} (stated : ∀ i ∈ imports, i.IsStated)
    (head rest : List Char) : splitChars '\n' (written imports head (dropBlanks rest)) =
      splitChars '\n' head ++
        ([] :: blockLines imports ++ endLines (dropBlankLines (splitChars '\n' rest))) := by
  rw [written_eq, Text.splitChars_append, List.nil_append, Text.splitChars_cons, if_pos rfl,
    splitChars_block stated, Text.dropBlankLines_splitChars]
  split
  · rfl
  next solid => rw [splitChars_endLine solid, List.cons_append]

/-- The lines of a text that is split at the end of one of them. -/
theorem splitChars_parts {head rest : List Char} (hrest : AtLineEnd rest) : ∃ back,
    splitChars '\n' (head ++ rest) = splitChars '\n' head ++ back ∧
      dropBlankLines back = dropBlankLines (splitChars '\n' rest) := by
  rcases exists_line_end hrest with rfl | ⟨behind, rfl⟩
  · exact ⟨[], by simp, rfl⟩
  · exact ⟨splitChars '\n' behind, Text.splitChars_append _ _, rfl⟩

variable {generated common : String} {package : Option String} {fixed : String}

/-- The imports of a repaired file are the union of those of the two texts.  Its lines are those of
the shortened body up to the first package declaration, an empty line, the imports with another one
behind them if there are any, and the other lines of the body without the blanks in front. -/
theorem repair_header (dotted : package.all (isDottedName ·.toList) = true)
    (unused : ∀ i ∈ importsOf generated ++ importsOf common,
      i.reference ≠ "import" ∧ i.reference ≠ "static")
    (h : repair generated common package = some fixed) :
    let imports := union (importsOf generated) (importsOf common)
    importsOf fixed = imports ∧ ∃ front back,
      (bodyLines generated.toList).map (shortenNames imports package) = front ++ back ∧
      FirstPackage true (['\n'].intercalate front) (['\n'].intercalate (front ++ back)) ∧
      FirstPackage true (['\n'].intercalate front) fixed.toList ∧
      splitChars '\n' fixed.toList =
        front ++ ([] :: blockLines imports ++ endLines (dropBlankLines back)) := by
  intro imports
  have named := endsWithName_of_mem_union generated common
  have stated := isStated_of_mem_union generated common
  have noKeyword :
      ∀ i ∈ imports, i.isWildcard = false → i.reference ≠ "import" ∧ i.reference ≠ "static" :=
    fun i hi _ ↦ unused i (List.mem_append.2 (mem_of_mem_union hi))
  have plain := isImport_of_mem_shortened named dotted noKeyword generated
  obtain ⟨head, rest, split, rfl⟩ := repair_eq_some.1 h
  obtain ⟨whole, atEnd, before, b, after, hasPackage⟩ := splitAtPackage_eq_some split
  have first := firstPackage_of_splitAtPackage split
  rw [whole] at split plain
  obtain ⟨inHead, inRest⟩ :=
    forall_mem_parts (p := (isImport · = false)) bodyLine_nil.isImport atEnd plain
  have nonempty : bodyLines generated.toList ≠ [] := by
    intro nil
    rw [shortenNames_bodyOf named dotted, nil, hasPackage] at whole
    simp at whole
  have lines := splitChars_shortened named dotted nonempty
  rw [whole] at lines
  obtain ⟨back, parts, same⟩ := splitChars_parts atEnd
  refine ⟨?_, splitChars '\n' head, back, lines.symm.trans parts, ?_, ?_, ?_⟩
  · rw [importsOf_eq, String.toList_ofList]
    refine importsIn_written_of_plain stated inHead
      (forall_mem_dropBlanks bodyLine_nil.isImport ?_ inRest)
    exact fun line hl ↦ (isImport_dropBlanks line).trans hl
  · rw [← parts, Text.intercalate_splitChars, Text.intercalate_splitChars, ← whole]
    exact first
  · rw [Text.intercalate_splitChars, String.toList_ofList, written_eq]
    refine firstPackage_of_splitAtPackage (splitAtPackage_append split fun c hc ↦ ?_)
    exact (Option.some.inj hc).symm
  · rw [String.toList_ofList, splitChars_written stated, same]

/-- An import line of the body moves up, and the blanks behind the package line are gone. -/
theorem repair_header_moved :
    let generated := "package a;\n\n\n  class C extends b.B \x7b\nimport b.B;\n\x7d"
    let fixed := "package a;\n\nimport b.B;\n\nclass C extends B \x7b\n\x7d\n"
    repair generated "import b.B; // again" (some "a") = some fixed ∧
      importsOf fixed = [⟨"import b.B;", "b.B", "B", false⟩] := by
  intro generated fixed
  have done : repair generated "import b.B; // again" (some "a") = some fixed := by decide +kernel
  obtain ⟨imports, -⟩ := repair_header (by decide +kernel) (by decide +kernel) done
  exact ⟨done, imports.trans (by decide +kernel)⟩

/-! ## Import blocks -/

/-- Behind its first package declaration and an empty line the text has a block of these imports. -/
structure HasBlock (text : String) (imports : List ImportLine) : Prop where
  stated : ∀ i ∈ imports, i.IsStated
  written : ∃ head rest, FirstPackage true head text.toList ∧
    text.toList = head ++ '\n' :: '\n' :: ((importBlock imports).toList ++ rest)

/-- A repaired text has the union of both import lists as its block. -/
theorem hasBlock_of_repair (h : repair generated common package = some fixed) :
    HasBlock fixed (union (importsOf generated) (importsOf common)) := by
  refine ⟨isStated_of_mem_union generated common, ?_⟩
  obtain ⟨head, rest, split, rfl⟩ := repair_eq_some.1 h
  obtain ⟨whole, -, -⟩ := splitAtPackage_eq_some split
  rw [whole] at split
  rw [String.toList_ofList, written_eq]
  refine ⟨head, _, firstPackage_of_splitAtPackage (splitAtPackage_append split fun c hc ↦ ?_), rfl⟩
  exact (Option.some.inj hc).symm

/-- Lines in front of a text take no import away. -/
theorem mem_importsIn_append {front cs : List Char} {i : ImportLine} (h : i ∈ importsIn cs) :
    i ∈ importsIn (front ++ '\n' :: cs) := by
  rw [importsIn, Text.charLines_append, List.filterMap_append]
  exact List.mem_append_right _ h

/-- The imports of a block are read from the text, maybe with others. -/
theorem HasBlock.subset {text : String} {imports : List ImportLine} (h : HasBlock text imports) :
    imports ⊆ importsOf text := by
  intro i hi
  obtain ⟨head, rest, -, e⟩ := h.written
  rw [importsOf_eq, e]
  refine mem_importsIn_append (@mem_importsIn_append [] _ _ ?_)
  rw [importsIn_block h.stated]
  exact List.mem_append_left _ hi

/-- The import block of the text has an import for the key of each one that is needed. -/
def Brings (needed : List ImportLine) (text : String) : Prop :=
  ∃ imports, HasBlock text imports ∧ ∀ i ∈ needed, ∃ j ∈ imports, j.key = i.key

/-- A repaired text has an import for every key of the common text. -/
theorem brings_of_repair (h : repair generated common package = some fixed) :
    Brings (importsOf common) fixed :=
  ⟨_, hasBlock_of_repair h, fun _ hi ↦ exists_mem_union (.inr hi)⟩

/-- Another repair takes nothing away. -/
theorem Brings.repair {needed : List ImportLine} (brings : Brings needed generated)
    (h : repair generated common package = some fixed) : Brings needed fixed := by
  obtain ⟨imports, block, keys⟩ := brings
  refine ⟨_, hasBlock_of_repair h, fun i hi ↦ ?_⟩
  obtain ⟨j, hj, same⟩ := keys i hi
  obtain ⟨first, hf, same'⟩ := exists_mem_union (.inl (block.subset hj))
  exact ⟨first, hf, same'.trans same⟩

/-! ## Other identifiers -/

/-- Identifiers of the language with dots between them. -/
def isIdentifierPath (cs : List Char) : Bool :=
  (splitChars '.' cs).all fun piece ↦
    piece.head?.any Java.Lexer.isIdentStart && piece.all Java.Lexer.isIdentPart

/-- An import of a type that lies in a package with another identifier is no import line, but its
name is shortened, and then it is one. -/
theorem exists_import_made : ¬∀ generated common package fixed,
    package.all (isIdentifierPath ·.toList) = true →
    (∀ i ∈ importsOf generated ++ importsOf common, i.reference ≠ "import" ∧
      i.reference ≠ "static") →
    repair generated common package = some fixed →
      importsOf fixed = union (importsOf generated) (importsOf common) := by
  intro h
  have same := h "package €;\n\nimport €.X.y;\n\nclass C \x7b\n\x7d\n" "" (some "€")
    "package €;\n\nimport X.y;\n\nclass C \x7b\n\x7d\n" (by decide +kernel) (by decide +kernel)
    (by decide +kernel)
  exact absurd same (by decide +kernel)

end PlatformOverlay.Imports
