import PlatformOverlay.Proofs.Imports.Keyword
import PlatformOverlay.Proofs.Imports.Package

/-!
# The lines of a repaired file

Read line by line, a repaired file is the lines of the shortened body with the import block between
them.  From the block the imports are read again (`importsIn_block`), from the other lines none is
(`importsIn_append`), and they are left as the body (`bodyLines_lines`).

A `BodyLine` is one of which both are known: it states no import, and it does not end with a
carriage return, which would be taken for part of the line end when it is read again.
-/

namespace PlatformOverlay.Imports

open Text (isBlank dropBlanks splitChars charLines)

/-! ## Bodies -/

/-- The lines that state no import. -/
def bodyLines (cs : List Char) : List (List Char) :=
  (charLines cs).filter fun l ↦ (ImportLine.parse? (String.ofList l)).isNone

def importsIn (cs : List Char) : List ImportLine :=
  (charLines cs).filterMap fun l ↦ ImportLine.parse? (String.ofList l)

/-- The imports of a string are those of its characters. -/
theorem importsOf_eq (text : String) : importsOf text = importsIn text.toList := by
  rw [importsOf, Text.lines_eq, List.filterMap_map]
  rfl

/-- The body of a text is its other lines, joined again. -/
theorem toList_bodyOf (text : String) :
    (bodyOf text).toList = ['\n'].intercalate (bodyLines text.toList) := by
  rw [bodyOf, Text.lines_eq, String.toList_intercalate, List.filter_map, List.map_map]
  have same : (String.toList ∘ String.ofList) = id := funext fun l ↦ String.toList_ofList
  rw [same, List.map_id]
  rfl

/-- A line that states no import and does not end with a carriage return. -/
structure BodyLine (line : List Char) : Prop where
  plain : ImportLine.parse? (String.ofList line) = none
  noReturn : line.getLast? ≠ some '\r'

theorem bodyLine_nil : BodyLine [] := ⟨by decide, by simp⟩

theorem BodyLine.isImport {line : List Char} (h : BodyLine line) : isImport line = false := by
  rw [Imports.isImport, h.plain]
  rfl

/-- Lines without an import in front make no difference, whether or not they end with a carriage
return. -/
theorem importsIn_append {front : List Char}
    (h : ∀ line ∈ splitChars '\n' front, isImport line = false)
    (cs : List Char) : importsIn (front ++ '\n' :: cs) = importsIn cs := by
  rw [importsIn, Text.charLines_append, List.filterMap_append, List.filterMap_eq_nil_iff.2,
    List.nil_append, importsIn]
  refine List.forall_mem_map.2 fun line hl ↦ ?_
  rw [← Option.not_isSome_iff_eq_none, Bool.not_eq_true]
  exact (isImport_dropReturn line).trans (h line hl)

section lines

variable {front : List Char} (h : ∀ line ∈ splitChars '\n' front, BodyLine line) (cs : List Char)

include h

/-- Lines that are all ended are read from their own text. -/
theorem charLines_lines :
    charLines (front ++ '\n' :: cs) = splitChars '\n' front ++ charLines cs := by
  rw [Text.charLines_append, List.map_congr_left (g := id), List.map_id]
  exact fun line hl ↦ Text.dropReturn_eq_self (h line hl).noReturn

/-- The body lines of a text that starts with body lines. -/
theorem bodyLines_lines :
    bodyLines (front ++ '\n' :: cs) = splitChars '\n' front ++ bodyLines cs := by
  rw [bodyLines, charLines_lines h, List.filter_append, List.filter_eq_self.2, bodyLines]
  intro line hl
  rw [(h line hl).plain]
  rfl

end lines

/-! ## The import block -/

/-- The import is stated on one line, and read from it. -/
structure ImportLine.IsStated (i : ImportLine) : Prop where
  reads : ImportLine.parse? i.statement = some i
  oneLine : '\n' ∉ i.statement.toList
  noReturn : i.statement.toList.getLast? ≠ some '\r'

/-- What is read off a line can be stated as one again. -/
theorem isStated_of_mem_importsIn {cs : List Char} {i : ImportLine} (h : i ∈ importsIn cs) :
    i.IsStated := by
  obtain ⟨line, hline, hi⟩ := List.mem_filterMap.1 h
  have statement : i.statement.toList = trimmed line := by
    obtain ⟨_, _, _, -, _, _, -, rfl⟩ := parse?_eq_some.1 hi
    simp [Text.trim, trimmed]
  refine ⟨parse?_statement hi, fun hm ↦ ?_, fun last ↦ ?_⟩
  · obtain ⟨gap, gap', e, -, -⟩ := exists_trimmed line
    refine Text.lineFeed_notMem_of_mem_charLines hline ?_
    rw [e, ← statement]
    simp [hm]
  · have := Text.getLast?_dropBlanksEnd (dropBlanks line)
    rw [statement] at last
    rw [trimmed] at last
    rw [last] at this
    exact absurd this (by decide)

theorem isStated_of_mem_union (generated common : String) :
    ∀ i ∈ union (importsOf generated) (importsOf common), i.IsStated := by
  intro i h
  rcases mem_of_mem_union h with h | h
  all_goals
    rw [importsOf_eq] at h
    exact isStated_of_mem_importsIn h

/-- The lines of the import block. -/
def blockLines (imports : List ImportLine) : List (List Char) :=
  if imports = [] then [] else imports.map (·.statement.toList) ++ [[]]

/-- The block is a line for each import and an empty line, or nothing. -/
theorem toList_importBlock (imports : List ImportLine) :
    (importBlock imports).toList = if imports = [] then [] else
      imports.flatMap (fun i ↦ i.statement.toList ++ ['\n']) ++ ['\n'] := by
  rw [importBlock]
  cases imports with
  | nil => rfl
  | cons i imports =>
    rw [List.isEmpty_cons, if_neg (by simp), if_neg (by simp), String.toList_append,
      String.toList_join,
      List.flatMap_map]
    simp only [String.toList_append]
    rfl

section block

variable {imports : List ImportLine} (h : ∀ i ∈ imports, i.IsStated) (cs : List Char)

include h

theorem splitChars_statements :
    splitChars '\n' (imports.flatMap (fun i ↦ i.statement.toList ++ ['\n']) ++ cs) =
      imports.map (·.statement.toList) ++ splitChars '\n' cs := by
  induction imports with
  | nil => rfl
  | cons i imports ih =>
    have own := h i List.mem_cons_self
    rw [List.flatMap_cons, List.append_assoc, List.append_assoc, List.singleton_append,
      Text.splitChars_append, ih fun j hj ↦ h j (List.mem_cons_of_mem _ hj),
      Text.splitChars_of_notMem own.oneLine]
    rfl

/-- Cut at line feeds, a block in front of a text gives its own lines. -/
theorem splitChars_block : splitChars '\n' ((importBlock imports).toList ++ cs) =
    blockLines imports ++ splitChars '\n' cs := by
  rw [toList_importBlock, blockLines]
  split
  · rfl
  · rw [List.append_assoc, splitChars_statements h, List.append_assoc]
    exact congrArg _ (Text.splitChars_append [] cs)

theorem charLines_block : charLines ((importBlock imports).toList ++ cs) =
    imports.map (·.statement.toList) ++ (if imports = [] then [] else [[]]) ++ charLines cs := by
  have kept : (blockLines imports).map Text.dropReturn = blockLines imports := by
    refine (List.map_congr_left fun line hl ↦ Text.dropReturn_eq_self ?_).trans (List.map_id _)
    rw [blockLines] at hl
    split at hl
    · cases hl
    · rcases List.mem_append.1 hl with hl | hl
      · obtain ⟨i, hi, rfl⟩ := List.mem_map.1 hl
        exact (h i hi).noReturn
      · rw [List.mem_singleton.1 hl]
        simp
  rw [charLines, splitChars_block h, Text.linesOfPieces_append _ (Text.splitChars_ne_nil _ _), kept,
    blockLines, charLines]
  congr 1
  split <;> simp_all

/-- The block adds one empty line to the body, and none if it is empty itself. -/
theorem bodyLines_block : bodyLines ((importBlock imports).toList ++ cs) =
    (if imports = [] then [] else [[]]) ++ bodyLines cs := by
  rw [bodyLines, charLines_block h, List.filter_append, List.filter_append,
    List.filter_eq_nil_iff.2,
    List.filter_eq_self.2, List.nil_append, bodyLines]
  · intro line hl
    split at hl
    · cases hl
    · rw [List.mem_singleton.1 hl, bodyLine_nil.plain]
      rfl
  · intro line hl
    obtain ⟨i, hi, rfl⟩ := List.mem_map.1 hl
    rw [String.ofList_toList, (h i hi).reads]
    simp

/-- The imports of a block are read back, in order. -/
theorem importsIn_block :
    importsIn ((importBlock imports).toList ++ cs) = imports ++ importsIn cs := by
  have stated : (imports.map (·.statement.toList)).filterMap
      (fun l ↦ ImportLine.parse? (String.ofList l)) = imports := by
    rw [List.filterMap_map]
    refine (List.filterMap_congr fun i hi ↦ ?_).trans List.filterMap_some
    rw [Function.comp_apply, String.ofList_toList, (h i hi).reads]
  rw [importsIn, charLines_block h, List.filterMap_append, List.filterMap_append, stated, importsIn]
  split <;> simp [bodyLine_nil.plain]

end block

end PlatformOverlay.Imports
