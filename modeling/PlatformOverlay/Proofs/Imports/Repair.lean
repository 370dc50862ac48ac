import PlatformOverlay.Proofs.Imports.Body

/-!
# Repairing a repaired file

A repaired file is its text up to the package declaration, the import block, and the text behind it
(`repair_eq_some`).  Where no line looks like an import by chance and shortening settles at once
(`Settled`), the imports read from it are those of the block and its body has the names of the
shortened body, so that repairing it again leaves it as it is (`repair_repair`).

The second repair takes the same steps on the repaired text, and each step has a lemma for it:

| step | on a repaired text |
| --- | --- |
| reading the imports | those of the block, and no others (`importsIn_written`) |
| uniting them with those of the common file | nothing is added (`union_union`) |
| leaving the import lines out | empty lines where the block was (`exists_bodyLines_written`) |
| shortening names | nothing is left to shorten (`Stable`) |
| splitting behind the package line | at the same place (`splitAtPackage_append`) |
| putting the block in | the empty lines are dropped again (`written_eq`) |

## What is not claimed

That repairing twice is the same as repairing once for all texts: each repair takes away one of the
empty lines at the end of a file (`exists_repair_ne`), which `Settled.noGap` excludes. Its other
conditions are about lines that become imports by being shortened, about carriage returns that stand
alone at the end of a line, and about names that are shortened to the front of another name.
-/

namespace PlatformOverlay

namespace Imports

open Text (isBlank dropBlanks splitChars charLines)

theorem runs_gap {gap : List Char} (h : gap.all isBlank = true) (cs : List Char) :
    Text.runs isPathChar (gap ++ cs) = Text.runs isPathChar cs := by
  induction gap with
  | nil => rfl
  | cons c gap ih =>
    rw [List.all_cons, Bool.and_eq_true] at h
    rw [List.cons_append, Text.runs_sep (isPathChar_of_isBlank h.1), ih h.2]

/-! ## The end of the text -/

/-- The text without a line feed at its end. -/
def dropLineEnd (cs : List Char) : List Char :=
  if cs.getLast? = some '\n' then cs.dropLast else cs

theorem endLine_eq (cs : List Char) : endLine cs = dropLineEnd cs ++ ['\n'] := by
  rw [endLine, dropLineEnd]
  split
  next last =>
    obtain ⟨front, rfl⟩ := List.getLast?_eq_some_iff.1 last
    rw [List.dropLast_concat]
  next => rfl

/-- Ending the last line of a text is ending that of its end. -/
theorem endLine_append (xs : List Char) {cs : List Char} (nonempty : cs ≠ []) :
    endLine (xs ++ cs) = xs ++ endLine cs := by
  obtain ⟨front, c, rfl⟩ := (List.eq_nil_or_concat' cs).resolve_left nonempty
  rw [endLine, endLine, ← List.append_assoc, List.getLast?_concat, List.getLast?_concat]
  split
  · rw [List.append_assoc]
  · simp only [List.append_assoc]

/-- A text is the same without its line end, or has one line feed more. -/
theorem dropLineEnd_eq_or (cs : List Char) :
    cs = dropLineEnd cs ∨ cs = dropLineEnd cs ++ ['\n'] := by
  rw [dropLineEnd]
  split
  next last =>
    obtain ⟨front, rfl⟩ := List.getLast?_eq_some_iff.1 last
    exact .inr (by rw [List.dropLast_concat])
  next => exact .inl rfl

/-- Blanks in front and a line end are dropped independently. -/
theorem dropBlanks_dropLineEnd {cs : List Char} (h : cs.head?.any isBlank = false) :
    dropBlanks (dropLineEnd cs) = dropLineEnd cs := by
  refine Text.dropBlanks_eq_self ?_
  rcases dropLineEnd_eq_or cs with e | e
  · rwa [← e]
  · rw [e] at h
    cases hd : dropLineEnd cs with
    | nil => rfl
    | cons c rest => simpa [hd] using h

theorem runs_dropLineEnd (cs : List Char) :
    Text.runs isPathChar (dropLineEnd cs) = Text.runs isPathChar cs := by
  rcases dropLineEnd_eq_or cs with e | e
  · rw [← e]
  · conv_rhs => rw [e, Text.runs_append_sep (by decide), Text.runs_nil, List.append_nil]

/-- Empty lines in front are blanks in front. -/
theorem exists_intercalate_replicate (n : Nat) (lines : List (List Char)) :
    ∃ gap, gap.all isBlank = true ∧
      ['\n'].intercalate (List.replicate n [] ++ lines) = gap ++ ['\n'].intercalate lines := by
  induction n with
  | zero => exact ⟨[], rfl, rfl⟩
  | succ n ih =>
    obtain ⟨gap, blank, e⟩ := ih
    rw [List.replicate_succ, List.cons_append]
    by_cases nil : List.replicate n [] ++ lines = []
    · obtain ⟨-, rfl⟩ := List.append_eq_nil_iff.1 nil
      exact ⟨[], rfl, by rw [nil]; rfl⟩
    · refine ⟨'\n' :: gap, by simpa [isBlank] using blank, ?_⟩
      rw [List.intercalate_cons_of_ne_nil nil, e]
      rfl

/-! ## Repaired texts -/

/-- The text of a file with an import block between the package declaration and the rest. -/
def written (imports : List ImportLine) (head rest : List Char) : List Char :=
  endLine (head ++ '\n' :: '\n' :: (importBlock imports).toList ++ rest)

/-- A repair by its steps: the union of the imports, the body with shortened names, the cut
behind the package line, and the block put in between. -/
theorem repair_eq_some {generated common : String} {package : Option String} {fixed : String} :
    repair generated common package = some fixed ↔ ∃ head rest,
      splitAtPackage true (shortenNames (union (importsOf generated) (importsOf common)) package
        (bodyOf generated).toList) = some (head, rest) ∧
      fixed = String.ofList
        (written (union (importsOf generated) (importsOf common)) head (dropBlanks rest)) := by
  rw [repair, Option.map_eq_some_iff]
  constructor
  · rintro ⟨⟨head, rest⟩, split, rfl⟩
    exact ⟨head, rest, split, rfl⟩
  · rintro ⟨head, rest, split, rfl⟩
    exact ⟨(head, rest), split, rfl⟩

section written

variable {imports : List ImportLine} {head rest : List Char}

/-- The written text as lines: the header, an empty line, the block and the rest. -/
theorem written_eq : written imports head rest = head ++ '\n' :: ([] ++ '\n' ::
    ((importBlock imports).toList ++ if rest = [] then [] else endLine rest)) := by
  rw [written]
  split
  next nil =>
    have ends :
        ∃ front, head ++ '\n' :: '\n' :: (importBlock imports).toList = front ++ ['\n'] := by
      rw [importBlock]
      split
      · exact ⟨head ++ ['\n'], by simp⟩
      · exact ⟨head ++ '\n' :: '\n' :: (String.join (imports.map (·.statement ++ "\n"))).toList,
          by simp⟩
    obtain ⟨front, e⟩ := ends
    rw [nil, List.append_nil, List.append_nil, e, endLine, List.getLast?_concat, if_pos rfl, ← e,
      List.nil_append]
  next nonempty =>
    rw [endLine_append _ nonempty]
    simp

/-- The rest is ended anyway, so its own line end does not matter. -/
theorem written_dropLineEnd (solid : rest.head?.any isBlank = false) (h : ¬ ['\n', '\n'] <:+ rest) :
    written imports head (dropLineEnd rest) = written imports head rest := by
  rcases dropLineEnd_eq_or rest with e | e
  · rw [← e]
  · have nonempty : dropLineEnd rest ≠ [] := fun nil ↦ by
      rw [e, nil] at solid
      exact absurd solid (by decide)
    have last : (dropLineEnd rest).getLast? ≠ some '\n' := fun last ↦ by
      obtain ⟨front, hf⟩ := List.getLast?_eq_some_iff.1 last
      rw [e, hf] at h
      exact h ⟨front, by simp⟩
    have same : endLine (dropLineEnd rest) = endLine rest := by
      rw [endLine, if_neg last, endLine_eq]
    rw [written_eq, written_eq, if_neg nonempty, same, if_neg fun nil ↦ nonempty (by rw [nil]; rfl)]

theorem forall_mem_dropLineEnd {p : List Char → Prop} (h : ∀ line ∈ splitChars '\n' rest, p line) :
    ∀ line ∈ splitChars '\n' (dropLineEnd rest), p line := by
  rcases dropLineEnd_eq_or rest with e | e
  · rwa [← e]
  · intro line hl
    refine h line ?_
    rw [e, Text.splitChars_append]
    exact List.mem_append_left _ hl

variable (stated : ∀ i ∈ imports, i.IsStated)
    (inHead : ∀ line ∈ splitChars '\n' head, BodyLine line)
  (inRest : ∀ line ∈ splitChars '\n' rest, BodyLine line)

include stated in
/-- The imports of the block are read again, and no others. -/
theorem importsIn_written_of_plain (inHead : ∀ line ∈ splitChars '\n' head, isImport line = false)
    (inRest : ∀ line ∈ splitChars '\n' rest, isImport line = false) :
    importsIn (written imports head rest) = imports := by
  have emptyLine : ∀ line ∈ splitChars '\n' [], isImport line = false := by
    simpa using bodyLine_nil.isImport
  rw [written_eq, importsIn_append inHead, importsIn_append emptyLine, importsIn_block stated]
  split
  · exact List.append_nil _
  · rw [endLine_eq, importsIn_append (forall_mem_dropLineEnd inRest)]
    exact List.append_nil _

include stated inHead inRest

/-- The written text has the imports of the block and no others. -/
theorem importsIn_written : importsIn (written imports head rest) = imports :=
  importsIn_written_of_plain stated (fun line hl ↦ (inHead line hl).isImport)
    fun line hl ↦ (inRest line hl).isImport

/-- Without the imports there are empty lines where the block was. -/
theorem exists_bodyLines_written : ∃ gap, gap.all isBlank = true ∧
    ['\n'].intercalate (bodyLines (written imports head rest)) =
      head ++ '\n' :: (gap ++ dropLineEnd rest) := by
  have emptyLine : ∀ line ∈ splitChars '\n' [], BodyLine line := by simpa using bodyLine_nil
  have tail : ['\n'].intercalate (bodyLines (if rest = [] then [] else endLine rest)) =
      dropLineEnd rest := by
    split
    next nil => rw [nil]; rfl
    next nonempty =>
      rw [endLine_eq, bodyLines_lines (forall_mem_dropLineEnd inRest)]
      exact (congrArg _ (List.append_nil _)).trans (Text.intercalate_splitChars _)
  have gaps :
      ∃ n, [[]] ++ (if imports = [] then [] else [[]]) = List.replicate n ([] : List Char) := by
    split
    · exact ⟨1, rfl⟩
    · exact ⟨2, rfl⟩
  obtain ⟨n, hn⟩ := gaps
  obtain ⟨gap, blank, e⟩ := exists_intercalate_replicate n
    (bodyLines (if rest = [] then [] else endLine rest))
  refine ⟨gap, blank, ?_⟩
  rw [written_eq, bodyLines_lines inHead, bodyLines_lines emptyLine, bodyLines_block stated,
    Text.intercalate_append (Text.splitChars_ne_nil _ _) (by simp), Text.intercalate_splitChars,
    Text.splitChars_nil, ← List.append_assoc, hn, e, tail]

end written

/-! ## Lines of the shortened body -/

/-- No import has the simple name of a word that an import statement starts with. -/
theorem keyword_of_unused {imports : List ImportLine}
    (unused : ∀ i ∈ imports, i.isWildcard = false →
      i.reference ≠ "import" ∧ i.reference ≠ "static") {word : String}
    (isWord : word = "import" ∨ word = "static") : Keyword imports word := by
  rcases isWord with rfl | rfl
  · exact ⟨by decide, by decide, by decide, fun i hi single ↦ (unused i hi single).1⟩
  · exact ⟨by decide, by decide, by decide, fun i hi single ↦ (unused i hi single).2⟩

section shortened

variable {imports : List ImportLine} {package : Option String}
  (named : ∀ i ∈ imports, i.isWildcard = false → i.EndsWithName)
  (dotted : package.all (isDottedName ·.toList) = true)

include named dotted

/-- Shortening works line by line. -/
theorem shortenNames_bodyOf (text : String) : shortenNames imports package (bodyOf text).toList =
    ['\n'].intercalate ((bodyLines text.toList).map (shortenNames imports package)) := by
  rw [toList_bodyOf, shortenNames_intercalate named dotted]

theorem splitChars_shortened {text : String} (nonempty : bodyLines text.toList ≠ []) :
    splitChars '\n' (shortenNames imports package (bodyOf text).toList) =
      (bodyLines text.toList).map (shortenNames imports package) := by
  rw [shortenNames_bodyOf named dotted, Text.splitChars_intercalate (by simpa using nonempty)]
  refine List.forall_mem_map.2 fun line hl hm ↦ ?_
  obtain ⟨as, bs, e⟩ := List.append_of_mem hm
  obtain ⟨as, bs, rfl, -, -⟩ := exists_of_shortenNames_eq_append named dotted (by decide) e
  refine Text.lineFeed_notMem_of_mem_charLines (List.mem_filter.1 hl).1 ?_
  simp

/-- A line of the shortened body is the shortened form of a line of the body. -/
theorem mem_splitChars_shortened (text : String) {line : List Char}
    (h : line ∈ splitChars '\n' (shortenNames imports package (bodyOf text).toList)) :
    line = [] ∨ ∃ long ∈ bodyLines text.toList, shortenNames imports package long = line := by
  by_cases nil : bodyLines text.toList = []
  · rw [toList_bodyOf, nil] at h
    exact .inl (by simpa using h)
  · rw [splitChars_shortened named dotted nil] at h
    exact .inr (List.mem_map.1 h)

/-- No line becomes an import. -/
theorem isImport_of_mem_shortened (unused : ∀ i ∈ imports, i.isWildcard = false →
      i.reference ≠ "import" ∧ i.reference ≠ "static") (text : String) : ∀ line ∈ splitChars '\n'
    (shortenNames imports package (bodyOf text).toList), isImport line = false := by
  intro line hl
  rcases mem_splitChars_shortened named dotted text hl with rfl | ⟨long, hlong, rfl⟩
  · exact bodyLine_nil.isImport
  · rw [← Bool.not_eq_true]
    intro short
    have some := isSome_parse?_of_shortenNames named dotted (keyword_of_unused unused (.inl rfl))
      (keyword_of_unused unused (.inr rfl)) short
    exact absurd some (by simpa using (List.mem_filter.1 hlong).2)

end shortened

/-- No line that states no import ends with a carriage return or becomes an import, the body does
not end with an empty line, and shortened names are not shortened once more. -/
structure Settled (generated common : String) (package : Option String) : Prop where
  dotted : package.all (isDottedName ·.toList) = true
  stable : Stable (union (importsOf generated) (importsOf common)) package
  unused : ∀ i ∈ union (importsOf generated) (importsOf common), i.isWildcard = false →
    i.reference ≠ "import" ∧ i.reference ≠ "static"
  noReturn : ∀ line ∈ charLines generated.toList, ImportLine.parse? (String.ofList line) = none →
    line.getLast? ≠ some '\r'
  noGap : ¬ ['\n', '\n'] <:+ (bodyOf generated).toList

/-- Blanks in front of a line do not make it an import. -/
theorem isImport_dropBlanks (line : List Char) : isImport (dropBlanks line) = isImport line :=
  isSome_parse?_dropBlanks line

theorem bodyLine_dropBlanks {line : List Char} (h : BodyLine line) :
    BodyLine (dropBlanks line) where
  plain := by
    rw [← Option.not_isSome_iff_eq_none, Bool.not_eq_true]
    exact (isImport_dropBlanks line).trans h.isImport
  noReturn last := by
    obtain ⟨gap, e, -⟩ := Text.exists_dropBlanks line
    refine h.noReturn ?_
    rw [e, List.getLast?_append, last]
    rfl

/-- What holds of lines and does not depend on the blanks in front of them holds of the lines of the
text without the blanks in front. -/
theorem forall_mem_dropBlanks {p : List Char → Prop} (nil : p [])
    (dropped : ∀ line, p line → p (dropBlanks line)) {cs : List Char}
    (h : ∀ line ∈ splitChars '\n' cs, p line) :
    ∀ line ∈ splitChars '\n' (dropBlanks cs), p line := by
  intro line hl
  by_cases none : dropBlanks cs = []
  · rw [none, Text.splitChars_nil, List.mem_singleton] at hl
    exact hl ▸ nil
  · have lines := Text.dropBlankLines_splitChars cs
    rw [if_neg none] at lines
    obtain ⟨whole, hw, rfl | rfl⟩ := Text.mem_dropBlankLines (lines ▸ hl)
    · exact h _ hw
    · exact dropped _ (h _ hw)

theorem bodyLine_of_mem_dropBlanks {cs : List Char}
    (h : ∀ line ∈ splitChars '\n' cs, BodyLine line) :
    ∀ line ∈ splitChars '\n' (dropBlanks cs), BodyLine line :=
  forall_mem_dropBlanks bodyLine_nil (fun _ ↦ bodyLine_dropBlanks) h

/-- The lines on both sides of the package line are lines of the body. -/
theorem forall_mem_parts {p : List Char → Prop} (nil : p []) {head rest : List Char}
    (hrest : AtLineEnd rest) (h : ∀ line ∈ splitChars '\n' (head ++ rest), p line) :
    (∀ line ∈ splitChars '\n' head, p line) ∧ ∀ line ∈ splitChars '\n' rest, p line := by
  rcases exists_line_end hrest with rfl | ⟨behind, rfl⟩
  · exact ⟨by simpa using h, by simpa using nil⟩
  · rw [Text.splitChars_append] at h
    refine ⟨fun line hl ↦ h line (List.mem_append_left _ hl), fun line hl ↦ ?_⟩
    rw [Text.splitChars_cons, if_pos rfl] at hl
    rcases List.mem_cons.1 hl with rfl | hl
    · exact nil
    · exact h line (List.mem_append_right _ hl)

theorem bodyLine_of_mem_parts {head rest : List Char} (hrest : AtLineEnd rest)
    (h : ∀ line ∈ splitChars '\n' (head ++ rest), BodyLine line) :
    (∀ line ∈ splitChars '\n' head, BodyLine line) ∧ ∀ line ∈ splitChars '\n' rest, BodyLine line :=
  forall_mem_parts bodyLine_nil hrest h

/-- No path lies on both sides of the package line. -/
theorem runs_parts {head rest : List Char} (hrest : AtLineEnd rest) :
    Text.runs isPathChar (head ++ rest) = Text.runs isPathChar head ++
      Text.runs isPathChar rest := by
  rcases exists_line_end hrest with rfl | ⟨behind, rfl⟩
  · simp
  · rw [Text.runs_append_sep (by decide), Text.runs_sep (by decide)]

theorem runs_dropBlanks (cs : List Char) :
    Text.runs isPathChar (dropBlanks cs) = Text.runs isPathChar cs := by
  obtain ⟨gap, e, blank⟩ := Text.exists_dropBlanks cs
  conv_rhs => rw [e, runs_gap blank]

section settled

variable {generated common : String} {package : Option String}
  (settled : Settled generated common package)

include settled

/-- Under these conditions, every line of the shortened body is one of a body. -/
theorem Settled.bodyLine_of_mem : ∀ line ∈ splitChars '\n' (shortenNames
    (union (importsOf generated) (importsOf common)) package (bodyOf generated).toList),
    BodyLine line := by
  have named := endsWithName_of_mem_union generated common
  have plain := isImport_of_mem_shortened named settled.dotted settled.unused generated
  intro line hl
  refine ⟨by simpa [isImport] using plain line hl, fun last ↦ ?_⟩
  rcases mem_splitChars_shortened named settled.dotted generated hl with rfl | ⟨long, hlong, rfl⟩
  · simp at last
  · obtain ⟨mem, noImport⟩ := List.mem_filter.1 hlong
    obtain ⟨front, e⟩ := List.getLast?_eq_some_iff.1 last
    obtain ⟨as, bs, rfl, -, hb⟩ :=
      exists_of_shortenNames_eq_append named settled.dotted (by decide : isPathChar '\r' = false) e
    obtain rfl := shortenNames_eq_nil named settled.dotted hb
    exact settled.noReturn _ mem (Option.isNone_iff_eq_none.1 noImport) List.getLast?_concat

/-- Shortening makes no empty line at the end of the body. -/
theorem Settled.noGap_shortened : ¬ ['\n', '\n'] <:+ shortenNames
    (union (importsOf generated) (importsOf common)) package (bodyOf generated).toList := by
  have named := endsWithName_of_mem_union generated common
  rintro ⟨front, e⟩
  obtain ⟨as, bs, body, -, hb⟩ :=
    exists_of_shortenNames_eq_append named settled.dotted (by decide) e.symm
  obtain ⟨bs', rfl, hb'⟩ := exists_of_shortenNames_eq_gap named settled.dotted
    (by decide : ['\n'].all isBlank = true) (hb.trans (List.append_nil ['\n']).symm)
  obtain rfl := shortenNames_eq_nil named settled.dotted hb'
  exact settled.noGap ⟨as, body.symm⟩

/-- Repairing a repaired file changes nothing. -/
theorem repair_repair {fixed : String} (h : repair generated common package = some fixed) :
    repair fixed common package = some fixed := by
  have named := endsWithName_of_mem_union generated common
  have stated := isStated_of_mem_union generated common
  have lines := settled.bodyLine_of_mem
  have noGap := settled.noGap_shortened
  obtain ⟨head, rest, split, rfl⟩ := repair_eq_some.1 h
  obtain ⟨whole, atEnd, -⟩ := splitAtPackage_eq_some split
  rw [whole] at lines noGap
  obtain ⟨inHead, inRest⟩ := bodyLine_of_mem_parts atEnd lines
  have inRest := bodyLine_of_mem_dropBlanks inRest
  have again :
      importsOf (String.ofList (written (union (importsOf generated) (importsOf common)) head
        (dropBlanks rest))) = union (importsOf generated) (importsOf common) := by
    rw [importsOf_eq, String.toList_ofList, importsIn_written stated inHead inRest]
  obtain ⟨gap, blank, body⟩ := exists_bodyLines_written stated inHead inRest
  -- A run of the text without the block is a run of the shortened body, and those are short.
  have short : shortenNames (union (importsOf generated) (importsOf common)) package
      (head ++ '\n' :: (gap ++ dropLineEnd (dropBlanks rest))) =
        head ++ '\n' :: (gap ++ dropLineEnd (dropBlanks rest)) := by
    have kept :
        ∀ run ∈ Text.runs isPathChar (head ++ '\n' :: (gap ++ dropLineEnd (dropBlanks rest))),
          run ∈ Text.runs isPathChar
            (shortenNames (union (importsOf generated) (importsOf common)) package
            (bodyOf generated).toList) := by
      intro run hrun
      rw [whole, runs_parts atEnd]
      rwa [Text.runs_append_sep (by decide), runs_gap blank, runs_dropLineEnd,
        runs_dropBlanks] at hrun
    exact shortenNames_of_runs named settled.dotted settled.stable kept
  refine repair_eq_some.2 ⟨head, '\n' :: (gap ++ dropLineEnd (dropBlanks rest)), ?_, ?_⟩
  · rw [again, union_union, toList_bodyOf, String.toList_ofList, body, short]
    rw [whole] at split
    exact splitAtPackage_append split (by simp [AtLineEnd])
  · have solid : (dropBlanks rest).head?.any isBlank = false := Text.head?_dropBlanks rest
    have gone : dropBlanks ('\n' :: (gap ++ dropLineEnd (dropBlanks rest))) =
        dropLineEnd (dropBlanks rest) := by
      rw [← List.cons_append, Text.dropBlanks_append (by simpa [isBlank] using blank),
        dropBlanks_dropLineEnd solid]
    rw [again, union_union, gone, written_dropLineEnd solid]
    rintro ⟨front, e⟩
    obtain ⟨gap', e', -⟩ := Text.exists_dropBlanks rest
    refine noGap ⟨head ++ gap' ++ front, ?_⟩
    rw [e', ← e]
    simp

end settled

/-- A text with an import and a name to be shortened, for which the conditions hold. -/
theorem repair_repair_imported :
    let fixed := "package a;\n\nimport b.B;\n\nclass C extends B \x7b\n\x7d\n"
    repair "package a;\nimport b.B;\n\n\nclass C extends b.B \x7b\n\x7d\n" ""
      (some "a") = some fixed ∧
      repair fixed "" (some "a") = some fixed := by
  have settled :
      Settled "package a;\nimport b.B;\n\n\nclass C extends b.B \x7b\n\x7d\n" "" (some "a") :=
    ⟨by decide +kernel, ⟨by decide +kernel, by decide +kernel, by decide +kernel⟩,
      by decide +kernel,
      by decide +kernel, by decide +kernel⟩
  have once : repair "package a;\nimport b.B;\n\n\nclass C extends b.B \x7b\n\x7d\n" "" (some "a") =
      some "package a;\n\nimport b.B;\n\nclass C extends B \x7b\n\x7d\n" := by decide +kernel
  exact ⟨once, repair_repair settled once⟩

/-- Each repair takes away one of the empty lines at the end of a file. -/
theorem exists_repair_ne : ¬∀ generated common package fixed,
    repair generated common package = some fixed → repair fixed common package = some fixed := by
  intro h
  have again := h "package a;\n\nclass C \x7b\n\x7d\n\n\n" ""
    (some "a") "package a;\n\nclass C \x7b\n\x7d\n\n"
    (by decide +kernel)
  exact absurd again (by decide +kernel)

end Imports

end PlatformOverlay
