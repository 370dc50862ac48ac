import PlatformOverlay.Proofs.Imports.Runs
import PlatformOverlay.Proofs.Text.Blank
import PlatformOverlay.Proofs.Text.Lines

/-!
# What a line states

An import is read from what is `written` between the word and the first semicolon
(`parse?_eq_some`), so blanks around the line do not matter and the statement of an import is read
as that import again (`parse?_statement`).  The path of an import that is no wildcard is dotted and
ends with the simple name (`exists_outer_of_parse?`).

`States` has the parts of a line that states an import: blanks, the word, what is written up to the
semicolon, and what stands behind it. Lines are taken apart by it and put together again.
-/

namespace PlatformOverlay.Imports

open Text (dropBlanks dropBlanksEnd isBlank)

/-! ## Dotted names -/

/-- Names with dots between them. -/
def isDottedName (cs : List Char) : Bool := (Text.splitChars '.' cs).all isName

theorem isNameChar_of_mem {piece : List Char} (h : isName piece = true) {c : Char}
    (hc : c ∈ piece) :
    isNameChar c = true := by
  rw [isName, Bool.and_eq_true] at h
  exact List.all_eq_true.1 h.2 c hc

theorem isBlank_of_isNameChar {c : Char} (h : isNameChar c = true) : isBlank c = false :=
  isBlank_of_isPathChar (by rw [isPathChar, h, Bool.true_or])

theorem isNameChar_of_isBlank {c : Char} (h : isBlank c = true) : isNameChar c = false :=
  Bool.eq_false_iff.2 fun name ↦ by simp [isBlank_of_isNameChar name] at h

theorem notMem_of_isName {piece : List Char} (h : isName piece = true) {c : Char}
    (hc : isNameChar c = false) : c ∉ piece :=
  fun hm ↦ absurd ((isNameChar_of_mem h hm).symm.trans hc) (by simp)

theorem notMem_of_blank {gap : List Char} (h : gap.all isBlank = true) {c : Char}
    (hc : isBlank c = false) : c ∉ gap :=
  fun hm ↦ absurd ((List.all_eq_true.1 h c hm).symm.trans hc) (by simp)

theorem dot_notMem_of_isName {piece : List Char} (h : isName piece = true) : '.' ∉ piece :=
  notMem_of_isName h (by decide)

/-- A name starts with one of its characters. -/
theorem exists_cons_of_isName {piece : List Char} (h : isName piece = true) :
    ∃ c rest, piece = c :: rest ∧ isNameChar c = true := by
  cases piece with
  | nil => cases h
  | cons c rest => exact ⟨c, rest, rfl, isNameChar_of_mem h List.mem_cons_self⟩

theorem isDottedName_intercalate {pieces : List (List Char)} (nonempty : pieces ≠ [])
    (h : pieces.all isName = true) : isDottedName (['.'].intercalate pieces) = true := by
  rwa [isDottedName, Text.splitChars_intercalate nonempty fun piece hp ↦
    dot_notMem_of_isName (List.all_eq_true.1 h piece hp)]

theorem isPathChar_of_isDottedName {cs : List Char} (h : isDottedName cs = true) :
    cs.all isPathChar = true := by
  rw [List.all_eq_true]
  intro c hc
  by_cases dot : c = '.'
  · simp [dot, isPathChar]
  · obtain ⟨piece, hp, hcp⟩ := Text.exists_mem_splitChars.2 ⟨hc, dot⟩
    simp [isPathChar, isNameChar_of_mem (List.all_eq_true.1 h piece hp) hcp]

theorem exists_cons_of_isDottedName {cs : List Char} (h : isDottedName cs = true) :
    ∃ c rest, cs = c :: rest ∧ isNameChar c = true := by
  cases cs with
  | nil => cases h
  | cons c cs =>
    refine ⟨c, cs, rfl, ?_⟩
    obtain ⟨first, more, e⟩ := List.exists_cons_of_ne_nil (Text.splitChars_ne_nil '.' cs)
    rw [isDottedName, Text.splitChars_cons, e] at h
    split at h
    · cases h
    · rw [Text.extendFirst, List.all_cons, Bool.and_eq_true] at h
      exact isNameChar_of_mem h.1 List.mem_cons_self

/-! ## Words and blanks -/

/-- A keyword is found with blanks behind it, all of which are taken. -/
theorem afterWord?_eq_some {word : String} {cs rest : List Char} :
    afterWord? word cs = some rest ↔ ∃ gap, cs = word.toList ++ gap ++ rest ∧ gap ≠ [] ∧
      gap.all isBlank = true ∧ rest.head?.any isBlank = false := by
  have length : word.length = word.toList.length := String.length_toList.symm
  rw [afterWord?, length]
  constructor
  · intro h
    split at h
    next found =>
      rw [Bool.and_eq_true, List.isPrefixOf_iff_prefix] at found
      obtain ⟨⟨behind, rfl⟩, blank⟩ := found
      rw [List.drop_left] at h blank
      obtain rfl := Option.some.inj h
      obtain ⟨gap, e, hgap⟩ := Text.exists_dropBlanks behind
      refine ⟨gap, by rw [List.append_assoc, ← e], ?_, hgap, Text.head?_dropBlanks behind⟩
      rintro rfl
      rw [List.nil_append] at e
      rw [e, Text.head?_dropBlanks] at blank
      cases blank
    · cases h
  · rintro ⟨gap, rfl, nonempty, hgap, hrest⟩
    obtain ⟨b, bs, rfl⟩ := List.exists_cons_of_ne_nil nonempty
    have blank : isBlank b = true := List.all_eq_true.1 hgap b List.mem_cons_self
    rw [List.append_assoc, List.drop_left, if_pos, Text.dropBlanks_append hgap,
      Text.dropBlanks_eq_self hrest]
    simp [blank]

/-- A semicolon is neither in the word nor a blank. -/
theorem afterWord?_append {word : String} (h : ';' ∉ word.toList) (written behind : List Char) :
    afterWord? word (written ++ ';' :: behind) =
      (afterWord? word written).map (· ++ ';' :: behind) := by
  refine Option.ext fun rest ↦ ?_
  rw [Option.map_eq_some_iff]
  simp only [afterWord?_eq_some]
  constructor
  · rintro ⟨gap, e, nonempty, hgap, hrest⟩
    rcases List.append_eq_append_iff.1 e with ⟨a, he, ha⟩ | ⟨c, hw, rfl⟩
    · cases a with
      | nil =>
        refine ⟨[], ⟨gap, by simpa using he.symm, nonempty, hgap, rfl⟩, by simpa using ha⟩
      | cons d a =>
        rw [List.cons_append, List.cons.injEq] at ha
        have mem : ';' ∈ word.toList ++ gap := by rw [he, ← ha.1]; simp
        rcases List.mem_append.1 mem with hm | hm
        · exact absurd hm h
        · exact absurd (List.all_eq_true.1 hgap _ hm) (by decide)
    · refine ⟨c, ⟨gap, hw, nonempty, hgap, ?_⟩, rfl⟩
      cases c with
      | nil => rfl
      | cons d c => simpa using hrest
  · rintro ⟨rest, ⟨gap, rfl, nonempty, hgap, hrest⟩, rfl⟩
    refine ⟨gap, by simp, nonempty, hgap, ?_⟩
    cases rest with
    | nil => exact (by decide : isBlank ';' = false)
    | cons d rest => simpa using hrest

/-- What follows the semicolon plays no part in taking off the modifier. -/
theorem splitStatic_append (written behind : List Char) :
    splitStatic (written ++ ';' :: behind) =
      ((splitStatic written).1, (splitStatic written).2 ++ ';' :: behind) := by
  rw [splitStatic, splitStatic, afterWord?_append (by decide)]
  cases afterWord? "static" written with
  | none => rfl
  | some rest =>
    have head : (rest ++ ';' :: behind).head?.any isNameChar = rest.head?.any isNameChar := by
      cases rest with
      | nil => exact (by decide : isNameChar ';' = false)
      | cons d rest => rfl
    simp only [Option.map_some, head]
    split <;> rfl

theorem notMem_splitStatic {c : Char} {written : List Char} (h : c ∉ written) :
    c ∉ (splitStatic written).2 := by
  rw [splitStatic]
  cases hw : afterWord? "static" written with
  | none => exact h
  | some rest =>
    obtain ⟨gap, rfl, -⟩ := afterWord?_eq_some.1 hw
    dsimp only
    split
    · exact fun hm ↦ h (List.mem_append_right _ hm)
    · exact h

/-! ## Import lines -/

/-- A text without blanks in front that is the word `import`, blanks, something that is `written`
without blanks in front, and a semicolon with the rest of the line `behind` it. -/
structure States (cs gap written behind : List Char) : Prop where
  eq : cs = "import".toList ++ gap ++ (written ++ ';' :: behind)
  gap_ne_nil : gap ≠ []
  gap_blank : gap.all isBlank = true
  written_head : written.head?.any isBlank = false
  semicolon : ';' ∉ written
  lineFeed : '\n' ∉ behind

/-- The statement ends at its first semicolon. -/
theorem takeWhile_semicolon {written behind : List Char} (h : ';' ∉ written) :
    (written ++ ';' :: behind).takeWhile (· != ';') = written ∧
      (written ++ ';' :: behind).dropWhile (· != ';') = ';' :: behind :=
  Text.takeWhile_sep h (by simp)

/-- The line pattern as a description of the line: the keyword, blanks, a modifier perhaps, a
qualified name and a semicolon, with anything behind it. -/
theorem parse?_eq_some {line : String} {i : ImportLine} :
    ImportLine.parse? line = some i ↔ ∃ gap written behind,
      States (dropBlanks line.toList) gap written behind ∧
      ∃ path reference, qualifiedName? (splitStatic written).2 = some (path, reference) ∧
        i = ⟨Text.trim line, path, reference, (splitStatic written).1⟩ := by
  constructor
  · intro h
    simp only [ImportLine.parse?, Option.bind_eq_bind, Option.bind_eq_some_iff] at h
    obtain ⟨rest, hrest, h⟩ := h
    obtain ⟨gap, eq, gap_ne_nil, gap_blank, rest_head⟩ := afterWord?_eq_some.1 hrest
    by_cases semicolon : ';' ∈ rest
    · obtain ⟨written, behind, rfl, first⟩ := List.eq_append_cons_of_mem semicolon
      have hname := notMem_splitStatic first
      simp only [splitStatic_append, (takeWhile_semicolon hname).1,
        (takeWhile_semicolon hname).2] at h
      split at h
      · cases h
      next lineFeed =>
        simp only [Option.bind_eq_some_iff] at h
        obtain ⟨⟨path, reference⟩, hq, hi⟩ := h
        refine ⟨gap, written, behind,
          ⟨eq, gap_ne_nil, gap_blank, ?_, first, by simpa using lineFeed⟩,
          path, reference, hq, (Option.some.inj hi).symm⟩
        cases written with
        | nil => rfl
        | cons d written => simpa using rest_head
    · have none := @List.dropWhile_append_of_pos _ (· != ';') _ []
        fun c hc ↦ bne_iff_ne.2 (ne_of_mem_of_not_mem hc (notMem_splitStatic semicolon))
      rw [List.append_nil, List.dropWhile_nil] at none
      rw [none] at h
      cases h
  · rintro ⟨gap, written, behind, h, path, reference, hq, rfl⟩
    have hname := notMem_splitStatic h.semicolon
    have start :
        afterWord? "import" (dropBlanks line.toList) = some (written ++ ';' :: behind) := by
      refine afterWord?_eq_some.2 ⟨gap, h.eq, h.gap_ne_nil, h.gap_blank, ?_⟩
      cases written with
      | nil => exact (by decide : isBlank ';' = false)
      | cons d rest => simpa using h.written_head
    simp only [ImportLine.parse?, start, splitStatic_append, Option.bind_eq_bind, Option.bind_some,
      (takeWhile_semicolon hname).1, (takeWhile_semicolon hname).2, hq]
    simp [h.lineFeed]

/-- Blanks at the end of a line do not change what it states. -/
theorem States.dropBlanksEnd {cs gap written behind : List Char}
    (h : States cs gap written behind) :
    States (dropBlanksEnd cs) gap written (dropBlanksEnd behind) where
  eq := by
    rw [h.eq, ← List.append_assoc, Text.dropBlanksEnd_append_cons (by decide), List.append_assoc]
  gap_ne_nil := h.gap_ne_nil
  gap_blank := h.gap_blank
  written_head := h.written_head
  semicolon := h.semicolon
  lineFeed hm := by
    obtain ⟨rest, e, -⟩ := Text.exists_dropBlanksEnd behind
    exact h.lineFeed (e ▸ List.mem_append_left _ hm)

/-- The statement of an import states that import. -/
theorem parse?_statement {line : String} {i : ImportLine} (h : ImportLine.parse? line = some i) :
    ImportLine.parse? i.statement = some i := by
  obtain ⟨gap, written, behind, states, path, reference, hq, rfl⟩ := parse?_eq_some.1 h
  have trimmed : (Text.trim line).toList = dropBlanksEnd (dropBlanks line.toList) := by
    rw [Text.trim, String.toList_ofList]
  have start : dropBlanks (Text.trim line).toList = (Text.trim line).toList := by
    rw [trimmed, states.dropBlanksEnd.eq]
    exact Text.dropBlanks_eq_self rfl
  have again : Text.trim (Text.trim line) = Text.trim line := by
    rw [Text.trim, start, Text.dropBlanksEnd_eq_self, String.ofList_toList]
    rw [trimmed]
    exact Text.getLast?_dropBlanksEnd _
  refine parse?_eq_some.2 ⟨gap, written, dropBlanksEnd behind, ?_, path, reference, hq,
    by rw [again]⟩
  rw [start, trimmed]
  exact states.dropBlanksEnd

/-- Does the line state an import? -/
def isImport (line : List Char) : Bool := (ImportLine.parse? (String.ofList line)).isSome

theorem States.append {cs gap written behind more : List Char} (h : States cs gap written behind)
    (oneLine : '\n' ∉ more) : States (cs ++ more) gap written (behind ++ more) where
  eq := by rw [h.eq]; simp
  gap_ne_nil := h.gap_ne_nil
  gap_blank := h.gap_blank
  written_head := h.written_head
  semicolon := h.semicolon
  lineFeed hm := by
    rcases List.mem_append.1 hm with hm | hm
    · exact h.lineFeed hm
    · exact oneLine hm

/-- Whether a line states an import, in terms of the description. -/
theorem isImport_iff {line : List Char} : isImport line = true ↔ ∃ gap written behind,
    States (dropBlanks line) gap written behind ∧
      (qualifiedName? (splitStatic written).2).isSome = true := by
  rw [isImport, Option.isSome_iff_exists]
  simp only [parse?_eq_some, String.toList_ofList]
  constructor
  · rintro ⟨i, gap, written, behind, states, path, reference, hq, rfl⟩
    exact ⟨gap, written, behind, states, by rw [hq]; rfl⟩
  · rintro ⟨gap, written, behind, states, hq⟩
    obtain ⟨⟨path, reference⟩, hq⟩ := Option.isSome_iff_exists.1 hq
    exact ⟨_, gap, written, behind, states, path, reference, hq, rfl⟩

/-- What is added behind an import statement belongs to it. -/
theorem isImport_append {line more : List Char} (h : isImport line = true) (oneLine : '\n' ∉ more) :
    isImport (line ++ more) = true := by
  obtain ⟨gap, written, behind, states, hq⟩ := isImport_iff.1 h
  have solid : dropBlanks (line ++ more) = dropBlanks line ++ more :=
    Text.dropBlanks_append_of_ne_nil (by rw [states.eq]; simp) more
  exact isImport_iff.2 ⟨gap, written, behind ++ more, solid ▸ states.append oneLine, hq⟩

/-- A carriage return at the end of a line makes no difference. -/
theorem isImport_dropReturn (line : List Char) :
    isImport (Text.dropReturn line) = isImport line := by
  rw [Text.dropReturn]
  split
  next last =>
    obtain ⟨front, rfl⟩ := List.getLast?_eq_some_iff.1 last
    rw [List.dropLast_concat, Bool.eq_iff_iff]
    refine ⟨fun h ↦ isImport_append h (by decide), fun h ↦ ?_⟩
    obtain ⟨gap, written, behind, states, hq⟩ := isImport_iff.1 h
    by_cases nil : dropBlanks front = []
    · have blanks : dropBlanks (front ++ ['\r']) = [] := by
        have none : (front.dropWhile isBlank).isEmpty = true := List.isEmpty_iff.2 nil
        rw [dropBlanks, List.dropWhile_append, none]
        rfl
      exact absurd (blanks.symm.trans states.eq) (by simp)
    have eq := (Text.dropBlanks_append_of_ne_nil nil _).symm.trans states.eq
    obtain rfl | ⟨before, c, rfl⟩ := List.eq_nil_or_concat behind
    · rw [← List.append_assoc] at eq
      exact absurd (List.append_inj' eq rfl).2 (by decide)
    · have eq : dropBlanks front ++ ['\r'] =
          "import".toList ++ gap ++ (written ++ ';' :: before) ++ [c] := by simpa using eq
      exact isImport_iff.2 ⟨gap, written, before, { states with
        eq := (List.append_inj' eq rfl).1
        lineFeed := fun hm ↦ states.lineFeed (by simp [hm]) }, hq⟩
  next => rfl

/-- Whether a line states an import does not depend on the blanks in front. -/
theorem isSome_parse?_dropBlanks (cs : List Char) :
    (ImportLine.parse? (String.ofList (dropBlanks cs))).isSome =
      (ImportLine.parse? (String.ofList cs)).isSome := by
  rw [Bool.eq_iff_iff]
  simp only [Option.isSome_iff_exists, parse?_eq_some, String.toList_ofList,
    Text.dropBlanks_dropBlanks]
  constructor
  · rintro ⟨i, gap, written, behind, states, path, reference, hq, rfl⟩
    exact ⟨_, gap, written, behind, states, path, reference, hq, rfl⟩
  · rintro ⟨i, gap, written, behind, states, path, reference, hq, rfl⟩
    exact ⟨_, gap, written, behind, states, path, reference, hq, rfl⟩

/-! ## Paths -/

theorem toList_intercalate_dot (pieces : List (List Char)) :
    (String.intercalate "." (pieces.map String.ofList)).toList = ['.'].intercalate pieces := by
  rw [String.toList_intercalate, List.map_map]
  congr
  simp [Function.comp_def]

/-- Names, and a name or a star behind them. -/
theorem qualifiedName?_eq_some {cs : List Char} {path reference : String}
    (h : qualifiedName? cs = some (path, reference)) : ∃ outer : List Char,
      isDottedName outer = true ∧ ((reference = "*" ∧ path.toList = outer) ∨
        (isName reference.toList = true ∧ path.toList = outer ++ '.' :: reference.toList)) := by
  unfold qualifiedName? at h
  dsimp only at h
  split at h
  · cases h
  next named =>
    simp only [Bool.or_eq_true, List.isEmpty_iff, Bool.not_eq_true', not_or,
      Bool.not_eq_false] at named
    refine ⟨_, isDottedName_intercalate named.1 named.2, ?_⟩
    split at h
    · cases h
      exact .inl ⟨rfl, toList_intercalate_dot _⟩
    · split at h
      next isLast =>
        cases h
        refine .inr ⟨by simpa using isLast, ?_⟩
        rw [String.toList_append, String.toList_append, toList_intercalate_dot,
          String.toList_ofList]
        simp
      · cases h

/-- The path of an import that is no wildcard ends with the simple name. -/
theorem exists_outer_of_parse? {line : String} {i : ImportLine}
    (h : ImportLine.parse? line = some i) (single : i.isWildcard = false) :
    ∃ outer, isDottedName outer = true ∧ isName i.reference.toList = true ∧
      i.path.toList = outer ++ '.' :: i.reference.toList := by
  obtain ⟨gap, written, behind, -, path, reference, hq, rfl⟩ := parse?_eq_some.1 h
  obtain ⟨outer, houter, ⟨rfl, -⟩ | ⟨hname, e⟩⟩ := qualifiedName?_eq_some hq
  · cases single
  · exact ⟨outer, houter, hname, e⟩

end PlatformOverlay.Imports
