import PlatformOverlay.Text.Blank
import PlatformOverlay.Text.Lines
import Mathlib.Data.List.Basic

/-!
# Pieces and lines of a text

Splitting at a character is the splitting of lists (`splitChars_eq_splitOn`), so joining with
the character undoes it.  The lines of a text that goes on behind a line feed are those in front,
without a carriage return at their ends, and those behind (`linesOfPieces_append`).
-/

namespace PlatformOverlay.Text

variable {sep : Char}

theorem extendFirst_eq_modifyHead (c : Char) {pieces : List (List Char)} (h : pieces ≠ []) :
    extendFirst c pieces = pieces.modifyHead (c :: ·) := by
  cases pieces with
  | nil => exact absurd rfl h
  | cons piece pieces => rfl

/-- Cutting at a separator is `List.splitOn`, so its library lemmas carry over. -/
theorem splitChars_eq_splitOn (cs : List Char) : splitChars sep cs = cs.splitOn sep := by
  induction cs with
  | nil => simp
  | cons c cs ih =>
    rw [splitChars_cons, List.splitOn_cons_eq_if_modifyHead, ← ih,
      extendFirst_eq_modifyHead c (splitChars_ne_nil sep cs)]
    simp

/-- A text with a separator in it is cut into the pieces in front of it and the pieces behind
it. -/
theorem splitChars_append (xs ys : List Char) :
    splitChars sep (xs ++ sep :: ys) = splitChars sep xs ++ splitChars sep ys := by
  simp only [splitChars_eq_splitOn, List.splitOn_append_cons_self]

/-- A text without the separator is one piece. -/
theorem splitChars_of_notMem {cs : List Char} (h : sep ∉ cs) : splitChars sep cs = [cs] := by
  rw [splitChars_eq_splitOn, List.splitOn_eq_singleton h]

/-- Pieces that do not have the separator come back when their join is cut. -/
theorem splitChars_intercalate {pieces : List (List Char)} (nonempty : pieces ≠ [])
    (h : ∀ piece ∈ pieces, sep ∉ piece) : splitChars sep ([sep].intercalate pieces) = pieces := by
  rw [splitChars_eq_splitOn, List.splitOn_intercalate sep h nonempty]

theorem intercalate_append {xs ys : List (List Char)} (hx : xs ≠ []) (hy : ys ≠ []) :
    [sep].intercalate (xs ++ ys) = [sep].intercalate xs ++ sep :: [sep].intercalate ys := by
  induction xs with
  | nil => exact absurd rfl hx
  | cons x xs ih =>
    cases xs with
    | nil => simp [List.intercalate_cons_of_ne_nil hy]
    | cons x' xs =>
      rw [List.cons_append, List.intercalate_cons_of_ne_nil (by simp), ih (by simp),
        List.intercalate_cons_cons]
      simp

/-- Cutting loses nothing: the pieces joined again are the text. -/
theorem intercalate_splitChars (cs : List Char) : [sep].intercalate (splitChars sep cs) = cs := by
  rw [splitChars_eq_splitOn, List.intercalate_splitOn]

/-- The pieces hold the characters of the text other than those it is split at. -/
theorem exists_mem_splitChars {cs : List Char} {c : Char} :
    (∃ piece ∈ splitChars sep cs, c ∈ piece) ↔ c ∈ cs ∧ c ≠ sep := by
  induction cs with
  | nil => simp
  | cons d cs ih =>
    obtain ⟨first, rest, e⟩ := List.exists_cons_of_ne_nil (splitChars_ne_nil sep cs)
    rw [e] at ih
    rw [splitChars_cons, e]
    split
    next same =>
      rw [List.exists_mem_cons_iff, ih, List.mem_cons]
      subst same
      constructor
      · rintro (h | h)
        · simp at h
        · exact ⟨.inr h.1, h.2⟩
      · rintro ⟨rfl | h, hc⟩
        · exact absurd rfl hc
        · exact .inr ⟨h, hc⟩
    next differs =>
      rw [List.exists_mem_cons_iff] at ih
      rw [extendFirst, List.exists_mem_cons_iff, List.mem_cons, or_assoc, ih, List.mem_cons]
      constructor
      · rintro (rfl | h)
        · exact ⟨.inl rfl, differs⟩
        · exact ⟨.inr h.1, h.2⟩
      · rintro ⟨rfl | h, hc⟩
        · exact .inl rfl
        · exact .inr ⟨h, hc⟩

theorem notMem_of_mem_splitChars {cs piece : List Char} (h : piece ∈ splitChars sep cs) :
    sep ∉ piece := fun hs ↦ (exists_mem_splitChars.1 ⟨piece, h, hs⟩).2 rfl

/-- What stands in front of the first separator, and the rest from there on. -/
theorem takeWhile_sep {cs rest : List Char} (h : sep ∉ cs) (hrest : ∀ c ∈ rest.head?, c = sep) :
    (cs ++ rest).takeWhile (· != sep) = cs ∧ (cs ++ rest).dropWhile (· != sep) = rest := by
  have before : ∀ c ∈ cs, (c != sep) = true := fun c hc ↦ bne_iff_ne.2 (ne_of_mem_of_not_mem hc h)
  rw [List.takeWhile_append_of_pos before, List.dropWhile_append_of_pos before]
  cases rest with
  | nil => simp
  | cons c rest =>
    obtain rfl := hrest c rfl
    simp

/-! ## Lines -/

/-- Only the last piece is read in a way of its own, so all pieces in front of others are lines. -/
theorem linesOfPieces_append (pieces : List (List Char)) {more : List (List Char)}
    (nonempty : more ≠ []) :
    linesOfPieces (pieces ++ more) = pieces.map dropReturn ++ linesOfPieces more := by
  induction pieces with
  | nil => rfl
  | cons piece pieces ih =>
    obtain ⟨next, rest, e⟩ := List.exists_cons_of_ne_nil
      (List.append_ne_nil_of_right_ne_nil pieces nonempty)
    rw [List.cons_append, e, linesOfPieces, ← e, ih]
    · rfl
    · simp

theorem dropReturn_eq_self {line : List Char} (h : line.getLast? ≠ some '\r') :
    dropReturn line = line := if_neg h

/-- The lines of a text as lists of characters. -/
def charLines (cs : List Char) : List (List Char) := linesOfPieces (splitChars '\n' cs)

/-- Lines of a string are the lines of its characters. -/
theorem lines_eq (text : String) : lines text = (charLines text.toList).map String.ofList := rfl

@[simp] theorem charLines_nil : charLines [] = [] := rfl

/-- The lines of a text around one of its line feeds: those in front of it and those behind it. -/
theorem charLines_append (xs ys : List Char) :
    charLines (xs ++ '\n' :: ys) = (splitChars '\n' xs).map dropReturn ++ charLines ys := by
  rw [charLines, splitChars_append, linesOfPieces_append _ (splitChars_ne_nil _ _), charLines]

/-- A line is a piece, without its carriage return or, at the end of the text, with it. -/
theorem mem_linesOfPieces {pieces : List (List Char)} {line : List Char}
    (h : line ∈ linesOfPieces pieces) :
    ∃ piece ∈ pieces, line = piece ∨ line = dropReturn piece := by
  induction pieces with
  | nil => simp [linesOfPieces] at h
  | cons piece pieces ih =>
    cases pieces with
    | nil =>
      rw [linesOfPieces] at h
      split at h
      · simp at h
      · exact ⟨piece, List.mem_cons_self, .inl (List.mem_singleton.1 h)⟩
    | cons next pieces =>
      rw [linesOfPieces] at h
      · rcases List.mem_cons.1 h with rfl | h
        · exact ⟨piece, List.mem_cons_self, .inr rfl⟩
        · obtain ⟨other, ho, e⟩ := ih h
          exact ⟨other, List.mem_cons_of_mem _ ho, e⟩
      · simp

theorem mem_of_mem_dropReturn {line : List Char} {c : Char} (h : c ∈ dropReturn line) :
    c ∈ line := by
  rw [dropReturn] at h
  split at h
  · exact (List.dropLast_sublist line).subset h
  · exact h

theorem lineFeed_notMem_of_mem_charLines {cs line : List Char} (h : line ∈ charLines cs) :
    '\n' ∉ line := by
  obtain ⟨piece, hp, rfl | rfl⟩ := mem_linesOfPieces h
  · exact notMem_of_mem_splitChars hp
  · exact fun hm ↦ notMem_of_mem_splitChars hp (mem_of_mem_dropReturn hm)

/-- The lines without the blank ones in front and without the blanks in front of the next. -/
def dropBlankLines (lines : List (List Char)) : List (List Char) :=
  (lines.dropWhile (·.all isBlank)).modifyHead dropBlanks

/-- A blank in front of the first line is dropped in any case, whether or not the line is blank. -/
theorem dropBlankLines_cons {c : Char} (blank : isBlank c = true) (line : List Char)
    (lines : List (List Char)) :
    dropBlankLines ((c :: line) :: lines) = dropBlankLines (line :: lines) := by
  rw [dropBlankLines, dropBlankLines, List.dropWhile_cons, List.dropWhile_cons,
    List.all_cons, blank,
    Bool.true_and]
  split
  · rfl
  · rw [List.modifyHead_cons, List.modifyHead_cons, dropBlanks, List.dropWhile_cons_of_pos blank]
    rfl

/-- Dropping the blanks in front of a text drops the blank lines in front of it. -/
theorem dropBlankLines_splitChars (cs : List Char) : dropBlankLines (splitChars '\n' cs) =
    if dropBlanks cs = [] then [] else splitChars '\n' (dropBlanks cs) := by
  induction cs with
  | nil => rfl
  | cons c cs ih =>
    obtain ⟨first, rest, e⟩ := List.exists_cons_of_ne_nil (splitChars_ne_nil '\n' cs)
    by_cases blank : isBlank c = true
    · rw [dropBlanks, List.dropWhile_cons_of_pos blank, ← dropBlanks, ← ih, splitChars_cons]
      split
      · rfl
      · rw [e]
        exact dropBlankLines_cons blank first rest
    · have other : c ≠ '\n' := by rintro rfl; exact blank (by decide)
      have solid : (c :: first).all isBlank = false := by
        rw [List.all_cons, Bool.eq_false_iff.2 blank]
        rfl
      rw [dropBlanks, List.dropWhile_cons_of_neg blank, if_neg (by simp),
        splitChars_cons, if_neg other,
        e, extendFirst, dropBlankLines, List.dropWhile_cons_of_neg (by simp [solid]),
        List.modifyHead_cons, dropBlanks, List.dropWhile_cons_of_neg blank]

/-- A line that is left is one of the lines, without the blanks in front of it or as it is. -/
theorem mem_dropBlankLines {lines : List (List Char)} {line : List Char}
    (h : line ∈ dropBlankLines lines) :
    ∃ whole ∈ lines, line = whole ∨ line = dropBlanks whole := by
  have suffix := List.dropWhile_suffix (l := lines) (·.all isBlank)
  rw [dropBlankLines] at h
  cases hd : lines.dropWhile (·.all isBlank) with
  | nil =>
    rw [hd] at h
    cases h
  | cons first rest =>
    rw [hd] at h suffix
    rcases List.mem_cons.1 h with rfl | h
    · exact ⟨first, suffix.subset List.mem_cons_self, .inr rfl⟩
    · exact ⟨line, suffix.subset (List.mem_cons_of_mem _ h), .inl rfl⟩

end PlatformOverlay.Text
