import PlatformOverlay.Text.Blank

/-!
# Dropping blanks

A text is the blanks in front and what is left without them, and likewise at its end.
-/

namespace PlatformOverlay.Text

theorem dropBlanks_append {gap : List Char} (h : gap.all isBlank = true) (cs : List Char) :
    dropBlanks (gap ++ cs) = dropBlanks cs :=
  List.dropWhile_append_of_pos (List.all_eq_true.1 h)

/-- Text that is not all blank keeps where its blank front ends when more follows. -/
theorem dropBlanks_append_of_ne_nil {cs : List Char} (h : dropBlanks cs ≠ []) (more : List Char) :
    dropBlanks (cs ++ more) = dropBlanks cs ++ more := by
  have some : (cs.dropWhile isBlank).isEmpty = false := List.isEmpty_eq_false_iff.2 h
  rw [dropBlanks, List.dropWhile_append, some]
  rfl

/-- A text that starts with no blank is left as it is. -/
theorem dropBlanks_eq_self {cs : List Char} (h : cs.head?.any isBlank = false) :
    dropBlanks cs = cs := by
  cases cs with
  | nil => rfl
  | cons c cs => exact List.dropWhile_cons_of_neg (by simpa using h)

/-- What is left starts with no blank: this is what makes the operation idempotent. -/
theorem head?_dropBlanks (cs : List Char) : (dropBlanks cs).head?.any isBlank = false := by
  have := List.head?_dropWhile_not isBlank cs
  cases hd : (dropBlanks cs).head? with
  | none => rfl
  | some d =>
    rw [dropBlanks] at hd
    rw [hd] at this
    simpa using this

/-- What is dropped is a blank front of the text, and all that is dropped. -/
theorem exists_dropBlanks (cs : List Char) :
    ∃ gap, cs = gap ++ dropBlanks cs ∧ gap.all isBlank = true :=
  ⟨cs.takeWhile isBlank, List.takeWhile_append_dropWhile.symm, List.all_takeWhile⟩

@[simp] theorem dropBlanks_dropBlanks (cs : List Char) :
    dropBlanks (dropBlanks cs) = dropBlanks cs :=
  dropBlanks_eq_self (head?_dropBlanks cs)

/-- Blanks added at the end are dropped again. -/
theorem dropBlanksEnd_append {gap : List Char} (h : gap.all isBlank = true) (cs : List Char) :
    dropBlanksEnd (cs ++ gap) = dropBlanksEnd cs := by
  have front := dropBlanks_append (show gap.reverse.all isBlank = true by simpa using h) cs.reverse
  rw [dropBlanks, dropBlanks] at front
  rw [dropBlanksEnd, List.reverse_append, front, dropBlanksEnd]

/-- What is dropped is a blank end of the text, and all that is dropped. -/
theorem exists_dropBlanksEnd (cs : List Char) :
    ∃ gap, cs = dropBlanksEnd cs ++ gap ∧ gap.all isBlank = true := by
  obtain ⟨gap, e, h⟩ := exists_dropBlanks cs.reverse
  refine ⟨gap.reverse, ?_, by simpa using h⟩
  rw [dropBlanksEnd, ← List.reverse_append]
  exact (List.reverse_eq_iff.1 e)

theorem getLast?_dropBlanksEnd (cs : List Char) :
    (dropBlanksEnd cs).getLast?.any isBlank = false := by
  rw [dropBlanksEnd, List.getLast?_reverse]
  exact head?_dropBlanks cs.reverse

theorem dropBlanksEnd_eq_self {cs : List Char} (h : cs.getLast?.any isBlank = false) :
    dropBlanksEnd cs = cs := by
  have front :=
    dropBlanks_eq_self (show cs.reverse.head?.any isBlank = false by rwa [List.head?_reverse])
  rw [dropBlanks] at front
  rw [dropBlanksEnd, front, List.reverse_reverse]

/-- What stands behind a character that is no blank is dropped on its own. -/
theorem dropBlanksEnd_append_cons {c : Char} (h : isBlank c = false) (xs ys : List Char) :
    dropBlanksEnd (xs ++ c :: ys) = xs ++ c :: dropBlanksEnd ys := by
  obtain ⟨gap, e, hgap⟩ := exists_dropBlanksEnd ys
  have whole : xs ++ c :: ys = (xs ++ c :: dropBlanksEnd ys) ++ gap := by
    rw [List.append_assoc, List.cons_append, ← e]
  rw [whole, dropBlanksEnd_append hgap, dropBlanksEnd_eq_self]
  have last := getLast?_dropBlanksEnd ys
  rw [List.getLast?_append, List.getLast?_cons, Option.some_or]
  cases hl : (dropBlanksEnd ys).getLast? with
  | none => simpa using h
  | some d => simpa [hl] using last

end PlatformOverlay.Text
