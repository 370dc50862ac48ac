import PlatformOverlay.Proofs.Imports.Body
import PlatformOverlay.Proofs.Java.Places

/-!
# Lines of literals

The body of a text leaves out the lines that state an import, and what belongs to line ends only.
Read from line feed to line feed (`bodyFrom`), it does so in each literal of the text as if that
were a text of its own (`literalsFrom_bodyText`).

The body is defined by lines and literals by characters. `bodyFrom` is the body once more, by
characters: a line starts behind each line feed, and in front of a line with an import the line feed
goes as well (`bodyFrom_eq`). A text block may have lines that look like imports; they are left out
of it as they would be of a text. What must not happen is that a literal begins or ends on such a
line (`InertImports`).
-/

namespace PlatformOverlay.Imports

open Java.Lexer
open Text (charLines dropBlanks dropBlanksEnd dropReturn isBlank splitChars)

/-! ## Import lines -/

/-- The characters up to the end of the line. -/
def lineOf (cs : List Char) : List Char := cs.takeWhile (· != '\n')

/-- A line that begins with a quote states no import. -/
theorem isImport_quote (q : Quote) (cs : List Char) : isImport (q.char :: cs) = false := by
  rw [← Bool.not_eq_true]
  intro h
  obtain ⟨gap, written, behind, states, -⟩ := isImport_iff.1 h
  have solid : dropBlanks (q.char :: cs) = q.char :: cs :=
    Text.dropBlanks_eq_self (show isBlank q.char = false by cases q <;> decide)
  have head := congrArg List.head? (solid.symm.trans states.eq)
  cases q <;> cases head

/-! ## The body from line feed to line feed -/

/-- The text without import lines and without what belongs to line ends only, where a line starts
behind each line feed. -/
def bodyFrom : List Char → List Char
  | [] => []
  | '\r' :: '\n' :: cs => bodyFrom ('\n' :: cs)
  | '\n' :: cs =>
    if cs = [] ∨ isImport (lineOf cs) = true then bodyFrom (cs.dropWhile (· != '\n'))
    else '\n' :: bodyFrom cs
  | c :: cs => c :: bodyFrom cs
termination_by cs => cs.length
decreasing_by
  · simp
  · have := (List.dropWhile_suffix (l := cs) (· != '\n')).length_le
    simp
    omega
  · simp
  · simp

/-- The characters of the body. -/
def bodyText (cs : List Char) : List Char := (bodyOf (String.ofList cs)).toList

theorem bodyText_eq (cs : List Char) : bodyText cs = ['\n'].intercalate (bodyLines cs) := by
  rw [bodyText, toList_bodyOf, String.toList_ofList]

/-- In front of a line that states no import, the line feed is kept. -/
theorem bodyFrom_lineFeed {cs : List Char} (h : ¬ (cs = [] ∨ isImport (lineOf cs) = true)) :
    bodyFrom ('\n' :: cs) = '\n' :: bodyFrom cs := by
  rw [bodyFrom, if_neg h]

/-- A line that states an import is left out with the line feed in front of it. -/
theorem bodyFrom_import {cs : List Char} (h : cs = [] ∨ isImport (lineOf cs) = true) :
    bodyFrom ('\n' :: cs) = bodyFrom (cs.dropWhile (· != '\n')) := by
  rw [bodyFrom, if_pos h]

/-- All other characters are kept, except the carriage return of a line end. -/
theorem bodyFrom_cons {c : Char} {cs : List Char} (lineFeed : c ≠ '\n')
    (lineEnd : c = '\r' → cs.head? ≠ some '\n') : bodyFrom (c :: cs) = c :: bodyFrom cs := by
  rw [bodyFrom]
  · rintro ds cr rfl
    exact lineEnd cr rfl
  · exact lineFeed

theorem dropReturn_cons {c : Char} {line : List Char} (h : c = '\r' → line ≠ []) :
    dropReturn (c :: line) = c :: dropReturn line := by
  cases line with
  | nil => exact Text.dropReturn_eq_self fun last ↦ h (Option.some.inj last) rfl
  | cons d line =>
    rw [dropReturn, dropReturn, List.getLast?_cons_cons]
    split <;> rfl

/-- A line, up to the next line feed. -/
theorem bodyFrom_line {line : List Char} (oneLine : '\n' ∉ line) (cs : List Char) :
    bodyFrom (line ++ '\n' :: cs) = dropReturn line ++ bodyFrom ('\n' :: cs) := by
  induction line with
  | nil => rfl
  | cons c line ih =>
    rw [List.mem_cons, not_or] at oneLine
    by_cases ending : c = '\r' ∧ line = []
    · obtain ⟨rfl, rfl⟩ := ending
      rw [List.singleton_append, bodyFrom]
      rfl
    · have going : c = '\r' → line ≠ [] := fun cr nil ↦ ending ⟨cr, nil⟩
      rw [dropReturn_cons going, List.cons_append, bodyFrom_cons (Ne.symm oneLine.1), ih oneLine.2]
      · rfl
      · intro cr head
        obtain ⟨d, line, rfl⟩ := List.exists_cons_of_ne_nil (going cr)
        exact oneLine.2 (Option.some.inj head ▸ List.mem_cons_self)

/-- The last line of a text is kept as it is. -/
theorem bodyFrom_lastLine {line : List Char} (oneLine : '\n' ∉ line) : bodyFrom line = line := by
  induction line with
  | nil => rw [bodyFrom]
  | cons c line ih =>
    rw [List.mem_cons, not_or] at oneLine
    rw [bodyFrom_cons (Ne.symm oneLine.1), ih oneLine.2]
    exact fun _ head ↦ oneLine.2 (List.mem_of_mem_head? head)

theorem lineOf_append {line rest : List Char} (oneLine : '\n' ∉ line) (ends : AtLineEnd rest) :
    lineOf (line ++ rest) = line := (Text.takeWhile_sep oneLine ends).1

theorem bodyLines_eq (cs : List Char) : bodyLines cs = (charLines cs).filter (!isImport ·) :=
  List.filter_congr fun line _ ↦ by rw [isImport, Option.not_isSome]

/-- The body lines of a text from its first line and what follows it. -/
theorem bodyLines_cons {line : List Char} (oneLine : '\n' ∉ line) (cs : List Char) :
    bodyLines (line ++ '\n' :: cs) =
      (if isImport line = true then [] else [dropReturn line]) ++ bodyLines cs := by
  rw [bodyLines_eq, bodyLines_eq, Text.charLines_append, Text.splitChars_of_notMem oneLine,
    List.map_singleton, List.singleton_append, List.filter_cons, isImport_dropReturn]
  cases isImport line <;> rfl

/-- A last line that is empty counts for none. -/
theorem bodyLines_lastLine {line : List Char} (oneLine : '\n' ∉ line) :
    bodyLines line = if line = [] ∨ isImport line = true then [] else [line] := by
  rw [bodyLines_eq, charLines, Text.splitChars_of_notMem oneLine, Text.linesOfPieces]
  cases line with
  | nil => rfl
  | cons c line =>
    rw [List.isEmpty_cons, if_neg (by simp), List.filter_singleton]
    cases isImport (c :: line) <;> simp

/-- The lines of the body with a line feed in front of each. -/
theorem bodyFrom_eq (cs : List Char) :
    bodyFrom ('\n' :: cs) = (bodyLines cs).flatMap ('\n' :: ·) := by
  induction n : cs.length using Nat.strongRecOn generalizing cs with
  | ind n ih =>
  obtain ⟨line, rest, rfl, oneLine, ends⟩ := exists_line cs
  have first := lineOf_append oneLine ends
  have behind : (line ++ rest).dropWhile (· != '\n') = rest := (Text.takeWhile_sep oneLine ends).2
  obtain rfl | ⟨more, rfl⟩ := exists_line_end ends
  · rw [List.append_nil] at first behind ⊢
    rw [bodyLines_lastLine oneLine]
    by_cases dropped : line = [] ∨ isImport line = true
    · rw [bodyFrom_import (first.symm ▸ dropped), behind, if_pos dropped, bodyFrom]
      rfl
    · rw [bodyFrom_lineFeed (first.symm ▸ dropped), if_neg dropped, bodyFrom_lastLine oneLine]
      simp
  · have next := ih more.length (by simp [← n]; omega) more rfl
    rw [bodyLines_cons oneLine]
    by_cases dropped : isImport line = true
    · rw [bodyFrom_import (.inr (first.symm ▸ dropped)), behind, if_pos dropped, next,
        List.nil_append]
    · rw [bodyFrom_lineFeed, bodyFrom_line oneLine, if_neg dropped, next]
      · rfl
      · rintro (nil | isImport)
        · simp at nil
        · exact dropped (first ▸ isImport)

theorem flatMap_lineFeed {lines : List (List Char)} (h : lines ≠ []) :
    lines.flatMap ('\n' :: ·) = '\n' :: ['\n'].intercalate lines := by
  induction lines with
  | nil => exact absurd rfl h
  | cons line lines ih =>
    by_cases nil : lines = []
    · rw [nil]
      simp
    · rw [List.flatMap_cons, ih nil, List.intercalate_cons_of_ne_nil nil]
      simp

/-- A text that begins with a quote has no import on its first line. -/
theorem bodyText_quote (q : Quote) (cs : List Char) :
    bodyText (q.char :: cs) = q.char :: bodyFrom cs := by
  have lineFeed : q.char ≠ '\n' := q.ne_of_ne (by decide)
  have first : lineOf (q.char :: cs) = q.char :: lineOf cs :=
    List.takeWhile_cons_of_pos (bne_iff_ne.2 lineFeed)
  have kept : ¬ (q.char :: cs = [] ∨ isImport (lineOf (q.char :: cs)) = true) := by
    rw [first, isImport_quote]
    simp
  have lines := bodyFrom_eq (q.char :: cs)
  rw [bodyFrom_lineFeed kept,
    bodyFrom_cons lineFeed fun cr ↦ absurd cr (q.ne_of_ne (by decide))] at lines
  have nonempty : bodyLines (q.char :: cs) ≠ [] := fun nil ↦ by
    rw [nil] at lines
    cases lines
  rw [flatMap_lineFeed nonempty] at lines
  rw [bodyText_eq, (List.cons.inj lines).2]

/-! ## Bodies without dots -/

/-- An import names a package, so a line without a dot states none. -/
theorem isImport_undotted {line : List Char} (dot : '.' ∉ line) : isImport line = false := by
  rw [← Bool.not_eq_true]
  intro h
  obtain ⟨gap, written, behind, states, hq⟩ := isImport_iff.1 h
  have undotted : '.' ∉ written := fun hm ↦ dot <| by
    obtain ⟨front, e, -⟩ := Text.exists_dropBlanks line
    rw [e, states.eq]
    simp [hm]
  have none : qualifiedName? (splitStatic written).2 = none := by
    rw [qualifiedName?, Text.splitChars_of_notMem (notMem_splitStatic undotted)]
    rfl
  rw [none] at hq
  cases hq

theorem isImport_lineOf_undotted {cs : List Char} (dot : '.' ∉ cs) :
    isImport (lineOf cs) = false :=
  isImport_undotted fun hm ↦ dot ((List.takeWhile_prefix _).subset hm)

theorem bodyFrom_undotted {cs : List Char} (dot : '.' ∉ cs) (cr : '\r' ∉ cs)
    (last : cs.getLast? ≠ some '\n') : bodyFrom cs = cs := by
  induction cs with
  | nil => rw [bodyFrom]
  | cons c cs ih =>
    rw [List.mem_cons, not_or] at dot cr
    have next : bodyFrom cs = cs := by
      refine ih dot.2 cr.2 fun hlast ↦ last ?_
      rw [List.getLast?_cons, hlast]
      rfl
    by_cases lineFeed : c = '\n'
    · subst lineFeed
      rw [bodyFrom_lineFeed, next]
      rintro (rfl | isImport)
      · exact last rfl
      · rw [isImport_lineOf_undotted dot.2] at isImport
        cases isImport
    · rw [bodyFrom_cons lineFeed fun h ↦ absurd h.symm cr.1, next]

/-- A text with neither a dot nor line ends to be changed is its own body. -/
theorem bodyText_undotted {cs : List Char} (dot : '.' ∉ cs) (cr : '\r' ∉ cs)
    (last : cs.getLast? ≠ some '\n') : bodyText cs = cs := by
  cases cs with
  | nil => decide
  | cons c cs =>
    have lines := bodyFrom_eq (c :: cs)
    rw [bodyFrom_undotted (by simpa using dot) (by simpa using cr) (by simpa using last)] at lines
    have nonempty : bodyLines (c :: cs) ≠ [] := fun nil ↦ by
      rw [nil] at lines
      cases lines
    rw [flatMap_lineFeed nonempty] at lines
    rw [bodyText_eq, ← (List.cons.inj lines).2]

/-! ## Bodies of literals -/

/-- Nothing begins or ends on a line that states an import. -/
def InertImports (text : List Char) : Prop := ∀ cs, '\n' :: cs <:+ text →
  isImport (lineOf cs) = true → (lineOf cs).all isInert = true

/-- The property passes on to what is left of a text. -/
theorem InertImports.suffix {text cs : List Char} (h : InertImports text) (suffix : cs <:+ text) :
    InertImports cs := fun ds hds ↦ h ds (hds.trans suffix)

/-- What is left of a literal in front of a line end goes on with the line end. -/
theorem exists_lineFeed {literal more : List Char} (quote : EndsWithQuote literal)
    (ends : AtLineEnd (literal ++ more)) : ∃ rest, literal = '\n' :: rest := by
  obtain ⟨c, rest, rfl⟩ := List.exists_cons_of_ne_nil quote.ne_nil
  obtain rfl := ends c rfl
  exact ⟨rest, rfl⟩

/-- An import at the front of a part of the text states an import in the text. -/
theorem isImport_lineOf_append {cs : List Char} (h : isImport (lineOf cs) = true)
    (more : List Char) :
    isImport (lineOf (cs ++ more)) = true := by
  obtain ⟨line, rest, rfl, oneLine, ends⟩ := exists_line cs
  rw [lineOf_append oneLine ends] at h
  rw [List.append_assoc]
  obtain rfl | ⟨behind, rfl⟩ := exists_line_end ends
  · obtain ⟨line', rest, rfl, oneLine', ends'⟩ := exists_line more
    rw [List.nil_append, ← List.append_assoc, lineOf_append (by simp [oneLine, oneLine']) ends']
    exact isImport_append h oneLine'
  · rwa [lineOf_append oneLine (by simp [AtLineEnd])]

/-- The bodies of the literals are the literals of the body. -/
theorem literalsFrom_bodyFrom {p : Java.Lexer.Place} {cs : List Char} {l : List (List Char)}
    (inert : InertImports cs) (read : literalsFrom p cs = some l) :
    literalsFrom p (bodyFrom cs) = some (p.edit bodyFrom bodyText l) := by
  have nil : bodyFrom [] = [] := by rw [bodyFrom]
  fun_induction bodyFrom cs generalizing p l with
  | case1 => rw [read, edit_atEnd nil read]
  | case2 cs ih =>
    refine literalsFrom_omit (omits_return p cs) read
      (fun l' hl' ↦ ih (inert.suffix (List.suffix_cons _ _)) hl') fun literal more quote split ↦ ?_
    have ends : AtLineEnd (literal ++ more) := by rw [← split]; simp [AtLineEnd]
    obtain ⟨literal, rfl⟩ := exists_lineFeed quote ends
    rw [List.singleton_append, bodyFrom]
  -- A line is dropped with the line feed in front of it. If a literal ends behind this line, then
  -- the line is part of the literal and is dropped from it in the same way.
  | case3 cs dropped ih =>
    obtain ⟨line, rest, rfl, oneLine, ends⟩ := exists_line cs
    have first := lineOf_append oneLine ends
    have behind : (line ++ rest).dropWhile (· != '\n') = rest := (Text.takeWhile_sep oneLine ends).2
    rw [first] at dropped
    rw [behind] at ih ⊢
    have inertLine : line.all isInert = true := by
      obtain nil | isImport := dropped
      · rw [(List.append_eq_nil_iff.1 nil).1]
        rfl
      · exact first ▸ inert _ (List.suffix_refl _) (first.symm ▸ isImport)
    refine literalsFrom_omit (omits_line inertLine (exists_line_end ends) p) read
      (fun l' hl' ↦ ih (inert.suffix ?_) hl') fun literal more quote split ↦ ?_
    · exact (List.suffix_append line rest).trans (List.suffix_cons _ _)
    · subst split
      obtain ⟨literal, rfl⟩ := exists_lineFeed quote ends
      have ends' : AtLineEnd ('\n' :: literal) := by simp [AtLineEnd]
      have isImport : isImport line = true := dropped.resolve_left (by simp)
      rw [List.cons_append, bodyFrom_import (.inr (by rwa [lineOf_append oneLine ends'])),
        (Text.takeWhile_sep oneLine ends').2]
  | case4 cs kept ih =>
    refine literalsFrom_keep ⟨nil, nil⟩ read
      (fun next l' hl' ↦ ih (inert.suffix (List.suffix_cons _ _)) hl') ?_ ?_
    · rintro literal more ⟨front, q, whole⟩ rfl
      refine bodyFrom_lineFeed fun dropped ↦ kept ?_
      obtain rfl | isImport := dropped
      · have last : ['\n'] = [q.char] := (List.append_inj' ((List.nil_append _).trans whole) rfl).2
        exact absurd (List.singleton_inj.1 last).symm (q.ne_of_ne (by decide))
      · exact .inr (isImport_lineOf_append isImport more)
    · rintro literal more - - ⟨q, hq⟩
      exact absurd hq.symm (q.ne_of_ne (by decide))
  | case5 c cs lineEnd lineFeed ih =>
    refine literalsFrom_keep ⟨nil, nil⟩ read
      (fun next l' hl' ↦ ih (inert.suffix (List.suffix_cons _ _)) hl') ?_ ?_
    · rintro literal more - rfl
      refine bodyFrom_cons lineFeed fun cr head ↦ ?_
      obtain ⟨rest, rfl⟩ := List.head?_eq_some_iff.1 head
      exact lineEnd _ cr rfl
    · rintro literal more - - ⟨q, rfl⟩
      exact bodyText_quote q literal

/-- The body of a text has the literals of the text with their import lines and line ends left
out as from texts of their own. -/
theorem literalsFrom_bodyText {cs : List Char} {l : List (List Char)}
    (inert : InertImports ('\n' :: cs)) (read : literalsFrom .code cs = some l) :
    literalsFrom .code (bodyText cs) = some (l.map bodyText) := by
  have begun : literalsFrom .code ('\n' :: cs) = some l := by
    rwa [literalsFrom_code_cons (by decide)]
  have body := literalsFrom_bodyFrom inert begun
  rw [bodyFrom_eq, edit_outside rfl] at body
  rw [bodyText_eq]
  by_cases nil : bodyLines cs = []
  · rw [nil] at body ⊢
    exact body
  · rwa [flatMap_lineFeed nil, literalsFrom_code_cons (by decide)] at body

end PlatformOverlay.Imports
