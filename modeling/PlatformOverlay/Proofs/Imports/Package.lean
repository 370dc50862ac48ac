import PlatformOverlay.Imports.Repair
import PlatformOverlay.Proofs.Text.Blank
import PlatformOverlay.Proofs.Text.Lines

/-!
# The line with the package declaration

A text is split at the end of a line (`splitAtPackage_eq_some`), behind the package declaration that
starts first (`firstPackage_of_splitAtPackage`), and it is split there again whatever lines come
behind (`splitAtPackage_append`).

`FirstPackage` says where this is without the search. A declaration need not be complete: a line
that starts with the word and a blank counts, and if the blank is the end of the line then the next
line belongs to it.
-/

namespace PlatformOverlay.Imports

open Text (isBlank)

/-- A text goes on with a new line or not at all. -/
def AtLineEnd (cs : List Char) : Prop := ∀ c ∈ cs.head?, c = '\n'

/-- What is left of a text at a line end is nothing or starts with a line feed. -/
theorem exists_line_end {rest : List Char} (h : AtLineEnd rest) :
    rest = [] ∨ ∃ behind, rest = '\n' :: behind := by
  cases rest with
  | nil => exact .inl rfl
  | cons c behind =>
    obtain rfl := h c rfl
    exact .inr ⟨behind, rfl⟩

theorem exists_line (cs : List Char) :
    ∃ line rest, cs = line ++ rest ∧ '\n' ∉ line ∧ AtLineEnd rest := by
  refine ⟨cs.takeWhile (· != '\n'), cs.dropWhile (· != '\n'), List.takeWhile_append_dropWhile.symm,
    fun hm ↦ by simpa using List.all_eq_true.1 List.all_takeWhile _ hm, fun c hc ↦ ?_⟩
  have := List.head?_dropWhile_not (· != '\n') cs
  rw [Option.mem_def.1 hc] at this
  simpa using this

/-- Blanks, the word `package`, another blank, and the line on which that or the next character
stands. -/
theorem packageLine?_eq_some {cs head rest : List Char} :
    packageLine? cs = some (head, rest) ↔ ∃ lead b line, head = lead ++
      "package".toList ++ b :: line ∧
      cs = head ++ rest ∧ lead.all isBlank = true ∧ isBlank b = true ∧ '\n' ∉ line ∧
      AtLineEnd rest := by
  constructor
  · intro h
    simp only [packageLine?] at h
    split at h
    next word =>
      obtain ⟨tail, ht⟩ := List.isPrefixOf_iff_prefix.1 word
      split at h
      next b behind hd =>
        split at h
        next blank =>
          cases h
          obtain ⟨line, rest, rfl, oneLine, ends⟩ := exists_line behind
          rw [(Text.takeWhile_sep oneLine ends).1, (Text.takeWhile_sep oneLine ends).2]
          refine ⟨cs.takeWhile isBlank, b, line, rfl, ?_, List.all_takeWhile, blank, oneLine, ends⟩
          have tail_eq : tail = b :: (line ++ rest) := by rw [← hd, ← ht, List.drop_left]
          calc
            cs = cs.takeWhile isBlank ++ cs.dropWhile isBlank :=
              List.takeWhile_append_dropWhile.symm
            _ = cs.takeWhile isBlank ++ ("package".toList ++ b :: (line ++ rest)) := by
              rw [← ht, tail_eq]
            _ = _ := by simp
        · cases h
      · cases h
    · cases h
  · rintro ⟨lead, b, line, rfl, rfl, hlead, blank, hline, hrest⟩
    have split : lead ++ "package".toList ++ b :: line ++ rest =
        lead ++ ("package".toList ++ b :: (line ++ rest)) := by simp
    have front := List.all_eq_true.1 hlead
    have lead_eq :
        (lead ++ ("package".toList ++ b :: (line ++ rest))).takeWhile isBlank = lead := by
      rw [List.takeWhile_append_of_pos front]
      simp [isBlank]
    have rest_eq : (lead ++ ("package".toList ++ b :: (line ++ rest))).dropWhile isBlank =
        "package".toList ++ b :: (line ++ rest) := by
      rw [List.dropWhile_append_of_pos front]
      simp [isBlank]
    have word : "package".toList.isPrefixOf ("package".toList ++ b :: (line ++ rest)) = true :=
      List.isPrefixOf_iff_prefix.2 (List.prefix_append _ _)
    rw [split, packageLine?, lead_eq, rest_eq]
    simp only [word, if_true, List.drop_left]
    simp only [blank, if_true, (Text.takeWhile_sep hline hrest).1,
      (Text.takeWhile_sep hline hrest).2]

/-- The search goes on by one character where no package line starts. -/
theorem splitAtPackage_cons (lineStart : Bool) (c : Char) (cs : List Char) :
    splitAtPackage lineStart (c :: cs) =
      match if lineStart then packageLine? (c :: cs) else none with
      | some split => some split
      | none => (splitAtPackage (c == '\n') cs).map fun (head, rest) ↦ (c :: head, rest) :=
  rfl

/-- The text in front of the split has a package declaration in it. -/
def HasPackage (cs : List Char) : Prop :=
  ∃ before b after, cs = before ++ ("package".toList ++ b :: after)

/-- The text is cut behind the line that is found. -/
theorem splitAtPackage_eq_some {lineStart : Bool} {cs head rest : List Char}
    (h : splitAtPackage lineStart cs = some (head, rest)) :
    cs = head ++ rest ∧ AtLineEnd rest ∧ HasPackage head := by
  induction cs generalizing lineStart head with
  | nil => cases h
  | cons c cs ih =>
    rw [splitAtPackage_cons] at h
    split at h
    next found =>
      cases h
      split at found
      · obtain ⟨lead, b, line, rfl, e, -, -, -, hrest⟩ := packageLine?_eq_some.1 found
        exact ⟨e, hrest, lead, b, line, by simp⟩
      · cases found
    · obtain ⟨⟨head, rest⟩, hs, e⟩ := Option.map_eq_some_iff.1 h
      cases e
      obtain ⟨rfl, hrest, before, b, after, rfl⟩ := ih hs
      exact ⟨rfl, hrest, c :: before, b, after, rfl⟩

/-- With the keyword and a blank in front of any text, a package line is found, even if no name
follows. -/
theorem exists_packageLine? (rest : List Char) {lead : List Char} {b : Char}
    (hlead : lead.all isBlank = true)
    (blank : isBlank b = true) :
    ∃ split, packageLine? (lead ++ "package".toList ++ b :: rest) = some split := by
  have hline : '\n' ∉ rest.takeWhile (· != '\n') := fun hm ↦ by
    simpa using List.all_eq_true.1 List.all_takeWhile _ hm
  refine ⟨_, packageLine?_eq_some.2 ⟨lead, b, rest.takeWhile (· != '\n'), rfl,
    (?_ : _ = _ ++ rest.dropWhile (· != '\n')), hlead, blank, hline, fun c hc ↦ ?_⟩⟩
  · rw [List.append_assoc _ (b :: _), List.cons_append, List.takeWhile_append_dropWhile]
  · have first := List.head?_dropWhile_not (· != '\n') rest
    rw [Option.mem_def.1 hc] at first
    simpa using first

/-- A package declaration that starts in front of another one ends in front of it. -/
theorem packageLine?_append_eq_none {text rest rest' : List Char} (h : HasPackage text)
    (missing : packageLine? (text ++ rest) = none) : packageLine? (text ++ rest') = none := by
  obtain ⟨before, b', after, rfl⟩ := h
  cases found : packageLine? (before ++ ("package".toList ++ b' :: after) ++ rest') with
  | none => rfl
  | some split =>
    obtain ⟨head, tail⟩ := split
    obtain ⟨lead, b, line, rfl, e, hlead, blank, -, -⟩ := packageLine?_eq_some.1 found
    have shorter : lead.length ≤ before.length := by
      refine Nat.le_of_not_lt fun longer ↦ ?_
      have inLead := congrArg (·[before.length]?) e
      simp only [List.append_assoc] at inLead
      rw [List.getElem?_append_right (Nat.le_refl _), List.getElem?_append_left longer] at inLead
      have p : 'p' ∈ lead := List.mem_of_getElem? (inLead.symm.trans (by simp))
      exact absurd (List.all_eq_true.1 hlead _ p) (by decide)
    have front :
        lead ++ "package".toList ++ [b] <+: before ++ ("package".toList ++ b' :: after) := by
      refine List.prefix_of_prefix_length_le ?_ (List.prefix_append _ rest') ?_
      · rw [e]
        exact ⟨line ++ tail, by simp⟩
      · simp only [List.length_append, List.length_cons, List.length_nil]
        omega
    obtain ⟨more, hmore⟩ := front
    obtain ⟨split, there⟩ := exists_packageLine? (more ++ rest) hlead blank
    rw [← hmore] at missing
    simp only [List.append_assoc, List.cons_append, List.nil_append] at missing there
    rw [missing] at there
    cases there

/-- What follows the line plays no part in finding it. -/
theorem splitAtPackage_append {lineStart : Bool} {head rest rest' : List Char}
    (h : splitAtPackage lineStart (head ++ rest) = some (head, rest)) (hrest' : AtLineEnd rest') :
    splitAtPackage lineStart (head ++ rest') = some (head, rest') := by
  have hasPackage := (splitAtPackage_eq_some h).2.2
  induction head generalizing lineStart with
  | nil =>
    obtain ⟨before, b, after, e⟩ := hasPackage
    simp at e
  | cons c head ih =>
    rw [List.cons_append, splitAtPackage_cons] at h ⊢
    cases found : (if lineStart then packageLine? (c :: (head ++ rest)) else none) with
    | some split =>
      rw [found] at h
      cases h
      split at found
      next start =>
        obtain ⟨lead, b, line, e, -, hlead, blank, hline, -⟩ := packageLine?_eq_some.1 found
        have again : packageLine? (c :: (head ++ rest')) = some (c :: head, rest') :=
          packageLine?_eq_some.2 ⟨lead, b, line, e, rfl, hlead, blank, hline, hrest'⟩
        rw [if_pos start, again]
      · cases found
    | none =>
      rw [found] at h
      obtain ⟨⟨head', tail⟩, hs, e⟩ := Option.map_eq_some_iff.1 h
      cases e
      have later := (splitAtPackage_eq_some hs).2.2
      have missing : (if lineStart then packageLine? (c :: (head ++ rest')) else none) = none := by
        split at found
        next start =>
          rw [if_pos start]
          exact packageLine?_append_eq_none hasPackage found
        next start => rw [if_neg start]
      rw [missing, ih hs later]
      rfl

/-! ## The first package declaration -/

/-- Does a line start behind the text?  `lineStart` says whether one starts where the text does. -/
def endsLine (lineStart : Bool) (before : List Char) : Bool :=
  (before.getLast?.map (· == '\n')).getD lineStart

theorem endsLine_cons (lineStart : Bool) (c : Char) (before : List Char) :
    endsLine lineStart (c :: before) = endsLine (c == '\n') before := by
  rw [endsLine, endsLine, List.getLast?_cons]
  cases before.getLast? <;> rfl

/-- A package declaration with the line that it is on: behind the text before it, which ends a line,
blanks, the word, another blank, and what is left of the line of the next character. -/
structure IsPackageLine (lineStart : Bool) (before found rest : List Char) : Prop where
  start : endsLine lineStart before = true
  spelled : ∃ lead b line, found = lead ++ "package".toList ++ b :: line ∧
    lead.all isBlank = true ∧ isBlank b = true ∧ '\n' ∉ line
  stop : AtLineEnd rest

/-- The description of a package line is what the search tests for at each place. -/
theorem isPackageLine_iff {lineStart : Bool} {before found rest : List Char} :
    IsPackageLine lineStart before found rest ↔
      endsLine lineStart before = true ∧ packageLine? (found ++ rest) = some (found, rest) := by
  constructor
  · rintro ⟨start, ⟨lead, b, line, e, hlead, blank, hline⟩, stop⟩
    exact ⟨start, packageLine?_eq_some.2 ⟨lead, b, line, e, rfl, hlead, blank, hline, stop⟩⟩
  · rintro ⟨start, found⟩
    obtain ⟨lead, b, line, e, -, hlead, blank, hline, stop⟩ := packageLine?_eq_some.1 found
    exact ⟨start, ⟨lead, b, line, e, hlead, blank, hline⟩, stop⟩

/-- The head of the text ends with a package declaration, and no other starts before that one. -/
def FirstPackage (lineStart : Bool) (head cs : List Char) : Prop :=
  ∃ before found rest, head = before ++ found ∧ cs = before ++ found ++ rest ∧
    IsPackageLine lineStart before found rest ∧
    ∀ before' found' rest', cs = before' ++ found' ++ rest' →
      IsPackageLine lineStart before' found' rest' → before.length ≤ before'.length

/-- The search finds the first package line of the text. -/
theorem firstPackage_of_splitAtPackage {lineStart : Bool} {cs head rest : List Char}
    (h : splitAtPackage lineStart cs = some (head, rest)) : FirstPackage lineStart head cs := by
  induction cs generalizing lineStart head with
  | nil => cases h
  | cons c cs ih =>
    rw [splitAtPackage_cons] at h
    split at h
    next here =>
      cases h
      split at here
      next start =>
        obtain ⟨-, -, -, -, e, -⟩ := packageLine?_eq_some.1 here
        refine ⟨[], head, rest, rfl, e, isPackageLine_iff.2 ⟨start, e ▸ here⟩,
          fun before' _ _ _ _ ↦ ?_⟩
        exact Nat.zero_le _
      · cases here
    next missing =>
      obtain ⟨⟨head, rest⟩, hs, e⟩ := Option.map_eq_some_iff.1 h
      cases e
      obtain ⟨before, found, rest, rfl, rfl, isFound, first⟩ := ih hs
      refine ⟨c :: before, found, rest, rfl, rfl, ⟨?_, isFound.spelled, isFound.stop⟩,
        fun before' found' rest' e h' ↦ ?_⟩
      · rw [endsLine_cons]
        exact isFound.start
      · cases before' with
        | nil =>
          obtain ⟨start, here⟩ := isPackageLine_iff.1 h'
          rw [show found' ++ rest' = c :: (before ++ found ++ rest) from e.symm] at here
          rw [if_pos (show lineStart = true from start), here] at missing
          cases missing
        | cons d before' =>
          obtain ⟨rfl, tail⟩ := List.cons.inj e
          refine Nat.succ_le_succ (first before' found' rest' tail ⟨?_, h'.spelled, h'.stop⟩)
          rw [← endsLine_cons lineStart]
          exact h'.start

end PlatformOverlay.Imports
