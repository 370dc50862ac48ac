import PlatformOverlay.Proofs.Imports.Qualified
import PlatformOverlay.Proofs.Imports.Stability

/-!
# Shortening states no import

A shortened line could become an import where it was none only if a name in it were shortened to one
of the words that an import statement starts with (`isSome_parse?_of_shortenNames`).  Every other
word is there before (`afterWord?_shortenNames`), and in an imported name there may be as well the
longer one (`complete_scan_of_shortenNames`).

The converse direction of shortening is taken here, from what stands in the shortened text to what
stood there before. It goes run by run: a run of path characters is what it was or has lost its
front, and what is between the runs is the same.
-/

namespace PlatformOverlay.Imports

open Text (isBlank dropBlanks)

variable {imports : List ImportLine} {package : Option String}
  (named : ∀ i ∈ imports, i.isWildcard = false → i.EndsWithName)
  (dotted : package.all (isDottedName ·.toList) = true)

/-! ## Texts that are shortened to a given text -/

section texts

include named dotted

theorem shortenNames_eq_nil {cs : List Char} (h : shortenNames imports package cs = []) :
    cs = [] := by
  cases cs using Text.runInduction isPathChar with
  | nil => rfl
  | sep c cs hc _ =>
    rw [shortenNames_sep named dotted hc] at h
    cases h
  | run run cs nonempty hrun hcs _ =>
    rw [shortenNames_run named dotted nonempty hrun hcs] at h
    exact absurd (List.append_eq_nil_iff.1 h).1
      ((shortened_shortenPath named dotted run).ne_nil nonempty)

/-- What is between runs was there before. -/
theorem exists_of_shortenNames_eq_append {c : Char} (hc : isPathChar c = false)
    {cs xs ys : List Char}
    (h : shortenNames imports package cs = xs ++ c :: ys) : ∃ as bs, cs = as ++ c :: bs ∧
      shortenNames imports package as = xs ∧ shortenNames imports package bs = ys := by
  induction cs using Text.runInduction isPathChar generalizing xs with
  | nil => simp at h
  | sep d cs hd ih =>
    rw [shortenNames_sep named dotted hd] at h
    cases xs with
    | nil =>
      obtain ⟨rfl, rfl⟩ := List.cons.inj h
      exact ⟨[], cs, rfl, by simp, rfl⟩
    | cons x xs =>
      obtain ⟨rfl, tail⟩ := List.cons.inj h
      obtain ⟨as, bs, rfl, rfl, hb⟩ := ih tail
      exact ⟨d :: as, bs, rfl, shortenNames_sep named dotted hd as, hb⟩
  | run run cs nonempty hrun hcs ih =>
    have short := (shortened_shortenPath named dotted run).isPathChar hrun
    rw [shortenNames_run named dotted nonempty hrun hcs] at h
    have behind : ∃ more, xs = shortenPath imports package run ++ more ∧
        shortenNames imports package cs = more ++ c :: ys := by
      rcases List.append_eq_append_iff.1 h with ⟨more, e, tail⟩ | ⟨more, e, tail⟩
      · exact ⟨more, e, tail⟩
      · cases more with
        | nil => exact ⟨[], by simpa using e.symm, by simpa using tail.symm⟩
        | cons d more =>
          obtain ⟨rfl, -⟩ := List.cons.inj tail
          rw [e, List.all_append, List.all_cons, hc] at short
          simp at short
    obtain ⟨more, rfl, tail⟩ := behind
    obtain ⟨as, bs, rfl, rfl, hb⟩ := ih tail
    refine ⟨run ++ as, bs, by simp, ?_, hb⟩
    rw [shortenNames_run named dotted nonempty hrun]
    cases as with
    | nil => rfl
    | cons d as => simpa using hcs

theorem mem_shortenNames_of_mem {c : Char} (hc : isPathChar c = false) {cs : List Char}
    (h : c ∈ cs) :
    c ∈ shortenNames imports package cs := by
  obtain ⟨as, bs, rfl⟩ := List.append_of_mem h
  rw [shortenNames_append named dotted hc]
  simp

theorem shortenNames_gap {gap : List Char} (hgap : gap.all isBlank = true) (cs : List Char) :
    shortenNames imports package (gap ++ cs) = gap ++ shortenNames imports package cs := by
  induction gap with
  | nil => rfl
  | cons c gap ih =>
    rw [List.all_cons, Bool.and_eq_true] at hgap
    rw [List.cons_append, shortenNames_sep named dotted (isPathChar_of_isBlank hgap.1), ih hgap.2,
      List.cons_append]

/-- Blanks in front of a shortened text were there before. -/
theorem exists_of_shortenNames_eq_gap {gap : List Char} (hgap : gap.all isBlank = true)
    {cs ys : List Char} (h : shortenNames imports package cs = gap ++ ys) :
    ∃ bs, cs = gap ++ bs ∧ shortenNames imports package bs = ys := by
  induction gap generalizing cs with
  | nil => exact ⟨cs, rfl, h⟩
  | cons c gap ih =>
    rw [List.all_cons, Bool.and_eq_true] at hgap
    have e : shortenNames imports package cs = [] ++ c :: (gap ++ ys) := h
    obtain ⟨as, bs, rfl, nil, hb⟩ :=
      exists_of_shortenNames_eq_append named dotted (isPathChar_of_isBlank hgap.1) e
    obtain rfl := shortenNames_eq_nil named dotted nil
    obtain ⟨bs', rfl, hb'⟩ := ih hgap.2 hb
    exact ⟨bs', rfl, hb'⟩

/-- A shortened text starts with a blank when the text does. -/
theorem head?_isBlank_shortenNames (cs : List Char) :
    (shortenNames imports package cs).head?.any isBlank = cs.head?.any isBlank := by
  refine head?_shortenNames named dotted (fun run short nonempty hrun h ↦ ?_) cs
  obtain ⟨c, rest, rfl⟩ := List.exists_cons_of_ne_nil nonempty
  obtain ⟨d, more, rfl⟩ := List.exists_cons_of_ne_nil (h.ne_nil nonempty)
  have hshort := h.isPathChar hrun
  rw [List.all_cons, Bool.and_eq_true] at hrun hshort
  simp [isBlank_of_isPathChar hrun.1, isBlank_of_isPathChar hshort.1]

/-- The shortened text starts with a character of a name when the text does: a shortened path
starts with its simple name. -/
theorem head?_isNameChar_shortenNames (cs : List Char) :
    (shortenNames imports package cs).head?.any isNameChar = cs.head?.any isNameChar := by
  refine head?_shortenNames named dotted (fun run short _ _ h ↦ ?_) cs
  rcases h with rfl | ⟨outer, houter, rfl, hs⟩
  · rfl
  · obtain ⟨c, rest, rfl, hc⟩ := exists_cons_of_isDottedName houter
    rw [hs]
    exact hc.symm

/-- Dropping blanks and shortening can be done in either order. -/
theorem dropBlanks_shortenNames (cs : List Char) :
    dropBlanks (shortenNames imports package cs) = shortenNames imports package
      (dropBlanks cs) := by
  obtain ⟨gap, e, hgap⟩ := Text.exists_dropBlanks cs
  have head := head?_isBlank_shortenNames named dotted (dropBlanks cs)
  rw [Text.head?_dropBlanks] at head
  conv_lhs => rw [e, shortenNames_gap named dotted hgap, Text.dropBlanks_append hgap]
  exact Text.dropBlanks_eq_self head

end texts

/-! ## Words -/

/-- A lower-case word that no import has for its simple name. -/
structure Keyword (imports : List ImportLine) (word : String) : Prop where
  isName : isName word.toList = true
  isWord : word.toList.all Text.isWordChar = true
  lower : word.toList.head?.any isUpper = false
  unused : ∀ i ∈ imports, i.isWildcard = false → i.reference ≠ word

theorem Keyword.all_isPathChar {word : String} (h : Keyword imports word) :
    word.toList.all isPathChar = true := by
  refine List.all_eq_true.2 fun c hc ↦ ?_
  rw [isPathChar, isNameChar_of_mem h.isName hc, Bool.true_or]

section words

include named dotted

theorem shortenPath_undotted {run : List Char} (h : '.' ∉ run) :
    shortenPath imports package run = run := by
  rcases shortened_shortenPath named dotted run with same | ⟨outer, -, e, -⟩
  · exact same
  · rw [e] at h
    simp at h

variable {word : String} (keyword : Keyword imports word)

include keyword

omit dotted in
/-- No path is shortened to a keyword: its simple name would be that of an import, or start with
an upper-case letter. -/
theorem eq_of_shortenPath_eq_word {run : List Char}
    (h : shortenPath imports package run = word.toList) : run = word.toList := by
  rw [shortenPath] at h
  rcases replaceFront_findImplicit ("java.lang" :: package.toList)
    (replaceFront (findImported (shortenable imports)) run) with ⟨-, same⟩ | ⟨p, -, c, rest,
      upper, -, short⟩
  · rw [same] at h
    rcases replaceFront_findImported named run with ⟨-, same⟩ |
      ⟨i, hi, single, starts, outer, rest, -, hname, e, rfl, short⟩
    · rw [← same, h]
    · rw [short] at h
      cases rest with
      | nil =>
        rw [List.append_nil] at h
        exact absurd (String.toList_inj.1 h) (keyword.unused i hi single)
      | cons c rest =>
        have word_char {d : Char} (hd : d ∈ word.toList) : Text.isWordChar d = true :=
          List.all_eq_true.1 keyword.isWord d hd
        obtain ⟨front, d, hd⟩ := (List.eq_nil_or_concat' i.reference.toList).resolve_left
          fun nil ↦ by rw [nil] at hname; cases hname
        have last : i.path.toList.getLast? = some d := by
          rw [e, hd, ← List.cons_append, ← List.append_assoc, List.getLast?_concat]
        rw [startsWithPath, Bool.and_eq_true, List.drop_left, last] at starts
        -- the name would have to end between two characters of the word
        have boundary := starts.2
        rw [hd] at h
        simp [isWordBoundary, word_char (d := d) (by simp [← h]),
          word_char (d := c) (by simp [← h])]
          at boundary
  · rw [short] at h
    have lower := keyword.lower
    rw [← h] at lower
    exact absurd (decide_eq_true upper) (by simpa [isUpper] using lower)

/-- A text that is shortened to a keyword is the keyword. -/
theorem eq_of_shortenNames_eq_word {cs : List Char}
    (h : shortenNames imports package cs = word.toList) : cs = word.toList := by
  have all := keyword.all_isPathChar
  cases cs using Text.runInduction isPathChar with
  | nil =>
    simpa using h
  | sep c cs hc _ =>
    rw [shortenNames_sep named dotted hc] at h
    rw [← h, List.all_cons, hc] at all
    simp at all
  | run run cs nonempty hrun hcs _ =>
    rw [shortenNames_run named dotted nonempty hrun hcs] at h
    cases cs with
    | nil =>
      rw [shortenNames_nil, List.append_nil] at h
      rw [List.append_nil]
      exact eq_of_shortenPath_eq_word named keyword h
    | cons c cs =>
      have hc : isPathChar c = false := by simpa using hcs
      rw [shortenNames_sep named dotted hc] at h
      rw [← h, List.all_append, List.all_cons, hc] at all
      simp at all

/-- A keyword in front is found in a shortened text when it is in the text. -/
theorem afterWord?_shortenNames (cs : List Char) :
    afterWord? word (shortenNames imports package cs) =
      (afterWord? word cs).map (shortenNames imports package) := by
  have undotted : '.' ∉ word.toList := dot_notMem_of_isName keyword.isName
  have all := keyword.all_isPathChar
  obtain ⟨first, letters, nonempty, -⟩ := exists_cons_of_isName keyword.isName
  refine Option.ext fun rest ↦ ?_
  rw [Option.map_eq_some_iff]
  simp only [afterWord?_eq_some]
  constructor
  · rintro ⟨gap, e, gap_ne_nil, hgap, hrest⟩
    obtain ⟨b, bs, rfl⟩ := List.exists_cons_of_ne_nil gap_ne_nil
    have blank := hgap
    rw [List.all_cons, Bool.and_eq_true] at blank
    rw [List.append_assoc, List.cons_append] at e
    obtain ⟨front, behind, rfl, hfront, hbehind⟩ :=
      exists_of_shortenNames_eq_append named dotted (isPathChar_of_isBlank blank.1) e
    obtain ⟨rest', rfl, rfl⟩ := exists_of_shortenNames_eq_gap named dotted blank.2 hbehind
    rw [eq_of_shortenNames_eq_word named dotted keyword hfront]
    rw [head?_isBlank_shortenNames named dotted] at hrest
    exact ⟨rest', ⟨b :: bs, by simp, gap_ne_nil, hgap, hrest⟩, rfl⟩
  · rintro ⟨rest', ⟨gap, rfl, gap_ne_nil, hgap, hrest⟩, rfl⟩
    refine ⟨gap, ?_, gap_ne_nil, hgap, (head?_isBlank_shortenNames named dotted rest').trans hrest⟩
    obtain ⟨b, bs, rfl⟩ := List.exists_cons_of_ne_nil gap_ne_nil
    have blank := hgap
    rw [List.all_cons, Bool.and_eq_true] at blank
    have behind : (b :: bs ++ rest').head?.any isPathChar = false := by
      simpa using isPathChar_of_isBlank blank.1
    rw [List.append_assoc, shortenNames_run named dotted (by simp [nonempty]) all behind,
      shortenPath_undotted named dotted undotted, shortenNames_gap named dotted hgap,
      List.append_assoc]

end words

section statements

include named dotted

theorem splitStatic_shortenNames (keyword : Keyword imports "static") (cs : List Char) :
    splitStatic (shortenNames imports package cs) =
      ((splitStatic cs).1, shortenNames imports package (splitStatic cs).2) := by
  rw [splitStatic, splitStatic, afterWord?_shortenNames named dotted keyword]
  cases afterWord? "static" cs with
  | none => rfl
  | some rest =>
    simp only [Option.map_some, head?_isNameChar_shortenNames named dotted]
    split <;> rfl

/-- Where an imported name is read, the longer one in its place is read too. -/
theorem complete_scan_of_shortenNames {cs : List Char} {p p' : Place} (hp : p' = p ∨ p' = p.dot)
    (h : (p.scan (shortenNames imports package cs)).any Place.complete = true) :
    (p'.scan cs).any Place.complete = true := by
  induction cs using Text.runInduction isPathChar generalizing p p' with
  | nil =>
    rw [shortenNames_nil] at h
    rcases hp with rfl | rfl
    · exact h
    · exact Place.complete_dot h
  | sep c cs hc ih =>
    rw [shortenNames_sep named dotted hc, Place.scan_cons] at h
    rw [Place.scan_cons]
    cases hq : p.next c with
    | none => rw [hq] at h; cases h
    | some q =>
      rw [hq, Option.bind_some] at h
      rcases hp with rfl | rfl
      · rw [hq, Option.bind_some]
        exact ih (.inl rfl) h
      · rw [Place.next_dot hq, Option.bind_some]
        exact ih (.inr rfl) h
  | run run cs nonempty hrun hcs ih =>
    rw [shortenNames_run named dotted nonempty hrun hcs, Place.scan_append] at h
    rw [Place.scan_append]
    cases hq : p.scan (shortenPath imports package run) with
    | none => rw [hq] at h; cases h
    | some q =>
      rw [hq, Option.bind_some] at h
      rcases shortened_shortenPath named dotted run with same | ⟨outer, houter, e, hshort⟩
      · rw [same] at hq
        rcases hp with rfl | rfl
        · rw [hq, Option.bind_some]
          exact ih (.inl rfl) h
        · rw [Place.scan_of_dot hq, Option.bind_some]
          exact ih (.inr rfl) h
      · rw [e, Place.scan_longer houter hshort hp hq, Option.bind_some]
        exact ih (.inr rfl) h

/-- Shortening makes no line an import statement: keywords are not made, and a dotted name was
dotted before. -/
theorem isSome_parse?_of_shortenNames (isImport : Keyword imports "import")
    (isStatic : Keyword imports "static") {cs : List Char}
    (h : (ImportLine.parse? (String.ofList (shortenNames imports package cs))).isSome = true) :
    (ImportLine.parse? (String.ofList cs)).isSome = true := by
  obtain ⟨i, hi⟩ := Option.isSome_iff_exists.1 h
  obtain ⟨gap, written, behind, states, path, reference, hq, -⟩ := parse?_eq_some.1 hi
  rw [String.toList_ofList, dropBlanks_shortenNames named dotted] at states
  have start : afterWord? "import" (shortenNames imports package (dropBlanks cs)) =
      some (written ++ ';' :: behind) := by
    refine afterWord?_eq_some.2 ⟨gap, states.eq, states.gap_ne_nil, states.gap_blank, ?_⟩
    cases written with
    | nil => exact (by decide : isBlank ';' = false)
    | cons d written => simpa using states.written_head
  rw [afterWord?_shortenNames named dotted isImport, Option.map_eq_some_iff] at start
  obtain ⟨rest, hrest, eq⟩ := start
  obtain ⟨gap', eq', gap_ne_nil, gap_blank, rest_head⟩ := afterWord?_eq_some.1 hrest
  obtain ⟨long, tail, rfl, rfl, rfl⟩ :=
    exists_of_shortenNames_eq_append named dotted (by decide : isPathChar ';' = false) eq
  have states' : States (dropBlanks cs) gap' long tail := by
    refine ⟨eq', gap_ne_nil, gap_blank, ?_, fun hm ↦ states.semicolon ?_,
      fun hm ↦ states.lineFeed ?_⟩
    · rw [← head?_isBlank_shortenNames named dotted]
      exact states.written_head
    · exact mem_shortenNames_of_mem named dotted (by decide) hm
    · exact mem_shortenNames_of_mem named dotted (by decide) hm
  have read : (qualifiedName? (splitStatic long).2).isSome = true := by
    rw [splitStatic_shortenNames named dotted isStatic] at hq
    have short :
        (qualifiedName? (shortenNames imports package (splitStatic long).2)).isSome = true := by
      rw [hq]
      rfl
    rw [isSome_qualifiedName?] at short ⊢
    exact complete_scan_of_shortenNames named dotted (.inl rfl) short
  obtain ⟨⟨path', reference'⟩, hq'⟩ := Option.isSome_iff_exists.1 read
  exact Option.isSome_iff_exists.2 ⟨_, parse?_eq_some.2
    ⟨gap', long, tail, by rwa [String.toList_ofList], path', reference', hq', rfl⟩⟩

end statements

end PlatformOverlay.Imports
