import PlatformOverlay.Imports.Repair
import PlatformOverlay.Proofs.Imports.Statement
import PlatformOverlay.Proofs.Imports.Union

/-!
# Shortening run by run

Both passes of shortening look at runs of path characters only, so shortening takes each run alone
(`shortenNames_run`) and leaves what is between the runs (`shortenNames_sep`).

Of a run, shortening takes off names in front with the dot behind them, and nothing else
(`Shortened`). The first pass does so up to the simple name of an import, and needs that the path of
an import ends with this name (`ImportLine.EndsWithName`); the second one does so up to the first
letter behind a package.
-/

namespace PlatformOverlay.Imports

/-! ## Imported names -/

/-- The path is a dotted name with the simple name at its end. -/
def ImportLine.EndsWithName (i : ImportLine) : Prop :=
  ∃ outer, isDottedName outer = true ∧ isName i.reference.toList = true ∧
    i.path.toList = outer ++ '.' :: i.reference.toList

/-- A path that ends with a simple name is a dotted name. -/
theorem ImportLine.EndsWithName.isDottedName {i : ImportLine} (h : i.EndsWithName) :
    isDottedName i.path.toList = true := by
  obtain ⟨outer, houter, hname, e⟩ := h
  have single := Text.splitChars_of_notMem (dot_notMem_of_isName hname)
  rw [Imports.isDottedName, e, Text.splitChars_append, List.all_append, Bool.and_eq_true]
  exact ⟨houter, by simp [single, hname]⟩

/-- The imports of the union end with their simple names. -/
theorem endsWithName_of_mem_union (generated common : String) :
    ∀ i ∈ union (importsOf generated) (importsOf common), i.isWildcard = false →
      i.EndsWithName := by
  intro i h single
  rcases mem_of_mem_union h with h | h
  all_goals
    obtain ⟨line, -, hi⟩ := List.mem_filterMap.1 h
    exact exists_outer_of_parse? hi single

/-- Names are shortened by imports that are no wildcards. -/
theorem mem_shortenable {imports : List ImportLine} {i : ImportLine} :
    i ∈ shortenable imports ↔ i ∈ imports ∧ i.isWildcard = false := by
  simp [shortenable, List.mem_mergeSort]

theorem isWordChar_of_not_isPathChar {c : Char} (h : isPathChar c = false) :
    Text.isWordChar c = false := by
  rw [isPathChar, isNameChar, Bool.or_eq_false_iff, Bool.or_eq_false_iff] at h
  exact h.1.1

/-- A path in front of a text is one in front of the run there. -/
theorem prefix_run {isPart : Char → Bool} {path run cs : List Char} (hpath : path.all isPart = true)
    (hcs : cs.head?.any isPart = false) : path <+: run ++ cs ↔ path <+: run := by
  refine ⟨fun h ↦ ?_, fun h ↦ h.trans (List.prefix_append _ _)⟩
  rcases List.prefix_or_prefix_of_prefix h (List.prefix_append run cs) with h' | ⟨more, rfl⟩
  · exact h'
  · rw [List.prefix_append_right_inj] at h
    cases more with
    | nil => simp
    | cons c more =>
      obtain ⟨rest, rfl⟩ := h
      rw [List.all_append, Bool.and_eq_true, List.all_cons, Bool.and_eq_true] at hpath
      simp [hpath.2.1] at hcs

/-- Whether a path is found at the front of a text depends on the run there. -/
theorem startsWithPath_run {path run cs : List Char} (hpath : path.all isPathChar = true)
    (hcs : cs.head?.any isPathChar = false) :
    startsWithPath path (run ++ cs) = startsWithPath path run := by
  have isPrefix : path.isPrefixOf (run ++ cs) = path.isPrefixOf run := by
    rw [Bool.eq_iff_iff, List.isPrefixOf_iff_prefix, List.isPrefixOf_iff_prefix,
      prefix_run hpath hcs]
  rw [startsWithPath, startsWithPath, isPrefix]
  cases hp : path.isPrefixOf run with
  | false => rfl
  | true =>
    obtain ⟨rest, rfl⟩ := List.isPrefixOf_iff_prefix.1 hp
    have next : ((rest ++ cs).head?).any Text.isWordChar = rest.head?.any Text.isWordChar := by
      cases rest with
      | cons c rest => rfl
      | nil =>
        cases cs with
        | nil => rfl
        | cons c cs => simpa using isWordChar_of_not_isPathChar (by simpa using hcs)
    rw [List.append_assoc, List.drop_left, List.drop_left, isWordBoundary, isWordBoundary, next]

/-- What is found is the path of an import, to be replaced by its simple name. -/
theorem findImported_eq_some {imports : List ImportLine} {run : List Char} {r : Replacement}
    (h : findImported (shortenable imports) run = some r) :
    ∃ i ∈ imports, i.isWildcard = false ∧ startsWithPath i.path.toList run = true ∧
      r = ⟨i.reference.toList, i.path.length⟩ := by
  obtain ⟨i, hi, rfl⟩ := Option.map_eq_some_iff.1 h
  obtain ⟨mem, single⟩ := mem_shortenable.1 (List.mem_of_find?_eq_some hi)
  have starts : startsWithPath i.path.toList run = true := by simpa using List.find?_some hi
  exact ⟨i, mem, single, starts, rfl⟩

variable {imports : List ImportLine} (named : ∀ i ∈ imports, i.isWildcard = false → i.EndsWithName)

include named in
/-- The search for imported names looks at the run in front only. -/
theorem looksAtRun_findImported : LooksAtRun isPathChar (findImported (shortenable imports)) where
  find_run run cs hcs := by
    rw [findImported, findImported, ← List.head?_filter, ← List.head?_filter]
    congr 2
    refine List.filter_congr fun i hi ↦ ?_
    obtain ⟨mem, single⟩ := mem_shortenable.1 hi
    exact startsWithPath_run (isPathChar_of_isDottedName (named i mem single).isDottedName) hcs
  length_le run r h := by
    obtain ⟨i, hi, single, starts, rfl⟩ := findImported_eq_some h
    rw [startsWithPath, Bool.and_eq_true, List.isPrefixOf_iff_prefix] at starts
    obtain ⟨outer, -, -, e⟩ := named i hi single
    have length : i.path.length = i.path.toList.length := String.length_toList.symm
    have pos : 0 < i.path.toList.length := by
      rw [e, List.length_append, List.length_cons]
      omega
    exact ⟨length ▸ pos, length ▸ starts.1.length_le⟩

/-! ## Names of the package and of `java.lang` -/

theorem isNameChar_of_upper {c : Char} (h : 'A' ≤ c ∧ c ≤ 'Z') : isNameChar c = true := by
  have ascii : c.toNat < 0x80 :=
    Nat.lt_of_le_of_lt (Nat.le_trans h.2 (by decide)) (by decide : 'Z'.toNat < 0x80)
  have upper : c.isUpper = true := decide_eq_true (p := _ ∧ _) h
  have letter : c.isAlpha = true := Bool.or_eq_true_iff.2 (.inl upper)
  simp [isNameChar, Text.isWordChar, ascii, Char.isAlphanum, letter]

theorem isPathChar_of_upper {c : Char} (h : 'A' ≤ c ∧ c ≤ 'Z') : isPathChar c = true := by
  rw [isPathChar, isNameChar_of_upper h, Bool.true_or]

/-- What is found is one of the packages, a dot and an upper-case letter, which is kept. -/
theorem findImplicit_eq_some {packages : List String} {run : List Char} {r : Replacement}
    (h : findImplicit packages run = some r) :
    ∃ package ∈ packages, ∃ c rest, run = package.toList ++ '.' :: c :: rest ∧ ('A' ≤ c ∧ c ≤ 'Z') ∧
      r = ⟨[c], package.length + 2⟩ := by
  obtain ⟨package, mem, h⟩ := List.exists_of_findSome?_eq_some h
  have length : package.length = package.toList.length := String.length_toList.symm
  refine ⟨package, mem, ?_⟩
  split at h
  next starts =>
    obtain ⟨rest, rfl⟩ := List.isPrefixOf_iff_prefix.1 starts
    rw [length, ← List.length_singleton (a := '.'), ← List.length_append, List.drop_left] at h
    cases rest with
    | nil => cases h
    | cons c rest =>
      dsimp only at h
      split at h
      next upper =>
        refine ⟨c, rest, by simp, upper, ?_⟩
        rw [length]
        exact (Option.some.inj h).symm
      · cases h
  · cases h

/-- Paths may consist of more characters here than they do in import statements. -/
theorem looksAtRun_findImplicit {isPart : Char → Bool}
    (part : ∀ c, isPathChar c = true → isPart c = true)
    {packages : List String} (h : ∀ package ∈ packages, package.toList.all isPart = true) :
    LooksAtRun isPart (findImplicit packages) where
  find_run run cs hcs := by
    rw [findImplicit, findImplicit]
    induction packages with
    | nil => rfl
    | cons package packages ih =>
      rw [List.findSome?_cons, List.findSome?_cons,
        ih fun other ho ↦ h other (List.mem_cons_of_mem _ ho)]
      congr 1
      have hpath : (package.toList ++ ['.']).all isPart = true := by
        simp [List.all_append, h package List.mem_cons_self, part '.' (by decide)]
      have isPrefix : (package.toList ++ ['.']).isPrefixOf (run ++ cs) =
          (package.toList ++ ['.']).isPrefixOf run := by
        rw [Bool.eq_iff_iff, List.isPrefixOf_iff_prefix, List.isPrefixOf_iff_prefix,
          prefix_run hpath hcs]
      rw [isPrefix]
      split
      next starts =>
        obtain ⟨rest, rfl⟩ := List.isPrefixOf_iff_prefix.1 starts
        have length : package.length + 1 = (package.toList ++ ['.']).length := by
          simp [← String.length_toList]
        rw [length, List.append_assoc, List.drop_left, List.drop_left]
        cases rest with
        | cons c rest => rfl
        | nil =>
          cases cs with
          | nil => rfl
          | cons c cs =>
            refine if_neg fun upper ↦ ?_
            simp [part c (isPathChar_of_upper upper)] at hcs
      · rfl
  length_le run r hr := by
    obtain ⟨package, -, c, rest, rfl, -, rfl⟩ := findImplicit_eq_some hr
    simp [← String.length_toList]

/-! ## Both passes -/

/-- Names in front and the dot behind them are taken off, or nothing is. -/
def Shortened (run short : List Char) : Prop :=
  short = run ∨ ∃ outer, isDottedName outer = true ∧ run = outer ++ '.' :: short ∧
    short.head?.any isNameChar = true

namespace Shortened

variable {run short shorter : List Char}

/-- A run that is shortened twice is shortened. -/
theorem trans (h : Shortened run short) (h' : Shortened short shorter) : Shortened run shorter := by
  rcases h with rfl | ⟨outer, houter, rfl, hs⟩
  · exact h'
  · rcases h' with rfl | ⟨inner, hinner, rfl, hs'⟩
    · exact .inr ⟨outer, houter, rfl, hs⟩
    · refine .inr ⟨outer ++ '.' :: inner, ?_, by simp, hs'⟩
      rw [isDottedName, Text.splitChars_append, List.all_append, Bool.and_eq_true]
      exact ⟨houter, hinner⟩

/-- A shortened path has characters of paths only. -/
theorem isPathChar (h : Shortened run short) (hrun : run.all isPathChar = true) :
    short.all isPathChar = true := by
  rcases h with rfl | ⟨outer, -, rfl, -⟩
  · exact hrun
  · rw [List.all_append, List.all_cons] at hrun
    simp only [Bool.and_eq_true] at hrun
    exact hrun.2.2

theorem ne_nil (h : Shortened run short) (hrun : run ≠ []) : short ≠ [] := by
  rcases h with rfl | ⟨outer, -, -, hs⟩
  · exact hrun
  · rintro rfl
    cases hs

end Shortened

/-- What both passes make of a run. -/
def shortenPath (imports : List ImportLine) (package : Option String)
    (run : List Char) : List Char :=
  replaceFront (findImplicit ("java.lang" :: package.toList))
    (replaceFront (findImported (shortenable imports)) run)

include named in
/-- The imported name in front of a run is replaced by its last name. -/
theorem replaceFront_findImported (run : List Char) :
    (findImported (shortenable imports) run = none ∧
      replaceFront (findImported (shortenable imports)) run = run) ∨
    ∃ i ∈ imports, i.isWildcard = false ∧ startsWithPath i.path.toList run = true ∧
      ∃ outer rest, isDottedName outer = true ∧ isName i.reference.toList = true ∧
        i.path.toList = outer ++ '.' :: i.reference.toList ∧ run = i.path.toList ++ rest ∧
        replaceFront (findImported (shortenable imports)) run = i.reference.toList ++ rest := by
  rw [replaceFront]
  cases h : findImported (shortenable imports) run with
  | none => exact .inl ⟨rfl, rfl⟩
  | some r =>
    obtain ⟨i, mem, single, starts, rfl⟩ := findImported_eq_some h
    obtain ⟨outer, houter, hname, e⟩ := named i mem single
    have front := starts
    rw [startsWithPath, Bool.and_eq_true, List.isPrefixOf_iff_prefix] at front
    obtain ⟨rest, rfl⟩ := front.1
    refine .inr ⟨i, mem, single, starts, outer, rest, houter, hname, e, rfl, ?_⟩
    change i.reference.toList ++ List.drop i.path.length _ = _
    rw [← String.length_toList, List.drop_left]

include named in
/-- Replacing an imported name shortens the run by the front part of the name. -/
theorem shortened_findImported (run : List Char) :
    Shortened run (replaceFront (findImported (shortenable imports)) run) := by
  rcases replaceFront_findImported named run with ⟨-, same⟩ | ⟨i, -, -, -, outer, rest, houter,
    hname, e, rfl, short⟩
  · exact .inl same
  · obtain ⟨c, cs, hc, isName⟩ := exists_cons_of_isName hname
    refine .inr ⟨outer, houter, by rw [short, e, List.append_assoc, List.cons_append], ?_⟩
    rw [short, hc]
    exact isName

/-- Replacing the name of a type of the package takes the package off, or nothing is done. -/
theorem replaceFront_findImplicit (packages : List String) (run : List Char) :
    (findImplicit packages run = none ∧ replaceFront (findImplicit packages) run = run) ∨
    ∃ package ∈ packages, ∃ c rest, ('A' ≤ c ∧ c ≤ 'Z') ∧ run = package.toList ++ '.' :: c :: rest ∧
      replaceFront (findImplicit packages) run = c :: rest := by
  rw [replaceFront]
  cases h : findImplicit packages run with
  | none => exact .inl ⟨rfl, rfl⟩
  | some r =>
    obtain ⟨package, mem, c, rest, rfl, upper, rfl⟩ := findImplicit_eq_some h
    refine .inr ⟨package, mem, c, rest, upper, rfl, ?_⟩
    have length : package.length + 2 = (package.toList ++ ['.', c]).length := by
      simp [← String.length_toList]
    have split : package.toList ++ '.' :: c :: rest = (package.toList ++ ['.', c]) ++ rest := by
      simp
    simp only [split, length, List.drop_left, List.singleton_append]

/-- Leaving out the package in front of a class name shortens the run by the name of the
package. -/
theorem shortened_findImplicit {packages : List String}
    (h : ∀ package ∈ packages, isDottedName package.toList = true) (run : List Char) :
    Shortened run (replaceFront (findImplicit packages) run) := by
  rcases replaceFront_findImplicit packages run with ⟨-, same⟩ | ⟨package, mem, c, rest,
    upper, e, short⟩
  · exact .inl same
  · refine .inr ⟨package.toList, h package mem, by rw [short, e], ?_⟩
    rw [short]
    exact isNameChar_of_upper upper

@[simp] theorem shortenNames_nil {package : Option String} :
    shortenNames imports package [] = [] := by
  simp [shortenNames]

include named in
theorem head?_replaceNames {cs : List Char} (hcs : cs.head?.any isPathChar = false) :
    (replaceNames (findImported (shortenable imports)) 0 true cs).head?.any isPathChar = false := by
  cases cs with
  | nil => simp
  | cons c cs =>
    have hc : isPathChar c = false := by simpa using hcs
    simpa [(looksAtRun_findImported named).replaceNames_sep hc] using hc

section both

variable {package : Option String} (dotted : package.all (isDottedName ·.toList) = true)

include dotted

/-- The packages that need no import are dotted names. -/
theorem isDottedName_of_mem_packages {p : String} (h : p ∈ "java.lang" :: package.toList) :
    isDottedName p.toList = true := by
  rcases List.mem_cons.1 h with rfl | h
  · decide
  · rw [Option.mem_toList] at h
    rw [h] at dotted
    exact dotted

/-- The search for such types looks at the run in front only. -/
theorem looksAtRun_packages :
    LooksAtRun isPathChar (findImplicit ("java.lang" :: package.toList)) :=
  looksAtRun_findImplicit (fun _ hc ↦ hc) fun _ hp ↦
    isPathChar_of_isDottedName (isDottedName_of_mem_packages dotted hp)

include named

theorem shortened_shortenPath (run : List Char) : Shortened run (shortenPath imports package run) :=
  (shortened_findImported named run).trans
    (shortened_findImplicit (fun _ hp ↦ isDottedName_of_mem_packages dotted hp) _)

theorem shortenNames_sep {c : Char} (hc : isPathChar c = false) (cs : List Char) :
    shortenNames imports package (c :: cs) = c :: shortenNames imports package cs := by
  simp only [shortenNames, (looksAtRun_findImported named).replaceNames_sep hc,
    (looksAtRun_packages dotted).replaceNames_sep hc]

theorem shortenNames_run {run cs : List Char} (nonempty : run ≠ [])
    (hrun : run.all isPathChar = true) (hcs : cs.head?.any isPathChar = false) :
    shortenNames imports package (run ++ cs) =
      shortenPath imports package run ++ shortenNames imports package cs := by
  have short := shortened_findImported named run
  simp only [shortenNames, (looksAtRun_findImported named).replaceNames_run nonempty hrun hcs]
  rw [(looksAtRun_packages dotted).replaceNames_run (short.ne_nil nonempty)
    (short.isPathChar hrun) (head?_replaceNames named hcs)]
  rfl

end both

end PlatformOverlay.Imports
