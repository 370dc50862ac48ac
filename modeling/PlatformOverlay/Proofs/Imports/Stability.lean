import PlatformOverlay.Proofs.Imports.Shorten

/-!
# Shortening a text that is short already

A text is short if each run in it is (`shortenNames_eq_self`).  What shortening makes of a run is
short unless a path starts with a simple name or with an upper-case letter: then a shortened name
may be the start of another imported name (`shortenPath_shortenPath`).

`Stable` says so of a list of imports and a package, and it is what a repair needs in order to leave
a repaired text alone. It is enough for it that paths start in lower case and simple names in upper
case.
-/

namespace PlatformOverlay.Imports

variable {imports : List ImportLine} {package : Option String}
  (named : ∀ i ∈ imports, i.isWildcard = false → i.EndsWithName)
  (dotted : package.all (isDottedName ·.toList) = true)

section texts

theorem head?_any_of_all {p : Char → Bool} {cs : List Char} (nonempty : cs ≠ [])
    (h : cs.all p = true) : cs.head?.any p = true := by
  cases cs with
  | nil => exact absurd rfl nonempty
  | cons c cs =>
    rw [List.all_cons, Bool.and_eq_true] at h
    exact h.1

/-- A run that has been shortened is still a run. -/
theorem head?_isPathChar_of_shortened {run short : List Char} (nonempty : run ≠ [])
    (hrun : run.all isPathChar = true) (h : Shortened run short) :
    short.head?.any isPathChar = run.head?.any isPathChar := by
  rw [head?_any_of_all nonempty hrun, head?_any_of_all (h.ne_nil nonempty) (h.isPathChar hrun)]

include named dotted

/-- A property of first characters is kept if it is kept in runs. -/
theorem head?_shortenNames {p : Char → Bool} (hp : ∀ run short, run ≠ [] →
      run.all isPathChar = true → Shortened run short → short.head?.any p = run.head?.any p)
    (cs : List Char) :
    (shortenNames imports package cs).head?.any p = cs.head?.any p := by
  induction cs using Text.runInduction isPathChar with
  | nil => simp
  | sep c cs hc _ => simp [shortenNames_sep named dotted hc]
  | run run cs nonempty hrun hcs _ =>
    have short := (shortened_shortenPath named dotted run).ne_nil nonempty
    obtain ⟨c, rest, e⟩ := List.exists_cons_of_ne_nil short
    obtain ⟨d, more, rfl⟩ := List.exists_cons_of_ne_nil nonempty
    have := hp _ _ nonempty hrun (shortened_shortenPath named dotted (d :: more))
    rw [shortenNames_run named dotted nonempty hrun hcs]
    simpa [e] using this

/-- The runs of a shortened text are the shortened runs of the text. -/
theorem runs_shortenNames (cs : List Char) :
    Text.runs isPathChar (shortenNames imports package cs) =
      (Text.runs isPathChar cs).map (shortenPath imports package) := by
  induction cs using Text.runInduction isPathChar with
  | nil => simp
  | sep c cs hc ih => rw [shortenNames_sep named dotted hc, Text.runs_sep hc, Text.runs_sep hc, ih]
  | run run cs nonempty hrun hcs ih =>
    have short := shortened_shortenPath named dotted run
    rw [shortenNames_run named dotted nonempty hrun hcs, Text.runs_run nonempty hrun hcs,
      Text.runs_run (short.ne_nil nonempty) (short.isPathChar hrun), ih, List.map_cons]
    rwa [head?_shortenNames named dotted fun _ _ ↦ head?_isPathChar_of_shortened]

/-- A text in which no run gets shorter is left as it is. -/
theorem shortenNames_eq_self {cs : List Char}
    (h : ∀ run ∈ Text.runs isPathChar cs, shortenPath imports package run = run) :
    shortenNames imports package cs = cs := by
  induction cs using Text.runInduction isPathChar with
  | nil => simp
  | sep c cs hc ih =>
    rw [Text.runs_sep hc] at h
    rw [shortenNames_sep named dotted hc, ih h]
  | run run cs nonempty hrun hcs ih =>
    rw [Text.runs_run nonempty hrun hcs] at h
    rw [shortenNames_run named dotted nonempty hrun hcs, h run List.mem_cons_self,
      ih fun other ho ↦ h other (List.mem_cons_of_mem _ ho)]

/-- The text on both sides of a character that is in no path is shortened by itself. -/
theorem shortenNames_append {c : Char} (hc : isPathChar c = false) (xs ys : List Char) :
    shortenNames imports package (xs ++ c :: ys) =
      shortenNames imports package xs ++ c :: shortenNames imports package ys := by
  induction xs using Text.runInduction isPathChar with
  | nil => simp [shortenNames_sep named dotted hc]
  | sep d xs hd ih =>
    rw [List.cons_append, shortenNames_sep named dotted hd, ih, shortenNames_sep named dotted hd,
      List.cons_append]
  | run run xs nonempty hrun hxs ih =>
    have behind : (xs ++ c :: ys).head?.any isPathChar = false := by
      cases xs with
      | nil => simpa using hc
      | cons d xs => simpa using hxs
    rw [List.append_assoc, shortenNames_run named dotted nonempty hrun behind, ih,
      shortenNames_run named dotted nonempty hrun hxs, List.append_assoc]

theorem shortenNames_intercalate (lines : List (List Char)) :
    shortenNames imports package (['\n'].intercalate lines) =
      ['\n'].intercalate (lines.map (shortenNames imports package)) := by
  induction lines with
  | nil => simp
  | cons line lines ih =>
    by_cases nil : lines = []
    · simp [nil]
    · rw [List.intercalate_cons_of_ne_nil nil, List.map_cons,
        List.intercalate_cons_of_ne_nil (by simpa using nil), ← ih, List.append_assoc,
          List.append_assoc]
      exact shortenNames_append named dotted (by decide) line _

end texts

/-! ## Paths -/

def isUpper (c : Char) : Bool := 'A' ≤ c ∧ c ≤ 'Z'

/-- No path starts with a simple name that is imported or with an upper-case letter. -/
structure Stable (imports : List ImportLine) (package : Option String) : Prop where
  path_head : ∀ i ∈ imports, i.isWildcard = false → i.path.toList.head?.any isUpper = false
  path_name : ∀ i ∈ imports, i.isWildcard = false → ∀ j ∈ imports, j.isWildcard = false →
    startsWithPath j.reference.toList i.path.toList = false
  package_head : package.all (fun p ↦ !p.toList.head?.any isUpper) = true

/-- A path that starts where a simple name stands starts with that name. -/
theorem startsWithPath_reference {i j : ImportLine} (hi : i.EndsWithName) (hj : j.EndsWithName)
    {rest : List Char} (starts : startsWithPath i.path.toList (i.path.toList ++ rest) = true)
    (h : startsWithPath j.path.toList (i.reference.toList ++ rest) = true) :
    startsWithPath i.reference.toList j.path.toList = true := by
  obtain ⟨outer, -, hname, e⟩ := hi
  obtain ⟨outer', -, -, e'⟩ := hj
  have dot : '.' ∈ j.path.toList := by
    rw [e']
    exact List.mem_append_right _ List.mem_cons_self
  rw [startsWithPath, Bool.and_eq_true, List.isPrefixOf_iff_prefix] at starts h
  rcases List.prefix_or_prefix_of_prefix h.1 (List.prefix_append i.reference.toList rest) with
    inside | ⟨more, hmore⟩
  · exact absurd (inside.subset dot) (dot_notMem_of_isName hname)
  · have front := h.1
    rw [← hmore, List.prefix_append_right_inj] at front
    rw [← hmore] at dot ⊢
    cases more with
    | nil =>
      rw [List.append_nil] at dot
      exact absurd dot (dot_notMem_of_isName hname)
    | cons c more =>
      obtain ⟨behind, rfl⟩ := front
      obtain ⟨d, ds, hd, -⟩ := exists_cons_of_isName hname
      have last : i.path.toList.getLast? = i.reference.toList.getLast? := by
        rw [e, hd]
        simp [List.getLast?_append, List.getLast?_cons]
      have boundary := starts.2
      rw [List.drop_left, last] at boundary
      rw [startsWithPath, Bool.and_eq_true, List.isPrefixOf_iff_prefix, List.drop_left]
      exact ⟨List.prefix_append _ _, boundary⟩

section stable

variable (stable : Stable imports package)

include named stable

/-- In what is left of an imported name, no imported name is found at the front. -/
theorem findImported_shortened (run : List Char) :
    findImported (shortenable imports) (replaceFront (findImported (shortenable imports)) run) =
      none := by
  rcases replaceFront_findImported named run with ⟨none, same⟩ |
    ⟨i, hi, single, starts, outer, rest, houter, hname, e, rfl, short⟩
  · rw [same, none]
  · rw [short]
    cases hf : findImported (shortenable imports) (i.reference.toList ++ rest) with
    | none => rfl
    | some r =>
      obtain ⟨j, hj, single', starts', -⟩ := findImported_eq_some hf
      have := startsWithPath_reference (named i hi single) (named j hj single') starts starts'
      rw [stable.path_name j hj single' i hi single] at this
      cases this

/-- No imported name is found in front of an upper-case letter: paths do not start with one. -/
theorem findImported_upper {c : Char} (upper : isUpper c = true) (rest : List Char) :
    findImported (shortenable imports) (c :: rest) = none := by
  cases hf : findImported (shortenable imports) (c :: rest) with
  | none => rfl
  | some r =>
    obtain ⟨i, hi, single, starts, -⟩ := findImported_eq_some hf
    obtain ⟨d, ds, hd, -⟩ := exists_cons_of_isDottedName (named i hi single).isDottedName
    have head := stable.path_head i hi single
    rw [startsWithPath, Bool.and_eq_true, List.isPrefixOf_iff_prefix, hd,
      List.cons_prefix_cons] at starts
    rw [hd, starts.1.1] at head
    exact absurd upper (by simpa using head)

omit named in
theorem findImplicit_upper (dotted : package.all (isDottedName ·.toList) = true) {c : Char}
    (upper : isUpper c = true) (rest : List Char) :
    findImplicit ("java.lang" :: package.toList) (c :: rest) = none := by
  cases hf : findImplicit ("java.lang" :: package.toList) (c :: rest) with
  | none => rfl
  | some r =>
    obtain ⟨p, hp, d, behind, e, -⟩ := findImplicit_eq_some hf
    have head : p.toList.head?.any isUpper = false := by
      rcases List.mem_cons.1 hp with rfl | hp
      · decide
      · have := stable.package_head
        rw [Option.mem_toList.1 hp] at this
        simpa using this
    obtain ⟨d', ds, hd, -⟩ := exists_cons_of_isDottedName (isDottedName_of_mem_packages dotted hp)
    rw [hd, List.cons_append, List.cons.injEq] at e
    rw [hd, ← e.1] at head
    exact absurd upper (by simpa using head)

include dotted

theorem shortenPath_shortenPath (run : List Char) :
    shortenPath imports package (shortenPath imports package run) =
      shortenPath imports package run := by
  have imported := findImported_shortened named stable run
  rw [shortenPath, shortenPath]
  generalize replaceFront (findImported (shortenable imports)) run = short at imported
  rcases replaceFront_findImplicit ("java.lang" :: package.toList) short with ⟨none, same⟩ |
    ⟨p, hp, c, rest, upper, rfl, shorter⟩
  · rw [same, replaceFront_of_find_eq_none imported, same]
  · have upper : isUpper c = true := decide_eq_true upper
    rw [shorter, replaceFront_of_find_eq_none (findImported_upper named stable upper rest),
      replaceFront_of_find_eq_none (findImplicit_upper stable dotted upper rest)]

/-- Where every run is one that shortening has made of a run, nothing is left to shorten. -/
theorem shortenNames_of_runs {cs text : List Char} (h : ∀ run ∈ Text.runs isPathChar cs,
      run ∈ Text.runs isPathChar (shortenNames imports package text)) :
    shortenNames imports package cs = cs := by
  refine shortenNames_eq_self named dotted fun run hrun ↦ ?_
  have mem := h run hrun
  rw [runs_shortenNames named dotted] at mem
  obtain ⟨long, -, rfl⟩ := List.mem_map.1 mem
  exact shortenPath_shortenPath named dotted stable long

end stable

end PlatformOverlay.Imports
