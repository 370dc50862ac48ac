import PlatformOverlay.Proofs.Imports.Shorten
import PlatformOverlay.Proofs.Java.Parser.Part
import PlatformOverlay.Proofs.Java.Places

/-!
# Names in literals

Names and what replaces them are plain characters, which mean the same in every place, and where a
name is found does not depend on what stands behind the next quote.  So shortening the names of a
text shortens those in each of its literals, and leaves the literals otherwise as they are
(`literalsFrom_shortenNames`).

Both passes of shortening replace what a function finds at a place, and `ReplacesPlain` is what is
needed of such a function. It is shown of imported names and of those with a package in front; all
else is proved for any function of the kind (`ReplacesPlain.literalsFrom_replaceNames`).
-/

namespace PlatformOverlay

namespace Java.Lexer

/-- Characters of identifiers do not begin or end a literal. -/
theorem isPlain_of_isIdentPart {c : Char} (h : isIdentPart c = true) : isPlain c = true := by
  have star : c ≠ '*' := by rintro rfl; exact absurd h (by decide)
  have lineFeed : c ≠ '\n' := by rintro rfl; exact absurd h (by decide)
  simp [isPlain, isCode_of_isIdentPart h, star, lineFeed]

/-- A quote begins or ends one, so it is not plain. -/
theorem isPlain_quote (q : Quote) : isPlain q.char = false := by cases q <;> decide

end Java.Lexer

namespace Imports

open Java Java.Lexer

/-! ## Plain names -/

theorem isIdentPart_of_isNameChar {c : Char} (h : isNameChar c = true) : isIdentPart c = true := by
  have letter (h : isLetter c = true) :
    isIdentPart c = true := by simp [isIdentPart, isIdentStart, h]
  rw [isNameChar, Bool.or_eq_true] at h
  obtain word | dollar := h
  · rw [Text.isWordChar] at word
    split at word
    next ascii =>
      rw [Bool.or_eq_true] at word
      obtain alphanum | underscore := word
      · have alphanum : ((c.isUpper || c.isLower) || c.isDigit) = true := alphanum
        rw [Bool.or_eq_true, Bool.or_eq_true] at alphanum
        obtain (upper | lower) | digit := alphanum
        · have upper : 'A' ≤ c ∧ c ≤ 'Z' := of_decide_eq_true upper
          exact letter (by simp [isLetter, upper])
        · have lower : (decide ('a' ≤ c) && decide (c ≤ 'z')) = true := lower
          exact letter (by rw [isLetter, lower, Bool.true_or])
        · have digit : isDigit c = true := digit
          rw [isIdentPart, digit, Bool.or_true]
      · simp [isIdentPart, isIdentStart, underscore]
    next above =>
      have above : '\x80' ≤ c := Nat.le_of_not_lt above
      simp [isIdentPart, isIdentStart, above]
  · simp [isIdentPart, isIdentStart, dollar]

theorem isPlain_of_isPathChar {c : Char} (h : isPathChar c = true) : isPlain c = true := by
  rw [isPathChar, Bool.or_eq_true] at h
  obtain name | dot := h
  · exact isPlain_of_isIdentPart (isIdentPart_of_isNameChar name)
  · rw [eq_of_beq dot]
    decide

theorem all_isPlain {cs : List Char} (h : cs.all isPathChar = true) : cs.all isPlain = true :=
  List.all_eq_true.2 fun c hc ↦ isPlain_of_isPathChar (List.all_eq_true.1 h c hc)

/-- The name of a package has such characters only. -/
theorem isPlain_of_isQualifiedName {name : String} (h : Parser.IsQualifiedName name) :
    name.toList.all isPlain = true := by
  obtain ⟨first, segments, hfirst, hsegments, rfl⟩ := h
  have plain {s : String} (hs : Parser.IsName s) : ∀ c ∈ s.toList, isPlain c = true := fun c hc ↦
    isPlain_of_isIdentPart (List.all_eq_true.1 (isIdentPart_of_isToken hs) c hc)
  refine List.all_eq_true.2 fun c hc ↦ ?_
  rw [Parser.dotted, String.toList_append, List.mem_append, String.toList_join,
    List.mem_flatMap] at hc
  obtain inFirst | ⟨segment, hsegment, hc⟩ := hc
  · exact plain hfirst c inFirst
  · obtain ⟨s, hs, rfl⟩ := List.mem_map.1 hsegment
    rw [String.toList_append, List.mem_append] at hc
    obtain dot | inName := hc
    · obtain rfl := List.mem_singleton.1 dot
      decide
    · exact plain (hsegments s hs) c inName

/-! ## Replacing in literals -/

/-- What is found has a dot, it and what replaces it are plain, and it is found in front of the next
character that is not. -/
structure ReplacesPlain (find : List Char → Option Replacement) : Prop where
  looksAtRun : LooksAtRun isPlain find
  dotted : ∀ cs r, find cs = some r → '.' ∈ cs
  plain : ∀ cs r, find cs = some r → ∃ name rest, cs = name ++ rest ∧ name.length = r.length ∧
    name.all isPlain = true ∧ r.text ≠ [] ∧ r.text.all isPlain = true

namespace ReplacesPlain

variable {find : List Char → Option Replacement} (h : ReplacesPlain find)

include h

/-- What stands behind a quote does not matter. -/
theorem find_quote {cs : List Char} (ends : EndsWithQuote cs) (more : List Char) :
    find (cs ++ more) = find cs := by
  obtain ⟨front, q, rfl⟩ := ends
  have quote (more : List Char) : (q.char :: more).head?.any isPlain = false := isPlain_quote q
  rw [List.append_assoc, List.singleton_append, h.looksAtRun.find_run front _ (quote more),
    h.looksAtRun.find_run front _ (quote [])]

/-- A text with replaced names has its literals with replaced names. -/
theorem literalsFrom_replaceNames (start : Bool) {p : Java.Lexer.Place} {cs : List Char}
    {l : List (List Char)} (read : literalsFrom p cs = some l) :
    literalsFrom p (replaceNames find 0 start cs) =
      some (p.edit (replaceNames find 0 start) (replaceNames find 0 true) l) := by
  induction n : cs.length using Nat.strongRecOn generalizing p start cs l with
  | ind n ih =>
  subst n
  by_cases found : start = true ∧ (find cs).isSome = true
  · obtain ⟨rfl, found⟩ := found
    obtain ⟨r, hr⟩ := Option.isSome_iff_exists.1 found
    obtain ⟨name, rest, rfl, length, plain, nonempty, plain'⟩ := h.plain cs r hr
    have pos : 0 < name.length := length ▸ (h.looksAtRun.length_le _ r hr).1
    have oneLine : '\n' ∉ name := fun hm ↦ absurd (List.all_eq_true.1 plain _ hm) (by decide)
    have replace {rest : List Char} (hr : find (name ++ rest) = some r) :
        replaceNames find 0 true (name ++ rest) = r.text ++ replaceNames find 0 false rest := by
      rw [h.looksAtRun.replaceNames_found oneLine hr (Nat.le_of_eq length.symm), ← length,
        List.drop_length, List.nil_append]
    rw [replace hr]
    refine literalsFrom_exchange (LooksAtRun.replaceNames_nil true)
      ⟨List.ne_nil_of_length_pos pos, plain⟩ ⟨nonempty, plain'⟩ read
      (fun l' hl' ↦ ih rest.length (by simp [pos]) _ hl' rfl) ?_
    rintro literal more ends rfl
    rw [← List.append_assoc, h.find_quote (ends.append name)] at hr
    exact replace hr
  · cases cs with
    | nil =>
      rw [LooksAtRun.replaceNames_nil, read, edit_atEnd (LooksAtRun.replaceNames_nil start) read]
    | cons c cs =>
      have none : start = true → find (c :: cs) = Option.none := fun hs ↦ by simpa [hs] using found
      rw [h.looksAtRun.replaceNames_cons none]
      refine literalsFrom_keep ⟨LooksAtRun.replaceNames_nil _, LooksAtRun.replaceNames_nil _⟩ read
        (fun next rest hrest ↦ ih cs.length (Nat.lt_succ_self _) _ hrest rfl) ?_ ?_
      · rintro literal more ends rfl
        refine h.looksAtRun.replaceNames_cons fun hs ↦ ?_
        rw [← h.find_quote ends more]
        exact none hs
      · rintro literal more ends rfl ⟨q, rfl⟩
        exact h.looksAtRun.replaceNames_cons fun _ ↦ h.looksAtRun.find_sep (isPlain_quote q)

/-- Nothing is replaced in a text without dots. -/
theorem replaceNames_undotted (start : Bool) {cs : List Char} (dot : '.' ∉ cs) :
    replaceNames find 0 start cs = cs := by
  induction cs generalizing start with
  | nil => exact LooksAtRun.replaceNames_nil start
  | cons c cs ih =>
    have none : find (c :: cs) = none := Option.eq_none_iff_forall_ne_some.2 fun r hr ↦
      dot (h.dotted _ r hr)
    rw [h.looksAtRun.replaceNames_cons fun _ ↦ none, ih _ fun hm ↦ dot (List.mem_cons_of_mem c hm)]

end ReplacesPlain

/-! ## Shortening -/

variable {imports : List ImportLine} (named : ∀ i ∈ imports, i.isWildcard = false → i.EndsWithName)

include named in
/-- What is put in for an imported name is plain, as is what it replaces. -/
theorem replacesPlain_findImported : ReplacesPlain (findImported (shortenable imports)) where
  looksAtRun := (looksAtRun_findImported named).mono fun _ ↦ isPlain_of_isPathChar
  dotted cs r hr := by
    obtain ⟨i, hi, single, starts, -⟩ := findImported_eq_some hr
    rw [startsWithPath, Bool.and_eq_true, List.isPrefixOf_iff_prefix] at starts
    obtain ⟨outer, -, -, path⟩ := named i hi single
    exact starts.1.subset (by simp [path])
  plain cs r hr := by
    obtain ⟨i, hi, single, starts, rfl⟩ := findImported_eq_some hr
    rw [startsWithPath, Bool.and_eq_true, List.isPrefixOf_iff_prefix] at starts
    obtain ⟨rest, rfl⟩ := starts.1
    obtain ⟨outer, -, hname, -⟩ := named i hi single
    obtain ⟨c, letters, hc, -⟩ := exists_cons_of_isName hname
    refine ⟨i.path.toList, rest, rfl, String.length_toList,
      all_isPlain (isPathChar_of_isDottedName (named i hi single).isDottedName), by simp [hc],
      List.all_eq_true.2 fun d hd ↦ ?_⟩
    exact isPlain_of_isIdentPart (isIdentPart_of_isNameChar (isNameChar_of_mem hname hd))

theorem replacesPlain_findImplicit {packages : List String}
    (h : ∀ package ∈ packages, package.toList.all isPlain = true) :
    ReplacesPlain (findImplicit packages) where
  looksAtRun := looksAtRun_findImplicit (fun _ ↦ isPlain_of_isPathChar) h
  dotted cs r hr := by
    obtain ⟨package, -, c, rest, rfl, -⟩ := findImplicit_eq_some hr
    simp
  plain cs r hr := by
    obtain ⟨package, hp, c, rest, rfl, upper, rfl⟩ := findImplicit_eq_some hr
    have letter : isPlain c = true := isPlain_of_isPathChar (isPathChar_of_upper upper)
    refine ⟨package.toList ++ ['.', c], rest, by simp, by simp [← String.length_toList], ?_,
      by simp,
      by simpa using letter⟩
    rw [List.all_append, h package hp, Bool.true_and]
    simp [letter]
    decide

section both

variable {package : Option String} (plain : ∀ p ∈ package, p.toList.all isPlain = true)

include plain

theorem replacesPlain_packages : ReplacesPlain (findImplicit ("java.lang" :: package.toList)) :=
  replacesPlain_findImplicit <| List.forall_mem_cons.2
    ⟨by decide, fun p hp ↦ plain p (Option.mem_toList.1 hp)⟩

include named

/-- The literals of a text with shortened names are its literals with shortened names. -/
theorem literalsFrom_shortenNames {cs : List Char} {l : List (List Char)}
    (read : literalsFrom .code cs = some l) :
    literalsFrom .code (shortenNames imports package cs) =
      some (l.map (shortenNames imports package)) := by
  have imported := (replacesPlain_findImported named).literalsFrom_replaceNames true read
  have both := (replacesPlain_packages plain).literalsFrom_replaceNames true imported
  rw [edit_outside rfl, edit_outside rfl, List.map_map] at both
  exact both

/-- A text without dots has no names to shorten. -/
theorem shortenNames_undotted {cs : List Char} (dot : '.' ∉ cs) :
    shortenNames imports package cs = cs := by
  rw [shortenNames, (replacesPlain_findImported named).replaceNames_undotted true dot,
    (replacesPlain_packages plain).replaceNames_undotted true dot]

end both

end Imports

end PlatformOverlay
