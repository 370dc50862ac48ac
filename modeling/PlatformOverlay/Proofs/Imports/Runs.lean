import PlatformOverlay.Imports.Shorten
import PlatformOverlay.Proofs.Text.Runs

/-!
# Texts as runs of path characters

A name is looked for where one can start, which is at the start of each maximal run of the
characters that paths consist of, and nowhere else.  What is found depends on the run alone
(`LooksAtRun`), so replacing names replaces a front part of each run on its own (`replaceNames_run`)
and keeps what stands between the runs (`replaceNames_sep`).

Both passes of shortening are instances, and so would be any other search that reads paths.
-/

namespace PlatformOverlay

namespace Imports

/-- The characters of which paths consist. -/
def isPathChar (c : Char) : Bool := isNameChar c || c == '.'

/-- The characters between two given ones can be listed. -/
theorem mem_of_between {a b c : Char} (h : a ≤ c) (h' : c ≤ b) :
    c ∈ (List.range' a.toNat (b.toNat + 1 - a.toNat)).map Char.ofNat := by
  have lower : a.toNat ≤ c.toNat := h
  have upper : c.toNat ≤ b.toNat := h'
  exact List.mem_map.2 ⟨c.toNat, List.mem_range'_1.2 ⟨lower, by omega⟩, Char.ofNat_toNat c⟩

theorem isPathChar_of_isBlank {c : Char} (h : Text.isBlank c = true) : isPathChar c = false := by
  have range {a b : Char} (none : ((List.range' a.toNat (b.toNat + 1 - a.toNat)).map Char.ofNat).all
      (fun c ↦ !isPathChar c) = true) (hc : (decide (a ≤ c) && decide (c ≤ b)) = true) :
      isPathChar c = false := by
    rw [Bool.and_eq_true, decide_eq_true_eq, decide_eq_true_eq] at hc
    simpa using List.all_eq_true.1 none c (mem_of_between hc.1 hc.2)
  simp only [Text.isBlank, Bool.or_eq_true, beq_iff_eq] at h
  rcases h with ((((((((((h | rfl) | rfl) | rfl) | rfl) | h) | rfl) | rfl) | rfl) | rfl) | rfl)
  · exact range (by decide +kernel) h
  · decide +kernel
  · decide +kernel
  · decide +kernel
  · decide +kernel
  · exact range (by decide +kernel) h
  all_goals decide +kernel

theorem isBlank_of_isPathChar {c : Char} (h : isPathChar c = true) : Text.isBlank c = false := by
  rw [← Bool.not_eq_true]
  intro blank
  rw [isPathChar_of_isBlank blank] at h
  cases h

/-- What is found at the start of a text depends on the run of characters there, and it is in the
text. -/
structure LooksAtRun (isPart : Char → Bool) (find : List Char → Option Replacement) : Prop where
  find_run : ∀ run cs, cs.head?.any isPart = false → find (run ++ cs) = find run
  length_le : ∀ cs r, find cs = some r → 0 < r.length ∧ r.length ≤ cs.length

/-- Replace what is found at the front. -/
def replaceFront (find : List Char → Option Replacement) (run : List Char) : List Char :=
  match find run with
  | some r => r.text ++ run.drop r.length
  | none => run

theorem replaceFront_of_find_eq_none {find : List Char → Option Replacement} {run : List Char}
    (h : find run = none) : replaceFront find run = run := by
  rw [replaceFront, h]

namespace LooksAtRun

variable {isPart : Char → Bool} {find : List Char → Option Replacement} {c : Char} {cs : List Char}

theorem find_nil (h : LooksAtRun isPart find) : find [] = none := by
  cases hf : find [] with
  | none => rfl
  | some r =>
    have := h.length_le [] r hf
    simp at this
    omega

/-- What depends on a run depends on a longer one too. -/
theorem mono {isPart' : Char → Bool} (h : LooksAtRun isPart find)
    (sub : ∀ c, isPart c = true → isPart' c = true) : LooksAtRun isPart' find where
  find_run run cs hcs := h.find_run run cs (by cases cs with
    | nil => rfl
    | cons c cs => exact Bool.eq_false_iff.2 fun hc ↦ Bool.eq_false_iff.1 hcs (sub c hc))
  length_le := h.length_le

/-- Nothing is found in front of a character that belongs to no run. -/
theorem find_sep (h : LooksAtRun isPart find) (hcs : cs.head?.any isPart = false) :
    find cs = none := by
  have := h.find_run [] cs hcs
  rwa [List.nil_append, h.find_nil] at this

theorem replaceNames_of_find_eq_none (h : find cs = none) (lineStart : Bool) :
    replaceNames find 0 lineStart cs = replaceNames find 0 true cs := by
  cases cs with
  | nil => simp [replaceNames]
  | cons c cs => cases lineStart <;> simp [replaceNames, h]

@[simp] theorem replaceNames_nil (lineStart : Bool) : replaceNames find 0 lineStart [] = [] := by
  rw [replaceNames]

theorem not_lineEnd (hc : isPathChar c = true) : (c == '\n') = false := by
  cases hn : c == '\n' with
  | false => rfl
  | true => rw [eq_of_beq hn] at hc; exact absurd hc (by decide)

/-- Where nothing is found the character is kept, and a name can start behind it unless it is part
of one. -/
theorem replaceNames_cons (h : LooksAtRun isPart find) {start : Bool}
    (none : start = true → find (c :: cs) = none) :
    replaceNames find 0 start (c :: cs) = c :: replaceNames find 0 (!isPathChar c) cs := by
  have here : (if start then find (c :: cs) else Option.none) = Option.none := by
    split
    next starts => exact none starts
    next => rfl
  rw [replaceNames, here]
  cases hc : isPathChar c with
  | true =>
    have inside : (isNameChar c || c == '.') = true := hc
    simp only [inside, if_true, not_lineEnd hc, Bool.not_true]
  | false =>
    have outside : (isNameChar c || c == '.') = false := hc
    simp only [outside, Bool.false_eq_true, if_false, Bool.not_false]
    cases hf : find cs with
    | none => simp only [replaceNames_of_find_eq_none hf]
    | some r =>
      cases cs with
      | nil => rw [h.find_nil] at hf; cases hf
      | cons d ds =>
        obtain ⟨n, hn⟩ := Nat.exists_eq_add_one.2 (h.length_le _ _ hf).1
        simp [replaceNames, hf, hn]

/-- A character that is in no path stays, and a path may start behind it. -/
theorem replaceNames_sep (h : LooksAtRun isPathChar find) (hc : isPathChar c = false)
    (cs : List Char) :
    replaceNames find 0 true (c :: cs) = c :: replaceNames find 0 true cs := by
  rw [h.replaceNames_cons fun _ ↦ h.find_sep (by simpa using hc), hc, Bool.not_false]

/-- Behind the start of a run nothing is replaced. -/
theorem replaceNames_inside (h : LooksAtRun isPathChar find) {run cs : List Char}
    (hrun : run.all isPathChar = true) (hcs : cs.head?.any isPathChar = false) :
    replaceNames find 0 false (run ++ cs) = run ++ replaceNames find 0 true cs := by
  induction run with
  | nil => exact replaceNames_of_find_eq_none (h.find_sep hcs) false
  | cons c run ih =>
    rw [List.all_cons, Bool.and_eq_true] at hrun
    rw [List.cons_append, h.replaceNames_cons (by simp), hrun.1, Bool.not_true, ih hrun.2,
      List.cons_append]

/-- A replaced name is passed over character by character. -/
theorem replaceNames_skip (skip : Nat) (lineStart : Bool) {run cs : List Char}
    (oneLine : '\n' ∉ run)
    (h : skip < run.length) : replaceNames find (skip + 1) lineStart (run ++ cs) =
      replaceNames find 0 false (run.drop (skip + 1) ++ cs) := by
  induction skip generalizing run lineStart with
  | zero =>
    cases run with
    | nil => simp at h
    | cons c run =>
      have other : (c == '\n') = false := beq_false_of_ne (List.ne_of_not_mem_cons oneLine).symm
      rw [List.cons_append, replaceNames, other]
      rfl
  | succ skip ih =>
    cases run with
    | nil => simp at h
    | cons c run =>
      rw [List.cons_append, replaceNames,
        ih _ (List.not_mem_of_not_mem_cons oneLine) (by simpa using h)]
      rfl

/-- What is found where a name can start is replaced. -/
theorem replaceNames_found (h : LooksAtRun isPart find) {run cs : List Char} {r : Replacement}
    (oneLine : '\n' ∉ run) (found : find (run ++ cs) = some r) (le : r.length ≤ run.length) :
    replaceNames find 0 true (run ++ cs) =
      r.text ++ replaceNames find 0 false (run.drop r.length ++ cs) := by
  obtain ⟨n, hn⟩ := Nat.exists_eq_add_one.2 (h.length_le _ _ found).1
  rw [hn] at le
  obtain ⟨c, rest, rfl⟩ := List.exists_cons_of_length_pos (Nat.lt_of_lt_of_le n.succ_pos le)
  have skipped := @replaceNames_skip find n true (c :: rest) cs oneLine le
  rw [List.cons_append] at found skipped ⊢
  rw [replaceNames] at skipped
  rw [replaceNames, if_pos rfl, found]
  simp only [hn, Nat.add_sub_cancel, skipped]

/-- A run of path characters is replaced at its front only: behind it, no path starts before the
run ends. -/
theorem replaceNames_run (h : LooksAtRun isPathChar find) {run cs : List Char} (nonempty : run ≠ [])
    (hrun : run.all isPathChar = true) (hcs : cs.head?.any isPathChar = false) :
    replaceNames find 0 true (run ++ cs) = replaceFront find run ++
      replaceNames find 0 true cs := by
  have found := h.find_run run cs hcs
  rw [replaceFront]
  cases hf : find run with
  | none =>
    obtain ⟨c, rest, rfl⟩ := List.exists_cons_of_ne_nil nonempty
    rw [List.all_cons, Bool.and_eq_true] at hrun
    rw [hf, List.cons_append] at found
    rw [List.cons_append, h.replaceNames_cons fun _ ↦ found, hrun.1, Bool.not_true,
      h.replaceNames_inside hrun.2 hcs]
    rfl
  | some r =>
    have oneLine : '\n' ∉ run := fun hm ↦ absurd (List.all_eq_true.1 hrun _ hm) (by decide)
    rw [h.replaceNames_found oneLine (found.trans hf) (h.length_le _ _ hf).2, List.append_assoc,
      h.replaceNames_inside (List.all_eq_true.2 fun d hd ↦
        List.all_eq_true.1 hrun d (List.mem_of_mem_drop hd)) hcs]

end LooksAtRun

end Imports

end PlatformOverlay
