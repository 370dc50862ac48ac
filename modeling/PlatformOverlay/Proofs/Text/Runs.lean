import PlatformOverlay.Text.Blank
import Mathlib.Data.List.Basic

/-!
# Runs of a text

A text is taken apart into its maximal runs of characters of one sort, which are found one by one
(`runs_sep`, `runs_run`) and apart from each other (`runs_append_sep`), and hold all characters
of that sort (`flatten_runs`).
-/

namespace PlatformOverlay.Text

/-- A text is nothing, or a character between runs and a text, or a run and a text that does not
go on with it. -/
theorem runInduction (keep : Char → Bool) {motive : List Char → Prop} (nil : motive [])
    (sep : ∀ c cs, keep c = false → motive cs → motive (c :: cs))
    (run : ∀ run cs, run ≠ [] → run.all keep = true → cs.head?.any keep = false → motive cs →
      motive (run ++ cs)) (cs : List Char) : motive cs := by
  induction h : cs.length using Nat.strongRecOn generalizing cs with
  | ind n ih =>
    cases cs with
    | nil => exact nil
    | cons c cs =>
      cases hc : keep c with
      | false => exact sep c cs hc (ih _ (by rw [← h]; simp) cs rfl)
      | true =>
        rw [← List.takeWhile_append_dropWhile (p := keep) (l := c :: cs)]
        refine run _ _ (by simp [hc]) List.all_takeWhile ?_
          (ih _ ?_ _ rfl)
        · cases hd : ((c :: cs).dropWhile keep).head? with
          | none => rfl
          | some d => simpa [hd] using List.head?_dropWhile_not keep (c :: cs)
        · have : (cs.dropWhile keep).length ≤ cs.length :=
            (List.dropWhile_sublist keep).length_le
          rw [← h]
          simp [hc]
          omega

variable {keep : Char → Bool}

/-- The run that a text starts with, which may be empty, and the runs behind it. -/
def openedRuns (keep : Char → Bool) (cs : List Char) : List Char × List (List Char) :=
  cs.foldr (fun c (open_, done) ↦ if keep c then (c :: open_, done)
    else ([], if open_.isEmpty then done else open_ :: done)) ([], [])

/-- The runs of a text from those of its open form: a front run that is empty is not listed. -/
theorem runs_eq (cs : List Char) : runs keep cs =
    if (openedRuns keep cs).1.isEmpty then (openedRuns keep cs).2
    else (openedRuns keep cs).1 :: (openedRuns keep cs).2 := rfl

/-- A separator closes the run in front of it. -/
theorem openedRuns_sep {c : Char} (h : keep c = false) (cs : List Char) :
    openedRuns keep (c :: cs) = ([], runs keep cs) := by
  simp [openedRuns, runs, h]

/-- Characters that belong to a run are added to the run that is open. -/
theorem openedRuns_run {run : List Char} (hrun : run.all keep = true) (cs : List Char) :
    openedRuns keep (run ++ cs) = (run ++ (openedRuns keep cs).1, (openedRuns keep cs).2) := by
  induction run with
  | nil => rfl
  | cons c run ih =>
    rw [List.all_cons, Bool.and_eq_true] at hrun
    have step : openedRuns keep (c :: (run ++ cs)) =
        (c :: (openedRuns keep (run ++ cs)).1, (openedRuns keep (run ++ cs)).2) := by
      simp [openedRuns, hrun.1]
    rw [List.cons_append, step, ih hrun.2]
    rfl

@[simp] theorem runs_nil : runs keep [] = [] := rfl

/-- A separator in front of a text adds no run. -/
theorem runs_sep {c : Char} (h : keep c = false) (cs : List Char) :
    runs keep (c :: cs) = runs keep cs := by
  rw [runs_eq, openedRuns_sep h]
  rfl

/-- A run that ends, by a separator or with the text, is the first of the runs. -/
theorem runs_run {run cs : List Char} (nonempty : run ≠ []) (hrun : run.all keep = true)
    (ends : cs.head?.any keep = false) : runs keep (run ++ cs) = run :: runs keep cs := by
  have closed : openedRuns keep cs = ([], runs keep cs) := by
    cases cs with
    | nil => rfl
    | cons c cs =>
      have hc : keep c = false := by simpa using ends
      rw [openedRuns_sep hc, runs_sep hc]
  rw [runs_eq, openedRuns_run hrun, closed]
  simp [nonempty]

/-- The runs around a separator are those in front of it and those behind it. -/
theorem runs_append_sep {c : Char} (h : keep c = false) (xs ys : List Char) :
    runs keep (xs ++ c :: ys) = runs keep xs ++ runs keep ys := by
  induction xs using runInduction keep with
  | nil => rw [List.nil_append, runs_sep h, runs_nil, List.nil_append]
  | sep d xs hd ih => rw [List.cons_append, runs_sep hd, ih, runs_sep hd]
  | run run xs nonempty hrun hxs ih =>
    have behind : (xs ++ c :: ys).head?.any keep = false := by
      cases xs with
      | nil => simpa using h
      | cons d xs => simpa using hxs
    rw [List.append_assoc, runs_run nonempty hrun behind, ih, runs_run nonempty hrun hxs,
      List.cons_append]

theorem flatten_openedRuns (cs : List Char) :
    (openedRuns keep cs).1 ++ (openedRuns keep cs).2.flatten = cs.filter keep := by
  induction cs with
  | nil => rfl
  | cons c cs ih =>
    cases hc : keep c with
    | true =>
      have run : [c].all keep = true := by simp [hc]
      have opened := openedRuns_run run cs
      rw [List.singleton_append] at opened
      rw [opened, List.filter_cons_of_pos hc, ← ih]
      rfl
    | false =>
      rw [openedRuns_sep hc, runs_eq, List.filter_cons_of_neg (by simp [hc]), ← ih]
      cases h : (openedRuns keep cs).1 with
      | nil => rfl
      | cons d run => rfl

/-- The runs together are the characters that belong to runs, in order. -/
theorem flatten_runs (cs : List Char) : (runs keep cs).flatten = cs.filter keep := by
  rw [← flatten_openedRuns, runs_eq]
  cases h : (openedRuns keep cs).1 with
  | nil => rfl
  | cons d run => rfl

end PlatformOverlay.Text
