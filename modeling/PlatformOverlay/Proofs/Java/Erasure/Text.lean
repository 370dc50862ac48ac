import PlatformOverlay.Java.Erasure
import PlatformOverlay.Proofs.Text.Lines
import PlatformOverlay.Proofs.Text.Runs

/-!
# The text of an erased type

What is left of a type are the characters outside its angle brackets, so what a piece of text
leaves depends on the brackets that are open in front of it (`outsideBrackets_append`).  Where
nothing is an annotation the blanks between them go, too (`ofText_eq`).
-/

namespace PlatformOverlay

namespace Text

/-- Joining the words of a text takes its blanks out. -/
theorem toList_join_words (text : String) :
    (String.join (words text)).toList = text.toList.filter (!isBlank ·) := by
  rw [words, String.toList_join, List.flatMap_map, ← flatten_runs, List.flatMap_def]
  simp only [String.toList_ofList, List.map_id']

theorem afterLast_append {sep : Char} {cs ds : List Char} (h : sep ∉ ds) :
    afterLast sep (String.ofList (cs ++ sep :: ds)) = String.ofList ds := by
  rw [afterLast, splitOn, String.toList_ofList, splitChars_append, splitChars_of_notMem h]
  simp

theorem afterLast_of_notMem {sep : Char} {cs : List Char} (h : sep ∉ cs) :
    afterLast sep (String.ofList cs) = String.ofList cs := by
  rw [afterLast, splitOn, String.toList_ofList, splitChars_of_notMem h]
  simp

end Text

namespace Java

open Text (isBlank words)

variable {depth : Nat} {cs ds : List Char}

/-- The angle brackets that are open behind a text. -/
def openBehind : Nat → List Char → Nat
  | depth, [] => depth
  | depth, c :: cs =>
      openBehind (if c = '<' then depth + 1 else if c = '>' then depth - 1 else depth) cs

/-- What is outside of a text is found from the front, with the depth that the front part
leaves. -/
theorem outsideBrackets_append :
    outsideBrackets depth (cs ++ ds) =
      outsideBrackets depth cs ++ outsideBrackets (openBehind depth cs) ds := by
  induction cs generalizing depth with
  | nil => rfl
  | cons c cs ih =>
    rw [List.cons_append, outsideBrackets, outsideBrackets, openBehind]
    split
    next => exact ih
    split
    next => exact ih
    split
    next => rw [ih, List.cons_append]
    next => exact ih

/-- The text has no angle brackets. -/
def NoAngles (cs : List Char) : Prop := '<' ∉ cs ∧ '>' ∉ cs

instance (cs : List Char) : Decidable (NoAngles cs) := inferInstanceAs (Decidable (_ ∧ _))

/-- The text has no blanks. -/
def NoBlanks (cs : List Char) : Prop := ∀ c ∈ cs, isBlank c = false

instance (cs : List Char) : Decidable (NoBlanks cs) := List.decidableBAll _ _

theorem NoAngles.openBehind_eq (h : NoAngles cs) : openBehind depth cs = depth := by
  induction cs with
  | nil => rfl
  | cons c cs ih =>
    simp only [NoAngles, List.mem_cons, not_or] at h
    rw [openBehind, if_neg (Ne.symm h.1.1), if_neg (Ne.symm h.2.1), ih ⟨h.1.2, h.2.2⟩]

/-- A text without angle brackets is inside or outside as a whole. -/
theorem NoAngles.outsideBrackets_eq (h : NoAngles cs) :
    outsideBrackets depth cs = if depth = 0 then cs else [] := by
  induction cs with
  | nil => simp [outsideBrackets]
  | cons c cs ih =>
    simp only [NoAngles, List.mem_cons, not_or] at h
    rw [outsideBrackets, if_neg (Ne.symm h.1.1), if_neg (Ne.symm h.2.1), ih ⟨h.1.2, h.2.2⟩]
    split <;> rfl

/-- Without annotations, all that is not blank is left. -/
theorem ofText_eq {type : String} (h : '@' ∉ outsideBrackets 0 type.toList) :
    ErasedType.ofText type =
      let left := (outsideBrackets 0 type.toList).filter (!isBlank ·)
      ⟨Text.afterLast '.' (String.ofList (left.takeWhile (· != '['))),
        String.ofList (left.dropWhile (· != '['))⟩ := by
  have all : (words (String.ofList (outsideBrackets 0 type.toList))).filter
      (fun word ↦ !word.startsWith "@") =
        words (String.ofList (outsideBrackets 0 type.toList)) := by
    refine List.filter_eq_self.2 fun word hw ↦ ?_
    rw [Bool.not_eq_true', ← Bool.not_eq_true, String.startsWith_string_iff]
    intro start
    obtain ⟨run, hrun, rfl⟩ := List.mem_map.1 hw
    have at_ : '@' ∈ (Text.runs (fun c ↦ !isBlank c) (outsideBrackets 0 type.toList)).flatten := by
      refine List.mem_flatten.2 ⟨run, by simpa using hrun, ?_⟩
      simpa using start.subset (by simp : '@' ∈ "@".toList)
    rw [Text.flatten_runs] at at_
    exact h (List.mem_of_mem_filter at_)
  rw [ErasedType.ofText, all]
  simp only [Text.toList_join_words, String.toList_ofList]

end Java

end PlatformOverlay
