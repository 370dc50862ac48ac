import PlatformOverlay.Proofs.Java.Erasure.Layout
import PlatformOverlay.Proofs.Text.Blank

/-!
# Type parameters as they are read

A list of type parameters is cut at the commas outside all brackets (`splitArguments_append`), and
of a type parameter the word in front of `extends` is taken for its name and what is behind for its
bound.  So where the layout does not show, the variables are the names with the first of their
bounds erased (`typeVariables_sourceText`).

This is done on the text of the list, whose words have been joined with one blank between each two.
`Selects` is a reading of characters that blanks do not disturb, as that outside of brackets is
(`selects_outsideBrackets`), so how many blanks there were makes no difference to it
(`Selects.runs_spaced`). `TypeParamWords` are the words of one type parameter by their parts, and
`Listed` puts them in a row with the marks between them.
-/

open PlatformOverlay.Java.Parser

namespace PlatformOverlay

namespace Text

variable {cs ds run : List Char}

/-- The words of a text with one space between them. -/
def spaced (cs : List Char) : List Char := [' '].intercalate (runs (!isBlank ·) cs)

/-- The words of a text with one blank between them. -/
theorem toList_intercalate_words (text : String) :
    (String.intercalate " " (words text)).toList = spaced text.toList := by
  rw [words, String.toList_intercalate, List.map_map, spaced]
  congr 1
  exact List.map_id'' (fun run ↦ by simp) _

theorem spaced_blank {c : Char} (h : isBlank c = true) (cs : List Char) :
    spaced (c :: cs) = spaced cs := by
  rw [spaced, runs_sep (by simp [h]), spaced]

/-- A word in front of others is followed by one blank. -/
theorem spaced_run (nonempty : run ≠ []) (hrun : run.all (!isBlank ·) = true)
    (ends : cs.head?.any (!isBlank ·) = false) :
    spaced (run ++ cs) = run ++ if runs (!isBlank ·) cs = [] then [] else ' ' :: spaced cs := by
  rw [spaced, runs_run nonempty hrun ends]
  cases h : runs (!isBlank ·) cs with
  | nil => simp
  | cons r rs => simp [spaced, h, List.intercalate]

theorem runs_of_all_blank (h : ∀ c ∈ cs, isBlank c = true) : runs (!isBlank ·) cs = [] := by
  induction cs with
  | nil => rfl
  | cons c cs ih =>
    rw [List.forall_mem_cons] at h
    rw [runs_sep (by simp [h.1]), ih h.2]

theorem runs_blanks_append (h : ∀ c ∈ cs, isBlank c = true) (ds : List Char) :
    runs (!isBlank ·) (cs ++ ds) = runs (!isBlank ·) ds := by
  induction cs with
  | nil => rfl
  | cons c cs ih =>
    rw [List.forall_mem_cons] at h
    rw [List.cons_append, runs_sep (by simp [h.1]), ih h.2]

theorem runs_eq_nil_iff : runs (!isBlank ·) cs = [] ↔ ∀ c ∈ cs, isBlank c = true := by
  refine ⟨fun h c hc ↦ ?_, runs_of_all_blank⟩
  have left : cs.filter (!isBlank ·) = [] := by rw [← flatten_runs, h, List.flatten_nil]
  simpa using List.filter_eq_nil_iff.1 left c hc

theorem isEmpty_trim_iff {text : String} :
    (trim text).isEmpty = true ↔ ∀ c ∈ text.toList, isBlank c = true := by
  obtain ⟨front, e, hfront⟩ := exists_dropBlanks text.toList
  obtain ⟨back, e', hback⟩ := exists_dropBlanksEnd (dropBlanks text.toList)
  rw [String.isEmpty_iff, trim, String.ofList_eq_empty_iff]
  constructor
  · intro h c hc
    rw [h, List.nil_append] at e'
    rw [e, e', List.mem_append] at hc
    exact hc.elim (List.all_eq_true.1 hfront c) (List.all_eq_true.1 hback c)
  · intro h
    have none : dropBlanks text.toList = [] := by
      rw [← List.append_nil text.toList, dropBlanks_append (List.all_eq_true.2 h)]
      rfl
    rw [none]
    rfl

/-- A run that stands apart from what is in front of it. -/
theorem runs_append_run (front : ∀ c ∈ cs.getLast?, isBlank c = true) (nonempty : run ≠ [])
    (hrun : run.all (!isBlank ·) = true) (ends : ds.head?.any (!isBlank ·) = false) :
    runs (!isBlank ·) (cs ++ (run ++ ds)) =
      runs (!isBlank ·) cs ++ run :: runs (!isBlank ·) ds := by
  rcases List.eq_nil_or_concat cs with rfl | ⟨xs, c, rfl⟩
  · exact runs_run nonempty hrun ends
  · have hc : (!isBlank c) = false := by simpa using front c (by simp)
    rw [List.concat_eq_append, List.append_assoc, List.singleton_append, runs_append_sep hc,
      runs_append_sep hc, runs_nil, List.append_nil, runs_run nonempty hrun ends]

/-! ## What is left of spaced text -/

/-- Blanks do not change the state of this selection, and it is the state that decides whether they
are left. -/
structure Selects {σ : Type} (select : σ → List Char → List Char)
    (next : σ → List Char → σ) : Prop where
  nil : ∀ s, select s [] = []
  append : ∀ s xs ys, select s (xs ++ ys) = select s xs ++ select (next s xs) ys
  blank : ∀ s, (∀ c, isBlank c = true → select s [c] = [c]) ∨
    ∀ c, isBlank c = true → select s [c] = []
  next_blank : ∀ s c, isBlank c = true → next s [c] = s

namespace Selects

variable {σ : Type} {select : σ → List Char → List Char} {next : σ → List Char → σ} {s : σ}

/-- A blank in front is dealt with by itself. -/
theorem cons (h : Selects select next) {c : Char} (hc : isBlank c = true) (cs : List Char) :
    select s (c :: cs) = select s [c] ++ select s cs := by
  rw [← List.singleton_append, h.append, h.next_blank s c hc]

/-- How many blanks stand between words does not matter for the words that are left. -/
theorem runs_spaced (h : Selects select next) (s : σ) (cs : List Char) :
    runs (!isBlank ·) (select s (spaced cs)) = runs (!isBlank ·) (select s cs) := by
  -- Where blanks are dropped, what is left of a word joins what is left of those in front.
  have both (cs : List Char) :
      (∀ s, runs (!isBlank ·) (select s (spaced cs)) = runs (!isBlank ·) (select s cs)) ∧
      ∀ s, (∀ c, isBlank c = true → select s [c] = []) → ∀ xs,
        runs (!isBlank ·) (xs ++ select s (spaced cs)) = runs (!isBlank ·) (xs ++ select s cs) := by
    induction cs using runInduction (!isBlank ·) with
    | nil => exact ⟨fun _ ↦ rfl, fun _ _ _ ↦ rfl⟩
    | sep c cs hc ih =>
      have blank : isBlank c = true := by simpa using hc
      refine ⟨fun s ↦ ?_, fun s drops xs ↦ ?_⟩
      · rw [spaced_blank blank, ih.1, h.cons blank]
        obtain keeps | drops := h.blank s
        · rw [keeps c blank, List.singleton_append, runs_sep hc]
        · rw [drops c blank, List.nil_append]
      · rw [spaced_blank blank, ih.2 s drops, h.cons blank, drops c blank, List.nil_append]
    | run run cs nonempty hrun ends ih =>
      have behind (s : σ) (xs : List Char) : runs (!isBlank ·)
          (xs ++ select s (if runs (!isBlank ·) cs = [] then [] else ' ' :: spaced cs)) =
            runs (!isBlank ·) (xs ++ select s cs) := by
        cases cs with
        | nil => rfl
        | cons c cs =>
          have hc : (!isBlank c) = false := by simpa using ends
          have blank : isBlank c = true := by simpa using hc
          obtain keeps | drops := h.blank s
          · have left := ih.1 s
            have apart : runs (!isBlank ·) (xs ++ select s (c :: cs)) =
                runs (!isBlank ·) xs ++ runs (!isBlank ·) (select s (c :: cs)) := by
              rw [h.cons blank, keeps c blank, List.singleton_append, runs_append_sep hc,
                runs_sep hc]
            rw [apart, ← left]
            split
            next none => simp [spaced, none, h.nil]
            next =>
              rw [h.cons (c := ' ') (by decide), keeps ' ' (by decide), List.singleton_append,
                runs_append_sep (by decide)]
          · have left := ih.2 s drops xs
            rw [← left]
            split
            next none => simp [spaced, none]
            next => rw [h.cons (c := ' ') (by decide), drops ' ' (by decide), List.nil_append]
      refine ⟨fun s ↦ ?_, fun s _ xs ↦ ?_⟩
      · rw [spaced_run nonempty hrun ends, h.append, h.append, behind]
      · rw [spaced_run nonempty hrun ends, h.append, h.append, ← List.append_assoc, behind,
          List.append_assoc]
  exact (both cs).1 s

end Selects

end Text

namespace Java

open Lexer (IsToken)
open Text (isBlank words runs spaced)

variable {depth : Nat} {cs ds : List Char}

/-- The reading outside of brackets selects characters one by one, with the depth as its state. -/
theorem selects_outsideBrackets : Text.Selects outsideBrackets openBehind where
  nil _ := rfl
  append _ _ _ := outsideBrackets_append
  blank depth := by
    have none (c : Char) (hc : isBlank c = true) : NoAngles [c] := by
      constructor <;>
        (rw [List.mem_singleton]; rintro rfl; exact absurd hc (by decide))
    by_cases h : depth = 0
    · exact .inl fun c hc ↦ by rw [(none c hc).outsideBrackets_eq, if_pos h]
    · exact .inr fun c hc ↦ by rw [(none c hc).outsideBrackets_eq, if_neg h]
  next_blank depth c hc := by
    refine NoAngles.openBehind_eq ⟨?_, ?_⟩ <;>
      (rw [List.mem_singleton]; rintro rfl; exact absurd hc (by decide))

/-- The text up to an ampersand. -/
def upToAmpersand (cs : List Char) : List Char := cs.takeWhile (· != '&')

theorem upToAmpersand_append_of_mem (h : '&' ∈ cs) (ds : List Char) :
    upToAmpersand (cs ++ ds) = upToAmpersand cs := by
  induction cs with
  | nil => cases h
  | cons c cs ih =>
    by_cases hc : c = '&'
    · simp [upToAmpersand, hc]
    · have later : '&' ∈ cs := (List.mem_cons.1 h).resolve_left (Ne.symm hc)
      simpa [upToAmpersand, hc] using ih later

theorem upToAmpersand_append_of_notMem (h : '&' ∉ cs) (ds : List Char) :
    upToAmpersand (cs ++ ds) = cs ++ upToAmpersand ds :=
  List.takeWhile_append_of_pos fun c hc ↦ by simpa using fun e : c = '&' ↦ h (e ▸ hc)

theorem selects_upToAmpersand :
    Text.Selects (fun (passed : Bool) cs ↦ if passed then [] else upToAmpersand cs)
      (fun passed cs ↦ passed || cs.contains '&') where
  nil passed := by cases passed <;> rfl
  append passed xs ys := by
    cases passed with
    | true => rfl
    | false =>
      by_cases h : '&' ∈ xs
      · simp [h, upToAmpersand_append_of_mem]
      · have all : upToAmpersand xs = xs := by
          simpa [upToAmpersand] using upToAmpersand_append_of_notMem h []
        simp [h, upToAmpersand_append_of_notMem, all]
  blank passed := by
    cases passed with
    | true => exact .inr fun _ _ ↦ rfl
    | false =>
      refine .inl fun c hc ↦ ?_
      have : c ≠ '&' := by rintro rfl; exact absurd hc (by decide)
      simp [upToAmpersand, this]
  next_blank passed c hc := by
    have : c ≠ '&' := by rintro rfl; exact absurd hc (by decide)
    simp [this.symm]

/-- The erasure of a type depends on its words outside of brackets. -/
theorem eraseType_congr
    (h : runs (!isBlank ·) (outsideBrackets 0 cs) = runs (!isBlank ·) (outsideBrackets 0 ds)) :
    eraseType (String.ofList cs) = eraseType (String.ofList ds) := by
  simp only [eraseType, ErasedType.ofText, words, String.toList_ofList, h]

/-- The bound is erased as it is written, up to an ampersand. -/
theorem erasedBound_words (cs : List Char) :
    erasedBound (words (String.ofList cs)) =
      if (upToAmpersand cs).all isBlank then "Object"
      else eraseType (String.ofList (upToAmpersand cs)) := by
  have cut : runs (!isBlank ·) (upToAmpersand (spaced cs)) = runs (!isBlank ·) (upToAmpersand cs) :=
    selects_upToAmpersand.runs_spaced false cs
  have blank : (Text.trim (String.ofList (upToAmpersand (spaced cs)))).isEmpty = true ↔
      (upToAmpersand cs).all isBlank = true := by
    rw [Text.isEmpty_trim_iff, String.toList_ofList, ← Text.runs_eq_nil_iff, cut,
      Text.runs_eq_nil_iff, List.all_eq_true]
  have outer : runs (!isBlank ·) (outsideBrackets 0 (upToAmpersand (spaced cs))) =
      runs (!isBlank ·) (outsideBrackets 0 (upToAmpersand cs)) := by
    rw [← selects_outsideBrackets.runs_spaced, spaced, cut, ← spaced,
      selects_outsideBrackets.runs_spaced]
  rw [erasedBound, Text.toList_intercalate_words, String.toList_ofList, ← upToAmpersand,
    eraseType_congr outer]
  simp only [blank]

/-! ## Type parameters apart from each other -/

/-- The brackets open behind a text, if it has no comma outside all brackets. -/
def openWithin : Nat → List Char → Option Nat
  | depth, [] => some depth
  | depth, c :: cs =>
      if c = ',' ∧ depth = 0 then none
      else openWithin
        (if c = '<' ∨ c = '(' then depth + 1 else if c = '>' ∨ c = ')' then depth - 1 else depth) cs

/-- Which brackets are open behind two texts. -/
theorem openWithin_append :
    openWithin depth (cs ++ ds) = (openWithin depth cs).bind (openWithin · ds) := by
  induction cs generalizing depth with
  | nil => rfl
  | cons c cs ih =>
    rw [List.cons_append, openWithin, openWithin]
    split
    next => rfl
    next => exact ih

theorem splitArguments_ne_nil : splitArguments depth cs ≠ [] := by
  cases cs with
  | nil => exact List.cons_ne_nil _ _
  | cons c cs =>
    rw [splitArguments]
    split
    next => exact List.cons_ne_nil _ _
    next =>
      dsimp only [Text.extendFirst]
      split <;> exact List.cons_ne_nil _ _

/-- A text that closes its brackets belongs to the first argument. -/
theorem splitArguments_append {behind : Nat} (h : openWithin depth cs = some behind) :
    splitArguments depth (cs ++ ds) = (splitArguments behind ds).modifyHead (cs ++ ·) := by
  induction cs generalizing depth with
  | nil =>
    obtain rfl := Option.some.inj h
    rw [List.nil_append]
    cases splitArguments depth ds <;> rfl
  | cons c cs ih =>
    rw [openWithin] at h
    split at h
    next => cases h
    next other =>
      rw [List.cons_append, splitArguments, if_neg other,
        Text.extendFirst_eq_modifyHead c splitArguments_ne_nil, ih h, List.modifyHead_modifyHead]
      rfl

/-- Entries that close their brackets come back when they are joined by commas and split. -/
theorem splitArguments_intercalate {entries : List (List Char)} (nonempty : entries ≠ [])
    (closed : ∀ cs ∈ entries, openWithin 0 cs = some 0) :
    splitArguments 0 ([','].intercalate entries) = entries := by
  induction entries with
  | nil => exact absurd rfl nonempty
  | cons cs entries ih =>
    obtain ⟨here, later⟩ := List.forall_mem_cons.1 closed
    cases entries with
    | nil =>
      have alone := @splitArguments_append _ _ [] _ here
      rw [List.append_nil] at alone
      rw [List.intercalate_singleton, alone]
      simp [splitArguments]
    | cons ds entries =>
      rw [List.intercalate_cons_cons, List.append_assoc, splitArguments_append here,
        List.singleton_append, splitArguments, if_pos ⟨rfl, rfl⟩, ih (by simp) later]
      simp

/-! ## A type parameter -/

/-- The words of a type parameter. -/
structure TypeParamWords where
  annotations : List Word
  name : Word
  /-- `extends` and the bounds, if there are any. -/
  bounds : List Word
  /-- The comma or the bracket behind it. -/
  stop : Word

namespace TypeParamWords

variable (t : TypeParamWords)

def words : List Word := t.annotations ++ t.name :: (t.bounds ++ [t.stop])

/-- The text up to the name. -/
def front : List Char := textFrom t.annotations ++ t.name.gap.toList

/-- The text of the bounds. -/
def boundText : List Char := textFrom t.bounds.tail ++ t.stop.gap.toList

/-- The text up to the mark behind it. -/
def text : List Char := textFrom (t.annotations ++ t.name :: t.bounds) ++ t.stop.gap.toList

/-- What the type variable is erased to. -/
def bound : String := erasedBound (Text.words (String.ofList t.boundText))

/-- Blanks stand around the name and around `extends`. -/
def Apart : Prop :=
  (∀ c ∈ t.front.getLast?, isBlank c = true) ∧
    match t.bounds with
    | [] => ∀ c ∈ t.stop.gap.toList, isBlank c = true
    | e :: _ => e.text = "extends" ∧ e.gap ≠ "" ∧ (∀ c ∈ e.gap.toList, isBlank c = true) ∧
        ∀ c ∈ t.boundText.head?, isBlank c = true

/-- The layout does not show in what is taken for the name and for the bounds. -/
structure Plain : Prop where
  name : IsToken .ident t.name.text.toList ∧ NoBlanks t.name.text.toList
  apart : t.Apart
  /-- No comment or literal in front of the name has `extends` as a word. -/
  front : "extends" ∉ Text.words (String.ofList t.front)
  /-- The brackets are closed, and commas stand only within them. -/
  closed : openWithin 0 t.text = some 0

instance : Decidable t.Apart :=
  have first (c : Option Char) : Decidable (∀ d ∈ c, isBlank d = true) :=
    decidable_of_iff (c.all isBlank = true) (by cases c <;> simp)
  have all (cs : List Char) : Decidable (∀ c ∈ cs, isBlank c = true) := List.decidableBAll _ _
  match t with
  | ⟨_, _, [], _⟩ => @instDecidableAnd _ _ (first _) (all _)
  | ⟨_, _, _ :: _, _⟩ =>
    @instDecidableAnd _ _ (first _) <| @instDecidableAnd _ _ (instDecidableEqString _ _) <|
      @instDecidableAnd _ _ inferInstance <| @instDecidableAnd _ _ (all _) (first _)

instance : Decidable t.Plain :=
  decidable_of_iff ((IsToken .ident t.name.text.toList ∧ NoBlanks t.name.text.toList) ∧ t.Apart ∧
      "extends" ∉ Text.words (String.ofList t.front) ∧ openWithin 0 t.text = some 0)
    ⟨fun h ↦ ⟨h.1, h.2.1, h.2.2.1, h.2.2.2⟩, fun h ↦ ⟨h.name, h.apart, h.front, h.closed⟩⟩

variable {t}

/-- The text of a type parameter in front of its comma or closing bracket. -/
theorem text_eq : t.text = t.front ++ (t.name.text.toList ++
    (textFrom t.bounds ++ t.stop.gap.toList)) := by
  simp [text, front, textFrom, List.flatMap_append]

theorem textFrom_words : textFrom t.words = t.text ++ t.stop.text.toList := by
  simp [text, words, textFrom, List.flatMap_append]

theorem ne_extends {w : Word} (h : IsToken .ident w.text.toList) : w.text ≠ "extends" := by
  intro e
  rw [e] at h
  exact absurd h (by decide +kernel)

/-- The words of the bounds stand behind `extends`. -/
theorem Apart.words_bounds (h : t.Apart) :
    (textFrom t.bounds ++ t.stop.gap.toList).head?.any (!isBlank ·) = false ∧
      ((t.bounds = [] ∧ runs (!isBlank ·) (textFrom t.bounds ++ t.stop.gap.toList) = [] ∧
          runs (!isBlank ·) t.boundText = []) ∨
        runs (!isBlank ·) (textFrom t.bounds ++ t.stop.gap.toList) =
          "extends".toList :: runs (!isBlank ·) t.boundText) := by
  obtain ⟨-, h⟩ := h
  split at h
  next none =>
    have left := Text.runs_eq_nil_iff.2 h
    refine ⟨?_, .inl ⟨none, by simpa [none, textFrom] using left, ?_⟩⟩
    · cases gap : t.stop.gap.toList with
      | nil => simp [none, textFrom]
      | cons c cs => simpa [none, textFrom] using h c (by simp [gap])
    · simpa [boundText, none, textFrom] using left
  next e b some =>
    obtain ⟨text, nonempty, blank, behind⟩ := h
    have whole : textFrom t.bounds ++ t.stop.gap.toList =
        e.gap.toList ++ ("extends".toList ++ t.boundText) := by
      rw [some, textFrom_cons, text, boundText, some, List.tail_cons]
      simp
    have ends : t.boundText.head?.any (!isBlank ·) = false := by
      cases first : t.boundText.head? with
      | none => rfl
      | some c => simpa using behind c first
    refine ⟨?_, .inr ?_⟩
    · rw [whole]
      cases gap : e.gap.toList with
      | nil => exact absurd (String.toList_inj.1 gap) nonempty
      | cons c cs => simpa using blank c (by simp [gap])
    · rw [whole, Text.runs_blanks_append blank, Text.runs_run (by decide) (by decide) ends]

/-- A type parameter is read as its name and its bound. -/
theorem Plain.typeVariable?_eq (h : t.Plain) :
    typeVariable? (String.ofList t.text) = some (t.name.text, t.bound) := by
  obtain ⟨ends, behind⟩ := h.apart.words_bounds
  have all : t.name.text.toList.all (!isBlank ·) = true :=
    List.all_eq_true.2 fun c hc ↦ by simp [h.name.2 c hc]
  have runs_text : runs (!isBlank ·) t.text = runs (!isBlank ·) t.front ++
      t.name.text.toList :: runs (!isBlank ·) (textFrom t.bounds ++ t.stop.gap.toList) := by
    rw [text_eq, Text.runs_append_run h.apart.1 (IsToken.ne_nil h.name.1) all ends]
  have name := ne_extends h.name.1
  have front : ∀ word ∈ Text.words (String.ofList t.front) ++ [t.name.text],
      decide (word ≠ "extends") = true := by
    intro word hw
    obtain hw | hw := List.mem_append.1 hw
    · exact decide_eq_true fun e ↦ h.front (e ▸ hw)
    · exact decide_eq_true (List.mem_singleton.1 hw ▸ name)
  have parts : ∃ bounds, Text.words (String.ofList t.text) =
      (Text.words (String.ofList t.front) ++ [t.name.text]) ++ bounds ∧
        (bounds.head?.all (· = "extends")) = true ∧
        bounds.tail = Text.words (String.ofList t.boundText) := by
    refine ⟨Text.words (String.ofList (textFrom t.bounds ++ t.stop.gap.toList)), ?_, ?_, ?_⟩
    · simp [Text.words, runs_text]
    · obtain ⟨-, none, -⟩ | some := behind
      · simp [Text.words, none]
      · simp [Text.words, some]
    · obtain ⟨-, none, none'⟩ | some := behind
      · simp [Text.words, none, none']
      · simp [Text.words, some]
  obtain ⟨bounds, e, first, tail⟩ := parts
  have taken : bounds.takeWhile (· ≠ "extends") = [] ∧
      bounds.dropWhile (· ≠ "extends") = bounds := by
    cases bounds with
    | nil => exact ⟨rfl, rfl⟩
    | cons b bounds =>
      obtain rfl : b = "extends" := by simpa using first
      exact ⟨rfl, rfl⟩
  rw [typeVariable?, e, List.takeWhile_append_of_pos front, List.dropWhile_append_of_pos front,
    taken.1, taken.2, tail, List.append_nil, List.getLast?_concat]
  rfl

end TypeParamWords

/-! ## A list of type parameters -/

/-- A token that starts with an angle bracket is the bracket. -/
theorem kind_of_isToken_angle {kind : TokenKind} (h : IsToken kind ('<' :: cs)) :
    kind = .punct .lt := by
  have scanned : Lexer.scan ('<' :: cs) = some (.punct .lt, ['<'], cs) := rfl
  rw [IsToken, scanned] at h
  exact (congrArg Prod.fst (Option.some.inj h)).symm

/-- Words that are no opening bracket do not start with one, though comments may contain it. -/
theorem head?_charsOf_ne {ts : List Token} {k : List Char} (h : Lexer.Chained ts k)
    (kinds : ∀ t ∈ ts, t.kind ≠ .punct .lt) : (charsOf ts).head? ≠ some '<' := by
  cases ts with
  | nil => simp [charsOf]
  | cons t ts =>
    obtain ⟨blank, token, -⟩ := h
    rw [charsOf_cons]
    intro first
    cases skipped : t.blank.toList with
    | cons c cs =>
      rw [skipped, List.cons_append, List.head?_cons] at first
      exact absurd (blank c (by simp [skipped])) (by rw [Option.some.inj first]; decide)
    | nil =>
      cases text : t.text.toList with
      | nil => exact IsToken.ne_nil token text
      | cons c cs =>
        rw [skipped, text, List.nil_append, List.cons_append, List.head?_cons] at first
        rw [text, Option.some.inj first] at token
        exact kinds t List.mem_cons_self (kind_of_isToken_angle token)

/-- Behind a word stands no angle bracket but as a word. -/
theorem FromText.head?_ne {w v : Word} {ws : List Word} (h : FromText (w :: v :: ws))
    (kind : v.kind ≠ .punct .lt) : (v.gap.toList ++ v.text.toList).head? ≠ some '<' := by
  obtain ⟨cs, t, k, comments, kind', text, gap, front, -⟩ := h.exists_between
  have kinds : ∀ u ∈ cs ++ [t], u.kind ≠ .punct .lt := by
    intro u hu e
    obtain hu | hu := List.mem_append.1 hu
    · simpa [e, TokenKind.isComment] using comments u hu
    · rw [List.mem_singleton.1 hu, kind'] at e
      exact kind e
  have first := head?_charsOf_ne front kinds
  rwa [charsOf_append, charsOf_cons, charsOf_nil, List.append_nil, text, ← List.append_assoc,
    ← gap] at first

/-- Commas part the type parameters, and a bracket stands behind the last. -/
def Listed : List TypeParamWords → Prop
  | [] => False
  | [t] => t.stop.kind = .punct .gt
  | t :: ts => t.stop.kind = .punct .comma ∧ Listed ts

/-- The text of a parameter list is that of its entries with commas between them. -/
theorem textFrom_of_listed {ts : List TypeParamWords} (h : Listed ts)
    (tokens : ∀ t ∈ ts, IsToken t.stop.kind t.stop.text.toList) :
    textFrom (ts.flatMap (·.words)) = [','].intercalate (ts.map (·.text)) ++ ['>'] := by
  induction ts with
  | nil => exact h.elim
  | cons t ts ih =>
    obtain ⟨here, later⟩ := List.forall_mem_cons.1 tokens
    have first : textFrom ((t :: ts).flatMap (·.words)) =
        t.text ++ (t.stop.text.toList ++ textFrom (ts.flatMap (·.words))) := by
      rw [List.flatMap_cons, textFrom, List.flatMap_append, ← textFrom, ← textFrom,
        TypeParamWords.textFrom_words, List.append_assoc]
    rw [first]
    cases ts with
    | nil =>
      have stop : t.stop.text.toList = ['>'] := toList_text_of_isToken (h ▸ here)
      simp [stop, textFrom]
    | cons u us =>
      have stop : t.stop.text.toList = [','] := toList_text_of_isToken (h.1 ▸ here)
      rw [ih h.2 later, stop]
      simp only [List.map_cons, List.intercalate_cons_cons, List.append_assoc]

/-- The list without its brackets. -/
theorem insideBrackets_eq {w : Word} {ts : List TypeParamWords}
    (hw : IsToken (.punct .lt) w.text.toList) (h : Listed ts)
    (tokens : ∀ t ∈ ts, IsToken t.stop.kind t.stop.text.toList)
    (start : ∀ t ∈ ts.head?, t.text.head? ≠ some '<') (nonempty : ∀ t ∈ ts, t.text ≠ []) :
    insideBrackets (sourceText (w :: ts.flatMap (·.words))) =
      [','].intercalate (ts.map (·.text)) := by
  have text : (sourceText (w :: ts.flatMap (·.words))).toList =
      '<' :: ([','].intercalate (ts.map (·.text)) ++ ['>']) := by
    rw [toList_sourceText, toList_text_of_isToken hw, textFrom_of_listed h tokens]
    rfl
  have first : ([','].intercalate (ts.map (·.text))).head? ≠ some '<' := by
    cases ts with
    | nil => exact h.elim
    | cons t ts =>
      have here := start t rfl
      have some := nonempty t List.mem_cons_self
      cases ts with
      | nil => simpa using here
      | cons u us =>
        rw [List.map_cons, List.map_cons, List.intercalate_cons_cons, List.append_assoc]
        rw [List.head?_append_of_ne_nil _ some]
        exact here
  have trimmed : (Text.trim (sourceText (w :: ts.flatMap (·.words)))).toList =
      '<' :: ([','].intercalate (ts.map (·.text)) ++ ['>']) := by
    rw [Text.trim, String.toList_ofList, text, Text.dropBlanks_eq_self (by simp; decide),
      Text.dropBlanksEnd_eq_self (by simp [List.getLast?_cons]; decide)]
  have opened : ('<' :: ([','].intercalate (ts.map (·.text)) ++ ['>'])).dropWhile (· == '<') =
      [','].intercalate (ts.map (·.text)) ++ ['>'] := by
    rw [List.dropWhile_cons_of_pos rfl]
    cases inside : [','].intercalate (ts.map (·.text)) with
    | nil => rfl
    | cons c cs =>
      have other : c ≠ '<' := fun e ↦ first (by rw [inside, e, List.head?_cons])
      rw [List.cons_append, List.dropWhile_cons_of_neg (by simpa using other)]
  rw [insideBrackets, trimmed, opened, if_pos (by simp), List.dropLast_concat]

/-- The type variables of a list with their bounds. -/
theorem typeVariables_sourceText {w : Word} {ts : List TypeParamWords}
    (hw : IsToken (.punct .lt) w.text.toList) (h : Listed ts)
    (tokens : ∀ t ∈ ts, IsToken t.stop.kind t.stop.text.toList)
    (start : ∀ t ∈ ts.head?, t.text.head? ≠ some '<') (plain : ∀ t ∈ ts, t.Plain) :
    typeVariables (some (sourceText (w :: ts.flatMap (·.words)))) =
      ts.map fun t ↦ (t.name.text, t.bound) := by
  have nonempty : ∀ t ∈ ts, t.text ≠ [] := by
    intro t ht e
    rw [TypeParamWords.text_eq] at e
    exact IsToken.ne_nil (plain t ht).name.1 (by simp_all)
  have some : ts.map (·.text) ≠ [] := by
    cases ts with
    | nil => exact h.elim
    | cons t ts => simp
  rw [typeVariables, insideBrackets_eq hw h tokens start nonempty,
    splitArguments_intercalate some (by simpa using fun t ht ↦ (plain t ht).closed),
    List.filterMap_map]
  refine List.filterMap_eq_map_iff_forall_eq_some.2 fun t ht ↦ ?_
  exact (plain t ht).typeVariable?_eq

end Java

end PlatformOverlay
