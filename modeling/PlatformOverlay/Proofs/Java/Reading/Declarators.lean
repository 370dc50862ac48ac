import PlatformOverlay.Proofs.Java.Reading.Declaration

/-!
# Reading the declarators of a field declaration

One declaration may declare several fields: behind the type stand declarators with commas between
them, each a name with brackets and an initial value, which is taken as text up to the semicolon or
to a comma with a declarator behind it.  As expressions are not parsed, a comma that belongs to the
value, as one between type arguments does, must not have behind it what could be a declarator:
exactly then is the declaration split at its declarators (`members_eq_ok_iff_of_declarators`).

`Declarators` is the declaration as it was meant, a list of words for each declarator with the mark
behind it. A declarator misleads (`Declarator.Misleads`) if in its value, outside all groups, there
is a comma with a name behind it that is the last word of the value or stands in front of a comma, a
semicolon, an equals sign or a bracket.

* If none does, the fields are read as they were meant, by induction on the declarators
  (`declarators_of_not_misleads`).
* If one does, its field is read with another initial value, which is shorter
  (`not_misleads_first_of_declarators`). So no later declarator can make up for it, and the result
  is another one or none.

## What is not claimed

That values with type arguments are read as they stand. Two of them are, as a closing bracket stands
behind the second; behind the first comma of three there is a name with a comma behind it
(`exists_declarators_not_read`).
-/

namespace PlatformOverlay.Java

/-- How many groups are open behind the words, if so many are open in front of them; none where
a mark closes a group that is not open.  Marks of all kinds count as one. -/
def openAfter : Nat → List Word → Option Nat
  | depth, [] => some depth
  | depth, w :: ws =>
      if Parser.opensGroup w.kind then openAfter (depth + 1) ws
      else if Parser.closesGroup w.kind then
        match depth with
        | 0 => none
        | depth + 1 => openAfter depth ws
      else openAfter depth ws

/-- All groups that are opened are closed. -/
def IsBalanced (ws : List Word) : Prop := openAfter 0 ws = some 0

instance (ws : List Word) : Decidable (IsBalanced ws) := inferInstanceAs (Decidable (_ = _))

/-- At some word outside all groups `p` holds of the words from there on. -/
def HoldsOutside (p : List Word → Prop) (ws : List Word) : Prop :=
  ∃ front back, ws = front ++ back ∧ back ≠ [] ∧ IsBalanced front ∧ p back

/-- Something holds outside of groups when it does behind a balanced part of the words. -/
theorem holdsOutside_iff {p : List Word → Prop} {ws : List Word} : HoldsOutside p ws ↔
    ∃ i < ws.length, IsBalanced (ws.take i) ∧ p (ws.drop i) := by
  constructor
  · rintro ⟨front, back, rfl, ne, hf, hp⟩
    refine ⟨front.length, ?_, by simpa using hf, by simpa using hp⟩
    have := List.length_pos_iff.2 ne
    simpa using this
  · rintro ⟨i, hi, hf, hp⟩
    exact ⟨_, _, (List.take_append_drop i ws).symm, by simpa using hi, hf, hp⟩

instance (p : List Word → Prop) [DecidablePred p] (ws : List Word) :
    Decidable (HoldsOutside p ws) :=
  decidable_of_iff _ holdsOutside_iff.symm

/-- A name stands first, and last or in front of a mark that may follow the name of a field. -/
def StartsDeclarator : List Word → Prop
  | [] => False
  | [n] => n.kind = .ident
  | n :: w :: _ => n.kind = .ident ∧ (w.kind = .punct .comma ∨ w.kind = .punct .semi ∨
      w.kind = .punct .lbracket ∨ w.shape = (.operator, "="))

instance : DecidablePred StartsDeclarator
  | [] => inferInstanceAs (Decidable False)
  | [_] => inferInstanceAs (Decidable (_ = _))
  | _ :: _ :: _ => inferInstanceAs (Decidable (_ ∧ _))

/-- In the words is a comma, outside all groups, behind which a declarator could start. -/
def ShowsDeclarator : List Word → Prop :=
  HoldsOutside fun ws ↦ Parser.isAt (.punct .comma) ws = true ∧ StartsDeclarator ws.tail

instance : DecidablePred ShowsDeclarator :=
  fun ws ↦ inferInstanceAs (Decidable (HoldsOutside _ ws))

/-- The words of an initial value. -/
structure IsValue (ws : List Word) : Prop where
  nonempty : ws ≠ []
  balanced : IsBalanced ws
  semi : ¬ HoldsOutside (Parser.isAt (.punct .semi) · = true) ws
  /-- No word is empty, as is true of all words that are read from a text. -/
  spelled : ∀ w ∈ ws, w.text ≠ ""

/-- A name, pairs of brackets, and perhaps an initial value behind an equals sign. -/
structure Declarator where
  name : Word
  brackets : List (Word × Word)
  value : Option (Word × List Word)
  isName : name.kind = .ident
  isBrackets : ∀ b ∈ brackets, b.1.kind = .punct .lbracket ∧ b.2.kind = .punct .rbracket
  isValue : ∀ v ∈ value, v.1.shape = (.operator, "=") ∧ IsValue v.2

namespace Declarator

def bracketWords (d : Declarator) : List Word := d.brackets.flatMap fun b ↦ [b.1, b.2]

def valueWords (d : Declarator) : List Word :=
  match d.value with
  | none => []
  | some v => v.1 :: v.2

def words (d : Declarator) : List Word := d.name :: (d.bracketWords ++ d.valueWords)

/-- The brackets that are written behind the name belong to the type. -/
def dims (d : Declarator) : String := String.join (d.brackets.map fun _ ↦ "[]")

def init (column : Nat) (d : Declarator) : Option Snippet :=
  d.value.map fun v ↦ ⟨sourceText v.2, column⟩

theorem valueWords_of_none {d : Declarator} (h : d.value = none) : d.valueWords = [] := by
  rw [valueWords, h]

theorem valueWords_of_some {d : Declarator} {v : Word × List Word} (h : d.value = some v) :
    d.valueWords = v.1 :: v.2 := by
  rw [valueWords, h]

def field (type : String) (column : Nat) (d : Declarator) : Field :=
  ⟨type ++ d.dims, d.name.text, d.init column⟩

/-- The initial value shows a declarator that is none. -/
def Misleads (d : Declarator) : Prop := ∃ v ∈ d.value, ShowsDeclarator v.2

instance : DecidablePred Misleads := fun d ↦ inferInstanceAs (Decidable (∃ v ∈ d.value, _))

end Declarator

/-- Declarators with commas between them, and the semicolon behind them. -/
inductive Declarators where
  | last (d : Declarator) (semi : Word) (h : semi.kind = .punct .semi)
  | cons (d : Declarator) (comma : Word) (h : comma.kind = .punct .comma) (more : Declarators)

namespace Declarators

def toList : Declarators → List Declarator
  | last d _ _ => [d]
  | cons d _ _ more => d :: more.toList

def words : Declarators → List Word
  | last d semi _ => d.words ++ [semi]
  | cons d comma _ more => d.words ++ comma :: more.words

def first : Declarators → Declarator
  | last d _ _ => d
  | cons d _ _ _ => d

/-- The words behind the first declarator. -/
def later : Declarators → List Word
  | last _ semi _ => [semi]
  | cons _ comma _ more => comma :: more.words

/-- The words behind the name of the first field. -/
def behind (ds : Declarators) : List Word :=
  ds.first.bracketWords ++ (ds.first.valueWords ++ ds.later)

/-- The words of declarators are those of the first and of the others. -/
theorem words_eq_append (ds : Declarators) : ds.words = ds.first.words ++ ds.later := by
  cases ds <;> rfl

theorem words_eq_cons (ds : Declarators) : ds.words = ds.first.name :: ds.behind := by
  simp [words_eq_append, behind, Declarator.words]

def fields (type : String) (column : Nat) (ds : Declarators) : List Field :=
  ds.toList.map (Declarator.field type column)

end Declarators

namespace Parser

variable {ws vs us rest left : List Word} {stop : List Word → Bool} {depth n : Nat}

/-! ## Text up to a mark -/

theorem openAfter_cons {w : Word} : openAfter depth (w :: ws) =
    if opensGroup w.kind then openAfter (depth + 1) ws
    else if closesGroup w.kind then
      match depth with
      | 0 => none
      | depth + 1 => openAfter depth ws
    else openAfter depth ws := by
  cases depth <;> rfl

/-- Words without a mark outside of groups are passed. -/
theorem seek_append (hb : openAfter depth ws = some n)
    (hs : ∀ front back, ws = front ++ back → back ≠ [] → openAfter depth front = some 0 →
      stop (back ++ rest) = false) :
    seek stop depth (ws ++ rest) = seek stop n rest := by
  induction ws generalizing depth with
  | nil =>
    cases hb
    rfl
  | cons w ws ih =>
    have here : ¬ (depth = 0 ∧ stop (w :: (ws ++ rest)) = true) := by
      rintro ⟨rfl, hstop⟩
      rw [← List.cons_append, hs [] (w :: ws) rfl (by simp) rfl] at hstop
      cases hstop
    have later : ∀ m, openAfter depth (w :: ws) = openAfter m ws →
        (∀ front, openAfter depth (w :: front) = openAfter m front) →
          seek stop m (ws ++ rest) = seek stop n rest := fun m e front ↦
      ih (e ▸ hb) fun f b hfb ne hf ↦ hs (w :: f) b (by rw [hfb]; rfl) ne ((front f).trans hf)
    rw [List.cons_append, seek_cons, if_neg here]
    by_cases ho : opensGroup w.kind = true
    · rw [if_pos ho]
      exact later (depth + 1) (by simp [openAfter, ho]) (by simp [openAfter, ho])
    rw [if_neg ho]
    by_cases hc : closesGroup w.kind = true
    · cases depth with
      | zero => simp [openAfter, ho, hc] at hb
      | succ depth =>
        rw [if_pos hc]
        exact later depth (by simp [openAfter, ho, hc]) (by simp [openAfter, ho, hc])
    · rw [if_neg hc]
      exact later depth (by simp [openAfter, ho, hc]) (by simp [openAfter, ho, hc])

/-- A mark outside of groups is not passed. -/
theorem suffix_of_seek {front back : List Word} (hf : openAfter depth front = some 0)
    (ne : back ≠ []) (hs : stop back = true) (h : seek stop depth (front ++ back) = .ok left) :
    back <:+ left := by
  induction front generalizing depth with
  | nil =>
    cases hf
    obtain ⟨w, back, rfl⟩ := List.exists_cons_of_ne_nil ne
    rw [List.nil_append, seek_cons, if_pos ⟨rfl, hs⟩] at h
    cases h
    exact List.suffix_rfl
  | cons w front ih =>
    rw [List.cons_append, seek_cons] at h
    rw [openAfter_cons] at hf
    split at h
    · cases h
      exact (List.suffix_append front back).trans (List.suffix_cons w _)
    split at h
    · rename_i ho
      rw [if_pos ho] at hf
      exact ih hf h
    rename_i ho
    rw [if_neg ho] at hf
    split at h
    · rename_i hc
      rw [if_pos hc] at hf
      cases depth with
      | zero => cases hf
      | succ depth => exact ih hf h
    · rename_i hc
      rw [if_neg hc] at hf
      exact ih hf h

/-- Balanced words are taken up to the mark behind them where none is in them. -/
theorem seek_eq_ok_iff (hb : IsBalanced ws) (ne : rest ≠ []) (hr : stop rest = true) :
    seek stop 0 (ws ++ rest) = .ok rest ↔
    ¬ HoldsOutside (fun us ↦ stop (us ++ rest) = true) ws := by
  constructor
  · rintro h ⟨front, back, rfl, hback, hf, hstop⟩
    rw [List.append_assoc] at h
    have := (suffix_of_seek hf (by simp [ne]) hstop h).length_le
    have := List.length_pos_iff.2 hback
    simp only [List.length_append] at *
    omega
  · intro h
    rw [seek_append hb fun front back e hback hf ↦ by
      simpa using fun hstop ↦ h ⟨front, back, e, hback, hf, hstop⟩]
    obtain ⟨r, rest, rfl⟩ := List.exists_cons_of_ne_nil ne
    rw [seek_cons, if_pos ⟨rfl, hr⟩]

/-! ## Initial values -/

/-- An initializer ends at a comma or a semicolon and at nothing else. -/
theorem not_isAt_of_endsInitializer {kind : TokenKind} (h : endsInitializer ws = true)
    (comma : kind ≠ .punct .comma) (semi : kind ≠ .punct .semi) : isAt kind ws = false := by
  rcases isAt_of_endsInitializer h with h | h
  · simp [isAt_eq_of_isAt h, comma.symm]
  · simp [isAt_eq_of_isAt h, semi.symm]

theorem ne_nil_of_endsInitializer (h : endsInitializer ws = true) : ws ≠ [] :=
  (isAt_of_endsInitializer h).elim ne_nil_of_isAt ne_nil_of_isAt

/-- What ends an initial value may follow the name of a field, too. -/
theorem isAtDeclarator_append_iff (hr : endsInitializer rest = true) :
    isAtDeclarator (us ++ rest) = true ↔ StartsDeclarator us := by
  match us with
  | [] =>
    have none : isAt .ident rest = false := not_isAt_of_endsInitializer hr (by simp) (by simp)
    simp [isAtDeclarator, none, StartsDeclarator]
  | [n] =>
    have mark : (isAt (.punct .comma) rest || isAt (.punct .semi) rest) = true := by
      simpa using isAt_of_endsInitializer hr
    simp [isAtDeclarator, isAt_cons, mark, StartsDeclarator]
  | n :: w :: us =>
    simp [isAtDeclarator, isAt_cons, isAtText_cons, StartsDeclarator, or_assoc]

/-- Whether the words of a value seem to end it is seen from these words, if any are left. -/
theorem endsInitializer_append_iff (ne : us ≠ []) (hr : endsInitializer rest = true) :
    endsInitializer (us ++ rest) = true ↔ isAt (.punct .semi) us = true ∨
      isAt (.punct .comma) us = true ∧ StartsDeclarator us.tail := by
  obtain ⟨u, us, rfl⟩ := List.exists_cons_of_ne_nil ne
  simp [endsInitializer, isAt_cons, isAtDeclarator_append_iff hr]

/-- The search for the end of a value stops inside it exactly if a declarator shows in the
value. -/
theorem holdsOutside_endsInitializer_iff (hv : IsValue ws) (hr : endsInitializer rest = true) :
    HoldsOutside (fun us ↦ endsInitializer (us ++ rest) = true) ws ↔ ShowsDeclarator ws := by
  constructor
  · rintro ⟨front, back, e, ne, hf, hstop⟩
    rcases (endsInitializer_append_iff ne hr).1 hstop with hs | hc
    · exact (hv.semi ⟨front, back, e, ne, hf, hs⟩).elim
    · exact ⟨front, back, e, ne, hf, hc⟩
  · rintro ⟨front, back, e, ne, hf, hc⟩
    exact ⟨front, back, e, ne, hf, (endsInitializer_append_iff ne hr).2 (.inr hc)⟩

theorem sourceText_cons_append {w : Word} : sourceText (w :: (ws ++ vs)) =
    sourceText (w :: ws) ++ String.join (vs.map fun v ↦ v.gap ++ v.text) := by
  simp [sourceText, String.append_assoc]

/-- Less than all of some words has another text. -/
theorem sourceText?_ne_of_append (ne : vs ≠ []) (spelled : ∀ v ∈ vs, v.text ≠ "") :
    sourceText? ws ≠ some (sourceText (ws ++ vs)) := by
  intro e
  cases ws with
  | nil => cases e
  | cons w ws =>
    obtain ⟨v, vs, rfl⟩ := List.exists_cons_of_ne_nil ne
    have same := congrArg String.length (Option.some.inj e)
    rw [List.cons_append, sourceText_cons_append, String.length_append] at same
    have short : (String.join ((v :: vs).map fun v ↦ v.gap ++ v.text)).length = 0 := by omega
    rw [List.map_cons, String.join_cons, String.length_append, String.length_append] at short
    have : v.text.length = 0 := by omega
    exact spelled v List.mem_cons_self (by simpa using this)

/-- A value in which no declarator shows is read to its end. -/
theorem textUntil_value (hv : IsValue ws) (hr : endsInitializer rest = true)
    (h : ¬ ShowsDeclarator ws) :
    textUntil endsInitializer (ws ++ rest) = .ok (some (sourceText ws), rest) := by
  have ne := ne_nil_of_endsInitializer hr
  refine textUntil_eq_ok.2 ⟨ws, rfl, (seek_eq_ok_iff hv.balanced ne hr).2 ?_, ?_⟩
  · rwa [holdsOutside_endsInitializer_iff hv hr]
  · obtain ⟨w, ws, rfl⟩ := List.exists_cons_of_ne_nil hv.nonempty
    rfl

/-- At a declarator that a value shows the text of the value would end too early. -/
theorem not_showsDeclarator_of_textUntil (hv : IsValue ws) (hr : endsInitializer rest = true)
    (h : textUntil endsInitializer (ws ++ rest) = .ok (some (sourceText ws), left)) :
    ¬ ShowsDeclarator ws := by
  rw [← holdsOutside_endsInitializer_iff hv hr]
  rintro ⟨front, back, rfl, ne, hf, hstop⟩
  obtain ⟨taken, e, hs, text⟩ := textUntil_eq_ok.1 h
  rw [List.append_assoc] at hs
  obtain ⟨between, rfl⟩ := suffix_of_seek hf (by simp [ne]) hstop hs
  obtain rfl : front = taken ++ between := by
    simpa [← List.append_assoc] using e
  rw [List.append_assoc] at text
  exact sourceText?_ne_of_append (by simp [ne])
    (fun w hw ↦ hv.spelled w (by simp only [List.mem_append] at hw ⊢; tauto)) text

theorem dims_append {bs : List (Word × Word)}
    (hb : ∀ b ∈ bs, b.1.kind = .punct .lbracket ∧ b.2.kind = .punct .rbracket)
    (hr : isAt (.punct .lbracket) rest = false) :
    dims (bs.flatMap (fun b ↦ [b.1, b.2]) ++ rest) =
      .ok (String.join (bs.map fun _ ↦ "[]"), rest) := by
  induction bs with
  | nil => exact dims_of_not_isAt hr
  | cons b bs ih =>
    obtain ⟨hb, hbs⟩ := List.forall_mem_cons.1 hb
    have later := Except.ok.inj (ih hbs)
    rw [dims, List.flatMap_cons, List.append_assoc, List.cons_append, List.cons_append,
      List.nil_append, brackets, if_pos hb, later]
    simp

section

variable {d : Declarator} {column : Nat}

theorem dims_bracketWords (hr : endsInitializer rest = true) :
    dims (d.bracketWords ++ (d.valueWords ++ rest)) = .ok (d.dims, d.valueWords ++ rest) := by
  refine dims_append d.isBrackets ?_
  cases hv : d.value with
  | none =>
    rw [Declarator.valueWords_of_none hv]
    exact not_isAt_of_endsInitializer hr (by simp) (by simp)
  | some v =>
    have kind : v.1.kind = .operator := congrArg Prod.fst (d.isValue v hv).1
    rw [Declarator.valueWords_of_some hv]
    simp [isAt_cons, kind]

/-- The initializer of a declarator that does not mislead is its value. -/
theorem fieldInit_valueWords (hr : endsInitializer rest = true) (h : ¬ d.Misleads) :
    fieldInit column (d.valueWords ++ rest) = .ok (d.init column, rest) := by
  cases hv : d.value with
  | none =>
    rw [Declarator.valueWords_of_none hv, Declarator.init, hv]
    exact fieldInit_of_not_isAt (not_isAt_of_endsInitializer hr (by simp) (by simp))
  | some v =>
    obtain ⟨equals, value⟩ := d.isValue v hv
    have read := textUntil_value value hr fun shows ↦ h ⟨v, hv, shows⟩
    rw [Declarator.valueWords_of_some hv, Declarator.init, hv, List.cons_append,
      fieldInit_cons equals, bind_of_ok read]
    rfl

/-- If the value of a declarator is read as it stands, then it does not mislead. -/
theorem not_misleads_of_fieldInit (hr : endsInitializer rest = true)
    (h : fieldInit column (d.valueWords ++ rest) = .ok (d.init column, left)) : ¬ d.Misleads := by
  rintro ⟨v, hv, shows⟩
  obtain ⟨equals, value⟩ := d.isValue v hv
  rw [Declarator.valueWords_of_some hv, Declarator.init, Option.mem_def.1 hv, List.cons_append,
    fieldInit_cons equals] at h
  obtain ⟨text, vs, ht, e⟩ := bind_eq_ok.1 h
  cases text with
  | none => exact fail_ne_ok e
  | some text =>
    cases e
    exact not_showsDeclarator_of_textUntil value hr ht shows

end

/-! ## Declarators -/

variable {d : Declarator} {ds : Declarators} {type : String} {column : Nat} {fs : List Field}

theorem isAtDeclarator_words (hr : endsInitializer rest = true) :
    isAtDeclarator (d.words ++ rest) = true := by
  rw [Declarator.words, List.cons_append, List.append_assoc]
  cases hb : d.brackets with
  | cons b bs =>
    have bracket := (d.isBrackets b (by simp [hb])).1
    simp [isAtDeclarator, isAt_cons, d.isName, Declarator.bracketWords, hb, bracket]
  | nil =>
    have none : d.bracketWords = [] := by
      rw [Declarator.bracketWords, hb]
      rfl
    rw [none, List.nil_append]
    cases hv : d.value with
    | none =>
      rw [Declarator.valueWords_of_none hv]
      rcases isAt_of_endsInitializer hr with mark | mark <;>
        simp [isAtDeclarator, isAt_cons, d.isName, mark]
    | some v =>
      rw [Declarator.valueWords_of_some hv]
      simp [isAtDeclarator, isAt_cons, isAtText_cons, d.isName, (d.isValue v hv).1]

/-- Behind a declarator stands the semicolon, or a comma with a further declarator behind it. -/
theorem endsInitializer_later : endsInitializer (ds.later ++ rest) = true := by
  induction ds with
  | last d semi hs => simp [Declarators.later, endsInitializer, isAt_cons, hs]
  | cons d comma hc more ih =>
    have next : isAtDeclarator (more.words ++ rest) = true := by
      rw [more.words_eq_append, List.append_assoc]
      exact isAtDeclarator_words ih
    simp [Declarators.later, endsInitializer, isAt_cons, hc, next]

/-- A declarator that does not mislead is read, and then the others if a comma follows. -/
theorem declarators_behind (h : ¬ ds.first.Misleads) :
    declarators type column ds.first.name.text (ds.behind ++ rest) = (do
      if ← eat (.punct .comma) then
        let next ← ident "field name"
        return ds.first.field type column :: (← declarators type column next)
      else
        let _ ← expect (.punct .semi) "';' after field"
        return [ds.first.field type column] : Parser (List Field)) (ds.later ++ rest) := by
  have ends : endsInitializer (ds.later ++ rest) = true := endsInitializer_later
  rw [Declarators.behind, List.append_assoc, List.append_assoc, declarators_eq,
    bind_of_ok (dims_bracketWords ends), bind_of_ok (fieldInit_valueWords ends h)]
  rfl

/-- In any case the first declarator is read as a field of its name and type. -/
theorem exists_of_declarators
    (h : declarators type column ds.first.name.text (ds.behind ++ rest) = .ok (fs, left)) :
    ∃ init us fs', fieldInit column (ds.first.valueWords ++ (ds.later ++ rest)) = .ok (init, us) ∧
      fs = ⟨type ++ ds.first.dims, ds.first.name.text, init⟩ :: fs' := by
  rw [Declarators.behind, List.append_assoc, List.append_assoc, declarators_eq,
    bind_of_ok (dims_bracketWords endsInitializer_later)] at h
  obtain ⟨init, us, hi, h₁⟩ := bind_eq_ok.1 h
  obtain ⟨comma, xs, -, h₂⟩ := bind_eq_ok.1 h₁
  refine ⟨init, us, ?_⟩
  cases comma with
  | true =>
    obtain ⟨_, _, -, h₃⟩ := bind_eq_ok.1 h₂
    obtain ⟨fs', _, -, e⟩ := bind_eq_ok.1 h₃
    cases e
    exact ⟨fs', hi, rfl⟩
  | false =>
    obtain ⟨_, _, -, e⟩ := bind_eq_ok.1 h₂
    cases e
    exact ⟨[], hi, rfl⟩

/-- A declarator with a comma behind it is read, and the others follow. -/
theorem declarators_cons {comma : Word} {hc : comma.kind = .punct .comma} {more : Declarators}
    (h : ¬ d.Misleads) :
    declarators type column d.name.text ((Declarators.cons d comma hc more).behind ++ rest) = (do
      return d.field type column :: (← declarators type column more.first.name.text) :
        Parser (List Field)) (more.behind ++ rest) := by
  have first : ¬ (Declarators.cons d comma hc more).first.Misleads := h
  refine (declarators_behind first).trans ?_
  rw [Declarators.later, more.words_eq_cons, List.cons_append, List.cons_append,
    bind_of_ok (eat_of_isAt (by simp [isAt_cons, hc])), if_pos rfl, List.tail_cons,
    bind_of_ok (ident_cons more.first.isName)]
  rfl

/-- The last declarator is read up to its semicolon. -/
theorem declarators_last {semi : Word} {hs : semi.kind = .punct .semi} (h : ¬ d.Misleads) :
    declarators type column d.name.text ((Declarators.last d semi hs).behind ++ rest) =
      .ok ([d.field type column], rest) := by
  have first : ¬ (Declarators.last d semi hs).first.Misleads := h
  refine (declarators_behind first).trans ?_
  rw [Declarators.later, List.cons_append, List.nil_append,
    bind_of_ok (eat_of_not_isAt (by simp [isAt_cons, hs])), if_neg (by simp),
    bind_of_ok (expect_cons hs)]
  rfl

/-- Declarators that do not mislead are read as their fields. -/
theorem declarators_of_not_misleads (h : ∀ d ∈ ds.toList, ¬ d.Misleads) :
    declarators type column ds.first.name.text (ds.behind ++ rest) =
      .ok (ds.fields type column, rest) := by
  induction ds with
  | last d semi hs => exact declarators_last (h d List.mem_cons_self)
  | cons d comma hc more ih =>
    obtain ⟨here, others⟩ := List.forall_mem_cons.1 h
    refine (declarators_cons here).trans ?_
    rw [bind_of_ok (ih others)]
    rfl

/-- Where a declarator misleads its field is read with another initial value. -/
theorem not_misleads_first_of_declarators
    (h : declarators type column ds.first.name.text (ds.behind ++ rest) = .ok (fs, left))
    (same : fs <+: ds.fields type column ∨ ds.fields type column <+: fs) : ¬ ds.first.Misleads := by
  obtain ⟨init, us, fs', hi, rfl⟩ := exists_of_declarators h
  obtain ⟨gs, hg⟩ : ∃ gs, ds.fields type column = ds.first.field type column :: gs := by
    cases ds <;> exact ⟨_, rfl⟩
  rw [hg, List.cons_prefix_cons, List.cons_prefix_cons] at same
  have e : init = ds.first.init column := by
    rcases same with ⟨e, -⟩ | ⟨e, -⟩
    · exact (Field.mk.inj e).2.2
    · exact (Field.mk.inj e).2.2.symm
  exact not_misleads_of_fieldInit endsInitializer_later (e ▸ hi)

/-- If fields are read that agree with those of the declarators as far as they go, then none of
the declarators misleads. By induction on them. -/
theorem not_misleads_of_declarators
    (h : declarators type column ds.first.name.text (ds.behind ++ rest) = .ok (fs, left))
    (same : fs <+: ds.fields type column ∨ ds.fields type column <+: fs) :
    ∀ d ∈ ds.toList, ¬ d.Misleads := by
  induction ds generalizing fs with
  | last d semi hs => exact List.forall_mem_singleton.2 (not_misleads_first_of_declarators h same)
  | cons d comma hc more ih =>
    have here : ¬ d.Misleads := not_misleads_first_of_declarators h same
    have h := (declarators_cons here).symm.trans h
    obtain ⟨gs, us, hgs, e⟩ := bind_eq_ok.1 h
    cases e
    refine List.forall_mem_cons.2 ⟨here, ih hgs ?_⟩
    exact same.imp (fun p ↦ (List.cons_prefix_cons.1 p).2) fun p ↦ (List.cons_prefix_cons.1 p).2

/-! ## Field declarations -/

section

variable {owner : TypeDecl}

/-- Behind the name of a field stand neither parameters nor type arguments. -/
theorem not_isAt_behind {kind : TokenKind} (hk : kind ≠ .punct .lbracket) (hk' : kind ≠ .operator)
    (comma : kind ≠ .punct .comma) (semi : kind ≠ .punct .semi) :
    isAt kind (ds.behind ++ rest) = false := by
  have next : isAtDeclarator (ds.words ++ rest) = true := by
    rw [ds.words_eq_append, List.append_assoc]
    exact isAtDeclarator_words endsInitializer_later
  rw [ds.words_eq_cons, List.cons_append] at next
  generalize ds.behind ++ rest = vs at next ⊢
  cases vs with
  | nil => rfl
  | cons w ws =>
    rw [isAt_cons]
    refine decide_eq_false ?_
    rintro rfl
    simp_all [isAtDeclarator, isAt_cons, isAtText_cons, Word.shape]

/-- A type in front of declarators makes them fields. -/
theorem contents_declarators (ht : ReadsAsType ws) (hs : StartsWithName ws) :
    contents owner column (ws ++ (ds.words ++ rest)) = (do
      return (← declarators (sourceText ws) column ds.first.name.text).map .field :
        Parser (List Content)) (ds.behind ++ rest) := by
  have name : isAt .ident (ds.words ++ rest) = true := by
    simp [ds.words_eq_cons, isAt_cons, ds.first.isName]
  have lt : isAt (.punct .lt) (ws ++ (ds.words ++ rest)) = false := by
    obtain ⟨w, us, rfl, hw, -⟩ := hs
    simp [isAt_cons, hw]
  have paren : isAt (.punct .lparen) (ds.behind ++ rest) = false :=
    not_isAt_behind (by simp) (by simp) (by simp) (by simp)
  rw [contents_eq, if_neg (by simp [lt]), contentsAfter, lookAhead_bind,
    if_neg (by simp [isAtConstructor_of_startsWithName hs name]),
    bind_of_ok (ht.type_eq_ok (.of_isAt name (by decide))), ds.words_eq_cons, List.cons_append,
    bind_of_ok (ident_cons ds.first.isName), lookAhead_bind, if_neg (by simp [paren])]

/-- A type and a declarator start the content of a member. -/
theorem startsContent_declarators (hs : StartsWithName ws) :
    StartsContent (ws ++ (ds.words ++ rest)) := by
  rw [ds.words_eq_cons, List.cons_append]
  refine .of_startsWithName hs ds.first.isName fun _ ↦ ⟨?_, ?_⟩
  · exact not_isAt_behind (by simp) (by simp) (by simp) (by simp)
  · exact not_isAt_behind (by simp) (by simp) (by simp) (by simp)

/-- A field with what stands in front of its declaration. -/
def fieldMember (doc : Option Snippet) (annotations : List Annotation)
    (ms : Modifiers) (f : Field) :
    Member :=
  .item ⟨doc, annotations, ms, .field f⟩

variable {annotations : List Annotation} {ms : Modifiers} {later : List Member}

/-- A field is known from the member it makes. -/
theorem fieldMember_injective {doc : Option Snippet} :
    (fieldMember doc annotations ms).Injective :=
  fun f g e ↦ by simpa [fieldMember] using e

/-- The members that start with a field declaration. -/
theorem members_declarators
    (hm : modifiers us = .ok ((annotations, ms), ws ++ (ds.words ++ rest)))
    (ht : ReadsAsType ws) (hs : StartsWithName ws) :
    members owner us = (do
      let fs ← declarators (sourceText ws) (startColumn us) ds.first.name.text
      return fs.map (fieldMember (us.head?.bind Word.doc) annotations ms) ++ (← members owner) :
        Parser (List Member)) (ds.behind ++ rest) := by
  have starts : StartsContent (ws ++ (ds.words ++ rest)) := startsContent_declarators hs
  have brace : isAt (.punct .lbrace) (ws ++ (ds.words ++ rest)) = false := by
    obtain ⟨w, us, rfl, hw, -⟩ := hs
    simp [isAt_cons, hw]
  rw [members_of_startsMember (starts.startsMember.of_modifiers hm), bind_apply, member,
    lookAhead_bind, lookAhead_bind, bind_of_ok hm]
  dsimp only
  rw [get_bind, if_neg (by simp [brace]), if_neg (by simp [starts.type]), bind_apply,
    contents_declarators ht hs, bind_apply, bind_apply]
  cases declarators (sourceText ws) (startColumn us) ds.first.name.text (ds.behind ++ rest) with
  | error e => rfl
  | ok r =>
    simp only [Except.bind, pure_apply, List.map_map]
    rfl

/-- If the members are read as the fields of the declarators and what follows, then none
misleads. -/
theorem not_misleads_of_members
    (hm : modifiers us = .ok ((annotations, ms), ws ++ (ds.words ++ rest)))
    (ht : ReadsAsType ws) (hs : StartsWithName ws)
    (h : members owner us = .ok ((ds.fields (sourceText ws) (startColumn us)).map
      (fieldMember (us.head?.bind Word.doc) annotations ms) ++ later, left)) :
    ∀ d ∈ ds.toList, ¬ d.Misleads := by
  rw [members_declarators hm ht hs] at h
  obtain ⟨fs, vs, hfs, h₁⟩ := bind_eq_ok.1 h
  obtain ⟨others, _, -, h₂⟩ := bind_eq_ok.1 h₁
  have e := (Prod.mk.inj (Except.ok.inj h₂)).1
  refine not_misleads_of_declarators hfs ?_
  rw [← List.prefix_map_iff_of_injective fieldMember_injective,
    ← List.prefix_map_iff_of_injective fieldMember_injective]
  exact List.prefix_or_prefix_of_prefix (List.prefix_append _ others)
    (e ▸ List.prefix_append _ later)

/-- A field declaration at the front of a body is read as one field for each declarator, all with
its comment, annotations and modifiers, exactly if no initial value shows a declarator. -/
theorem members_eq_ok_iff_of_declarators
    (hm : modifiers us = .ok ((annotations, ms), ws ++ (ds.words ++ rest)))
    (ht : typeWords ws = .ok ((), [])) (hi : isAt .ident ws = true) :
    members owner us = .ok (ds.toList.map (fun d ↦ .item ⟨us.head?.bind Word.doc, annotations, ms,
        .field (d.field (sourceText ws) (startColumn us))⟩) ++ later, left) ↔
      (∀ d ∈ ds.toList, ¬ d.Misleads) ∧ members owner rest = .ok (later, left) := by
  have asFields : ds.toList.map (fun d ↦ Member.item ⟨us.head?.bind Word.doc, annotations, ms,
      .field (d.field (sourceText ws) (startColumn us))⟩) =
        (ds.fields (sourceText ws) (startColumn us)).map
          (fieldMember (us.head?.bind Word.doc) annotations ms) := by
    simp [Declarators.fields, fieldMember]
  have isType : ReadsAsType ws := .of_typeWords ht
  have read : members owner us = _ := members_declarators hm isType (isType.startsWithName hi)
  rw [asFields]
  constructor
  · intro h
    have honest := not_misleads_of_members hm isType (isType.startsWithName hi) h
    rw [read, bind_of_ok (declarators_of_not_misleads honest)] at h
    obtain ⟨others, vs, hrest, h₁⟩ := bind_eq_ok.1 h
    obtain ⟨e, rfl⟩ := Prod.mk.inj (Except.ok.inj h₁)
    rw [List.append_cancel_left e] at hrest
    exact ⟨honest, hrest⟩
  · rintro ⟨honest, hrest⟩
    rw [read, bind_of_ok (declarators_of_not_misleads honest), bind_of_ok hrest]
    rfl

end

/-- A word with no comment in front of it, at the start of a text. -/
def wordOf (gap : String) (kind : TokenKind) (text : String) : Word :=
  ⟨kind, text, gap, none, .origin⟩

/-- The words of `new Map<…>()`. -/
def newMap (args : List Word) : List Word :=
  [wordOf " " .ident "new", wordOf " " .ident "Map", wordOf "" (.punct .lt) "<"] ++ args ++
    [wordOf "" (.punct .gt) ">", wordOf "" (.punct .lparen) "(",
      wordOf "" (.punct .rparen) ")"]

/-- The words of `K, V`. -/
def twoArguments : List Word :=
  [wordOf "" .ident "K", wordOf "" (.punct .comma) ",", wordOf " " .ident "V"]

/-- The words of `A, K, V`. -/
def threeArguments : List Word :=
  wordOf "" .ident "A" :: wordOf "" (.punct .comma) "," :: twoArguments

/-- A constructor call with two type arguments is a balanced value. -/
theorem isValue_newMap_two : IsValue (newMap twoArguments) := by
  refine ⟨?_, ?_, ?_, ?_⟩ <;> decide

theorem isValue_newMap_three : IsValue (newMap threeArguments) := by
  refine ⟨?_, ?_, ?_, ?_⟩ <;> decide

/-- The declarators of `m = new Map<…>(), n[];`. -/
def mapDeclarators {args : List Word} (h : IsValue (newMap args)) : Declarators :=
  .cons ⟨wordOf " " .ident "m", [], some (wordOf " " .operator "=", newMap args), rfl,
      by simp, by simpa using ⟨rfl, h⟩⟩ (wordOf "" (.punct .comma) ",") rfl
    (.last ⟨wordOf " " .ident "n",
      [(wordOf "" (.punct .lbracket) "[", wordOf "" (.punct .rbracket) "]")], none, rfl,
      by simp [wordOf], by simp⟩ (wordOf "" (.punct .semi) ";") rfl)

/-- The end of a body. -/
def closingBrace : List Word := [wordOf " " (.punct .rbrace) "\x7d"]

def mapType : List Word := [wordOf " " .ident "Map"]

/-- A private declaration of `m` and `n`, and the end of the body. -/
def mapBody {args : List Word} (h : IsValue (newMap args)) : List Word :=
  wordOf "" (.keyword (.modifier .priv)) "private" ::
    (mapType ++ ((mapDeclarators h).words ++ closingBrace))

/-- The modifier in front of the example's fields. -/
theorem modifiers_mapBody {args : List Word} (h : IsValue (newMap args)) :
    modifiers (mapBody h) =
      .ok (([], .ofList [.priv]), mapType ++ ((mapDeclarators h).words ++ closingBrace)) := by
  rfl

/-- The name behind the comma of two type arguments has nothing behind it that could follow the
name of a field. -/
theorem members_eq_ok_iff_of_declarators_map :
    let field (type name : String) (init : Option Snippet) : Member :=
      .item ⟨none, [], .ofList [.priv], .field ⟨type, name, init⟩⟩
    members (.bare .classType "C") (mapBody isValue_newMap_two) =
      .ok ([field "Map" "m" (some ⟨"new Map<K, V>()", 0⟩), field "Map[]" "n" none], []) :=
  (members_eq_ok_iff_of_declarators (modifiers_mapBody isValue_newMap_two) rfl rfl).2
    ⟨by decide, rfl⟩

/-- The name behind the first comma of three type arguments has a comma behind it, so that it is
taken for that of a further field. -/
theorem exists_declarators_not_read : ∃ (ds : Declarators) (us ws rest : List Word),
    modifiers us = .ok (([], .ofList [.priv]), ws ++ (ds.words ++ rest)) ∧
      typeWords ws = .ok ((), []) ∧ isAt .ident ws = true ∧
      members (.bare .classType "C") rest = .ok ([], []) ∧
      members (.bare .classType "C") us =
        .error ⟨.expected "';' after field" (some ">"), some .origin⟩ :=
  ⟨mapDeclarators isValue_newMap_three, mapBody isValue_newMap_three, mapType, closingBrace,
    modifiers_mapBody isValue_newMap_three, rfl, rfl, rfl, rfl⟩

end Parser

end PlatformOverlay.Java
