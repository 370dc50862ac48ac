import PlatformOverlay.Java.Signature
import PlatformOverlay.Proofs.Java.Erasure.Text
import PlatformOverlay.Proofs.Java.Parser.WellFormed

/-!
# Erased types and their layout

The words of a type outside its type arguments are names with dots between them and pairs of
brackets (`Steps`).  Erasing the text of a type reads them off where its layout does not show
(`ofText_sourceText`): where only blanks stand between these words, no name holds a blank, and no
comment or literal in the type arguments holds an angle bracket.  So the erased type of a parameter
is the last of the names with the brackets, however the type is laid out
(`erased_params_of_layout`).

Erasure works on the text of a type, character by character, and does not know of words. Three
readings of a type are compared for this:

1. The parser reads words, and what it takes for the rest of a type is made of segments, type
   arguments and brackets (`tailWords_of_typeTail`).
2. `outside` goes through the words and keeps those outside of type arguments, which are steps
   (`TailWords.steps`).
3. Erasure goes through the characters and keeps those outside of angle brackets. In a `PlainLayout`
   these are the characters of the words that are outside (`filter_outsideBrackets`).

## What is not claimed

In other layouts a comment or an angle bracket shows in the erased type, and a qualified name is
taken for a type variable that is called like its last segment (`exists_layout_shows`).
-/

open PlatformOverlay.Java.Parser

namespace PlatformOverlay.Java

open Lexer (Skipped IsToken)
open Text (isBlank)

variable {depth : Nat} {ws vs rest : List Word} {w : Word}

/-! ## Words outside type arguments -/

/-- How many type argument lists are open behind a word. -/
def depthBehind (depth : Nat) (w : Word) : Nat :=
  if w.kind = .punct .lt then depth + 1 else if w.kind = .punct .gt then depth - 1 else depth

/-- The words outside all type arguments; `depth` of them are open in front. -/
def outside : Nat → List Word → List Word
  | _, [] => []
  | depth, w :: ws =>
      if w.kind ≠ .punct .lt ∧ w.kind ≠ .punct .gt ∧ depth = 0 then w :: outside depth ws
      else outside (depthBehind depth w) ws

/-- The last name of a type outside type arguments. -/
def simpleName (ws : List Word) : String :=
  (((outside 0 ws).filter (·.kind = .ident)).getLast?.map Word.text).getD ""

/-- The number of pairs of brackets of a type. -/
def pairs (ws : List Word) : Nat := (outside 0 ws).countP (·.kind = .punct .lbracket)

/-- Pairs of brackets. -/
def dimsText (n : Nat) : String := String.join (List.replicate n "[]")

/-- What is outside of angle brackets is found from the front, with the depth that the front
part leaves. -/
theorem outside_append :
    outside depth (ws ++ vs) = outside depth ws ++ outside (ws.foldl depthBehind depth) vs := by
  induction ws generalizing depth with
  | nil => rfl
  | cons w ws ih =>
    rw [List.cons_append, outside, outside, List.foldl_cons]
    split
    next plain =>
      rw [ih, depthBehind, if_neg plain.1, if_neg plain.2.1, List.cons_append]
    next => rw [ih]

/-- A word that is no bracket is outside where nothing is open. -/
theorem outside_cons (lt : w.kind ≠ .punct .lt) (gt : w.kind ≠ .punct .gt) :
    outside 0 (w :: ws) = w :: outside 0 ws := if_pos ⟨lt, gt, rfl⟩

/-- Segments and pairs of brackets behind the first name of a type. -/
inductive Steps : List Word → Prop where
  | nil : Steps []
  | segment {d w : Word} {ws : List Word} : d.kind = .punct .dot → w.kind = .ident → Steps ws →
      Steps (d :: w :: ws)
  | brackets {l r : Word} {ws : List Word} : l.kind = .punct .lbracket →
      r.kind = .punct .rbracket → Steps ws → Steps (l :: r :: ws)

/-- Segments and bracket pairs one behind the other. -/
theorem Steps.append (h : Steps ws) (h' : Steps vs) : Steps (ws ++ vs) := by
  induction h with
  | nil => exact h'
  | segment hd hw _ ih => exact .segment hd hw ih
  | brackets hl hr _ ih => exact .brackets hl hr ih

/-- A closed group adds nothing to what is outside, and it leaves nothing open. -/
theorem outside_of_afterClosing {left : List Word}
    (h : afterClosing (.punct .lt) (.punct .gt) depth ws = some left) :
    ∃ taken, ws = taken ++ left ∧ outside (depth + 1) taken = [] ∧
      taken.foldl depthBehind (depth + 1) = 0 := by
  induction ws generalizing depth with
  | nil => simp [afterClosing] at h
  | cons w ws ih =>
    rw [afterClosing_cons] at h
    split at h
    next lt =>
      obtain ⟨taken, rfl, inside, closed⟩ := ih h
      have behind : depthBehind (depth + 1) w = depth + 1 + 1 := by rw [depthBehind, if_pos lt]
      exact ⟨w :: taken, rfl, by rw [outside, if_neg (by simp), behind, inside],
        by rw [List.foldl_cons, behind, closed]⟩
    split at h
    next other gt =>
      have behind : depthBehind (depth + 1) w = depth := by
        rw [depthBehind, if_neg other, if_pos gt, Nat.add_sub_cancel]
      cases depth with
      | zero =>
        obtain rfl := Option.some.inj h
        exact ⟨[w], rfl, by rw [outside, if_neg (by simp), outside], behind⟩
      | succ depth =>
        obtain ⟨taken, rfl, inside, closed⟩ := ih h
        exact ⟨w :: taken, rfl, by rw [outside, if_neg (by simp), behind, inside],
          by rw [List.foldl_cons, behind, closed]⟩
    next lt gt =>
      obtain ⟨taken, rfl, inside, closed⟩ := ih h
      have behind : depthBehind (depth + 1) w = depth + 1 := by
        rw [depthBehind, if_neg lt, if_neg gt]
      exact ⟨w :: taken, rfl, by rw [outside, if_neg (by simp), behind, inside],
        by rw [List.foldl_cons, behind, closed]⟩

/-- The words behind the first name of a type: segments, type arguments and pairs of brackets. -/
inductive TailWords : List Word → Prop where
  | nil : TailWords []
  | segment {d w : Word} {ws : List Word} : d.kind = .punct .dot → w.kind = .ident →
      TailWords ws → TailWords (d :: w :: ws)
  | arguments {v : Word} {inner ws : List Word} : v.kind = .punct .lt → outside 1 inner = [] →
      inner.foldl depthBehind 1 = 0 → TailWords ws → TailWords (v :: (inner ++ ws))
  | brackets {l r : Word} {ws : List Word} : l.kind = .punct .lbracket →
      r.kind = .punct .rbracket → TailWords ws → TailWords (l :: r :: ws)

/-- What follows the first name of a type is made of segments, type arguments and bracket pairs. -/
theorem tailWords_of_typeTail {ws : List Word} (h : typeTail () ws = .ok ((), [])) :
    TailWords ws := by
  rw [typeTail_eq] at h
  split at h
  next hc =>
    obtain ⟨hdot, hi⟩ := Bool.and_eq_true_iff.1 hc
    obtain ⟨d, _, rfl, hd⟩ := exists_of_isAt hdot
    obtain ⟨w, vs, rfl, hw⟩ := exists_of_isAt hi
    exact .segment hd hw (tailWords_of_typeTail h)
  split at h
  next hlt =>
    obtain ⟨_, vs, hb, h₁⟩ := bind_eq_ok.1 h
    have := ((strides_balanced _ _).advances _ _ _ hb).2
    obtain ⟨v, us, rfl, hv⟩ := exists_of_isAt hlt
    rw [balanced] at hb
    cases hc : afterClosing (.punct .lt) (.punct .gt) 0 us with
    | none => simp [hc, fail] at hb
    | some left =>
      rw [hc] at hb
      obtain rfl := congrArg Prod.snd (Except.ok.inj hb)
      obtain ⟨inner, rfl, inside, closed⟩ := outside_of_afterClosing hc
      exact .arguments hv inside closed (tailWords_of_typeTail h₁)
  split at h
  next hb =>
    obtain ⟨hopen, hclose⟩ := Bool.and_eq_true_iff.1 hb
    obtain ⟨l, _, rfl, hl⟩ := exists_of_isAt hopen
    obtain ⟨r, vs, rfl, hr⟩ := exists_of_isAt hclose
    exact .brackets hl hr (tailWords_of_typeTail h)
  next =>
    cases h
    exact .nil
termination_by ws.length

namespace TailWords

/-- Type arguments add nothing to what is outside. -/
theorem outside_arguments {v : Word} {inner : List Word} (hv : v.kind = .punct .lt)
    (inside : outside 1 inner = []) (closed : inner.foldl depthBehind 1 = 0) (ws : List Word) :
    outside 0 (v :: (inner ++ ws)) = outside 0 ws := by
  have behind : depthBehind 0 v = 1 := by rw [depthBehind, if_pos hv]
  rw [outside, if_neg (by simp [hv]), behind, outside_append, inside, closed, List.nil_append]

/-- Outside of the arguments there are segments and bracket pairs only. -/
theorem steps (h : TailWords ws) : Steps (outside 0 ws) := by
  induction h with
  | nil => exact .nil
  | segment hd hw _ ih =>
    rw [outside_cons (by simp [hd]) (by simp [hd]), outside_cons (by simp [hw]) (by simp [hw])]
    exact .segment hd hw ih
  | arguments hv inside closed _ ih =>
    rw [outside_arguments hv inside closed]
    exact ih
  | brackets hl hr _ ih =>
    rw [outside_cons (by simp [hl]) (by simp [hl]), outside_cons (by simp [hr]) (by simp [hr])]
    exact .brackets hl hr ih

theorem closed (h : TailWords ws) : ws.foldl depthBehind 0 = 0 := by
  induction h with
  | nil => rfl
  | segment hd hw _ ih => simpa [depthBehind, hd, hw] using ih
  | arguments hv _ closed _ ih =>
    rw [List.foldl_cons, depthBehind, if_pos hv, List.foldl_append, closed, ih]
  | brackets hl hr _ ih => simpa [depthBehind, hl, hr] using ih

end TailWords

/-! ## The text of a type -/

/-- The layout of a type does not show when it is erased.  Outside its type arguments only blanks
stand between the words and none in a name, and within them no comment and no literal holds an
angle bracket. -/
def PlainLayout : Nat → List Word → Prop
  | _, [] => True
  | depth, w :: ws =>
      (if depth = 0 then Skipped w.gap.toList ∧ NoBlanks w.text.toList
        else NoAngles w.gap.toList ∧
          (w.kind = .punct .lt ∨ w.kind = .punct .gt ∨ NoAngles w.text.toList)) ∧
      PlainLayout (depthBehind depth w) ws

instance (cs : List Char) : Decidable (Skipped cs) :=
  List.decidableBAll _ _

instance decidablePlainLayout : ∀ depth ws, Decidable (PlainLayout depth ws)
  | _, [] => inferInstanceAs (Decidable True)
  | depth, w :: ws =>
      have := decidablePlainLayout (depthBehind depth w) ws
      inferInstanceAs (Decidable ((if depth = 0 then _ ∧ _ else _) ∧ _))

/-- Two plain layouts one behind the other, the second read at the depth the first leaves. -/
theorem PlainLayout.append (h : PlainLayout depth ws)
    (h' : PlainLayout (ws.foldl depthBehind depth) vs) : PlainLayout depth (ws ++ vs) := by
  induction ws generalizing depth with
  | nil => exact h'
  | cons w ws ih => exact ⟨h.1, ih h.2 h'⟩

/-- Identifiers have no angle brackets in them. Comments can, which is why layouts are asked to
be plain. -/
theorem noAngles_of_isToken {t : List Char} (h : IsToken .ident t) : NoAngles t := by
  have part (c : Char) (hc : c ∈ t) : Lexer.isIdentPart c = true :=
    List.all_eq_true.1 (Lexer.isIdentPart_of_isToken h) c hc
  exact ⟨fun hm ↦ absurd (part _ hm) (by decide), fun hm ↦ absurd (part _ hm) (by decide)⟩

/-- A word is inside or outside as a whole, and only angle brackets change the depth. This
relates the reading of characters to that of words. -/
theorem outsideBrackets_word (depth : Nat) (token : IsToken w.kind w.text.toList)
    (h : w.kind = .punct .lt ∨ w.kind = .punct .gt ∨ NoAngles w.text.toList) :
    openBehind depth w.text.toList = depthBehind depth w ∧
      outsideBrackets depth w.text.toList =
        if w.kind ≠ .punct .lt ∧ w.kind ≠ .punct .gt ∧ depth = 0 then w.text.toList else [] := by
  by_cases lt : w.kind = .punct .lt
  · rw [lt] at token
    rw [toList_text_of_isToken token, depthBehind, if_pos lt, if_neg (by simp [lt])]
    exact ⟨rfl, rfl⟩
  by_cases gt : w.kind = .punct .gt
  · rw [gt] at token
    rw [toList_text_of_isToken token, depthBehind, if_neg lt, if_pos gt, if_neg (by simp [gt])]
    exact ⟨rfl, rfl⟩
  have none := (h.resolve_left lt).resolve_left gt
  rw [none.openBehind_eq, none.outsideBrackets_eq, depthBehind, if_neg lt, if_neg gt]
  simp [lt, gt]

/-- The gap in front of a word shows nothing outside. -/
theorem PlainLayout.gap (h : PlainLayout depth (w :: ws)) :
    NoAngles w.gap.toList ∧ (outsideBrackets depth w.gap.toList).filter (!isBlank ·) = [] := by
  have here := h.1
  split at here
  next zero =>
    have none : NoAngles w.gap.toList :=
      ⟨fun hm ↦ absurd (here.1 _ hm) (by decide), fun hm ↦ absurd (here.1 _ hm) (by decide)⟩
    refine ⟨none, ?_⟩
    rw [none.outsideBrackets_eq, if_pos zero, List.filter_eq_nil_iff]
    exact fun c hc ↦ by simp [Lexer.isBlank_of_isSkipped (here.1 c hc)]
  next deep => exact ⟨here.1, by rw [here.1.outsideBrackets_eq, if_neg deep]; rfl⟩

/-- What a plain layout leaves of a type are its words outside type arguments. -/
theorem filter_outsideBrackets (tokens : ∀ w ∈ ws, IsToken w.kind w.text.toList)
    (apart : ∀ w ∈ outside depth ws, NoAngles w.text.toList) (plain : PlainLayout depth ws) :
    (outsideBrackets depth (textFrom ws)).filter (!isBlank ·) =
      (outside depth ws).flatMap (·.text.toList) := by
  induction ws generalizing depth with
  | nil => rfl
  | cons w ws ih =>
    obtain ⟨hw, hws⟩ := List.forall_mem_cons.1 tokens
    obtain ⟨gap, gapLeft⟩ := plain.gap
    obtain ⟨here, later⟩ := plain
    have angles : w.kind = .punct .lt ∨ w.kind = .punct .gt ∨ NoAngles w.text.toList := by
      by_cases mark : w.kind = .punct .lt ∨ w.kind = .punct .gt
      · exact mark.imp_right .inl
      obtain ⟨lt, gt⟩ := not_or.1 mark
      refine .inr (.inr ?_)
      split at here
      next zero => exact apart w (by rw [outside, if_pos ⟨lt, gt, zero⟩]; exact List.mem_cons_self)
      next => exact (here.2.resolve_left lt).resolve_left gt
    obtain ⟨behind, left⟩ := outsideBrackets_word depth hw angles
    rw [textFrom_cons, outsideBrackets_append, List.filter_append, gapLeft, List.nil_append,
      gap.openBehind_eq, outsideBrackets_append, List.filter_append, behind, left]
    rw [outside] at apart ⊢
    split
    next plain =>
      rw [if_pos plain] at apart
      rw [if_pos plain.2.2] at here
      have same : depthBehind depth w = depth := by
        rw [depthBehind, if_neg plain.1, if_neg plain.2.1]
      rw [same] at later
      rw [same, ih hws (List.forall_mem_cons.1 apart).2 later, List.flatMap_cons,
        List.filter_eq_self.2 fun c hc ↦ by simp [here.2 c hc]]
    next deep =>
      rw [if_neg deep] at apart
      rw [ih hws apart later]
      rfl

/-- No segment stands behind brackets. -/
def DimsLast (ws : List Word) : Prop :=
  ws.Pairwise fun v w ↦ v.kind = .punct .lbracket → w.kind ≠ .punct .dot

instance (ws : List Word) : Decidable (DimsLast ws) := inferInstanceAs (Decidable (ws.Pairwise _))

theorem toList_dimsText (n : Nat) :
    (dimsText n).toList = (List.replicate n ['[', ']']).flatten := by
  induction n with
  | zero => rfl
  | succ n ih =>
    rw [dimsText, List.replicate_succ, String.join_cons, String.toList_append, ← dimsText, ih]
    rfl

theorem dimsText_add (m n : Nat) : dimsText (m + n) = dimsText m ++ dimsText n := by
  rw [← String.toList_inj, String.toList_append, toList_dimsText, toList_dimsText, toList_dimsText,
    List.replicate_add, List.flatten_append]

theorem text_of_brackets {l r : Word}
    (tokens : IsToken l.kind l.text.toList ∧ IsToken r.kind r.text.toList)
    (hl : l.kind = .punct .lbracket) (hr : r.kind = .punct .rbracket) :
    l.text.toList = ['['] ∧ r.text.toList = [']'] := by
  rw [hl, hr] at tokens
  exact ⟨toList_text_of_isToken tokens.1, toList_text_of_isToken tokens.2⟩

/-- Behind brackets there are only brackets. -/
theorem Steps.text_of_no_dot (steps : Steps ws) (tokens : ∀ w ∈ ws, IsToken w.kind w.text.toList)
    (noDot : ∀ w ∈ ws, w.kind ≠ .punct .dot) :
    ws.filter (·.kind = .ident) = [] ∧
      ws.flatMap (·.text.toList) = (dimsText (ws.countP (·.kind = .punct .lbracket))).toList := by
  induction steps with
  | nil => exact ⟨rfl, rfl⟩
  | segment hd _ _ _ => exact absurd hd (noDot _ List.mem_cons_self)
  | @brackets l r ws hl hr _ ih =>
    simp only [List.forall_mem_cons] at tokens noDot
    obtain ⟨names, text⟩ := ih tokens.2.2 noDot.2.2
    obtain ⟨left, right⟩ := text_of_brackets ⟨tokens.1, tokens.2.1⟩ hl hr
    refine ⟨by simpa [hl, hr] using names, ?_⟩
    rw [List.flatMap_cons, List.flatMap_cons, text, left, right, toList_dimsText, toList_dimsText]
    simp [hl, hr, List.replicate_succ]

theorem notMem_of_isIdentPart {c : Char} {t : List Char} (h : IsToken .ident t)
    (hc : Lexer.isIdentPart c = false) : c ∉ t := by
  intro hm
  rw [List.all_eq_true.1 (Lexer.isIdentPart_of_isToken h) c hm] at hc
  cases hc

theorem span_bracket {front k : List Char} (h : '[' ∉ front) (hk : ∀ c ∈ k.head?, c = '[') :
    (front ++ k).takeWhile (· != '[') = front ∧ (front ++ k).dropWhile (· != '[') = k := by
  have inside : ∀ c ∈ front, (c != '[') = true := fun c hc ↦ by
    simpa using fun e : c = '[' ↦ h (e ▸ hc)
  rw [List.takeWhile_append_of_pos inside, List.dropWhile_append_of_pos inside]
  cases k with
  | nil => simp
  | cons c k => simp [hk c rfl]

theorem head?_dimsText (n : Nat) : ∀ c ∈ (dimsText n).toList.head?, c = '[' := by
  cases n with
  | zero => simp [dimsText]
  | succ n => simp [toList_dimsText, List.replicate_succ]

/-- The simple name of a dotted name is its last segment. -/
theorem afterLast_name {front name : List Char} (h : '.' ∉ name)
    (dotted : front = [] ∨ ∃ f, front = f ++ ['.']) :
    Text.afterLast '.' (String.ofList (front ++ name)) = String.ofList name := by
  obtain rfl | ⟨f, rfl⟩ := dotted
  · exact Text.afterLast_of_notMem h
  · rw [List.append_assoc, List.singleton_append, Text.afterLast_append h]

/-- Without segments, the text of a type is its name and then its brackets. -/
theorem Steps.split_text_of_no_dot (steps : Steps ws)
    (tokens : ∀ w ∈ ws, IsToken w.kind w.text.toList) (noDot : ∀ v ∈ ws, v.kind ≠ .punct .dot)
    {front : List Char} (hw : w.kind = .ident) (hname : IsToken .ident w.text.toList)
    (noBracket : '[' ∉ front) (dotted : front = [] ∨ ∃ f, front = f ++ ['.']) :
    Text.afterLast '.' (String.ofList
        ((front ++ (w.text.toList ++ ws.flatMap (·.text.toList))).takeWhile (· != '['))) =
        (((w :: ws).filter (·.kind = .ident)).getLast?.map Word.text).getD "" ∧
      (front ++ (w.text.toList ++ ws.flatMap (·.text.toList))).dropWhile (· != '[') =
        (dimsText (ws.countP (·.kind = .punct .lbracket))).toList := by
  have dot : '.' ∉ w.text.toList := notMem_of_isIdentPart hname (by decide)
  have bracket : '[' ∉ w.text.toList := notMem_of_isIdentPart hname (by decide)
  have plain : '[' ∉ front ++ w.text.toList := by simp [noBracket, bracket]
  obtain ⟨names, text⟩ := steps.text_of_no_dot tokens noDot
  obtain ⟨taken, left⟩ :=
    span_bracket plain (head?_dimsText (ws.countP (·.kind = .punct .lbracket)))
  rw [← List.append_assoc, text, taken, left, afterLast_name dot dotted,
    List.filter_cons_of_pos (by simpa using hw), names]
  exact ⟨by simp, rfl⟩

/-- Dots part the last name of a type from what is in front of it, brackets from the rest. -/
theorem Steps.split_text (steps : Steps ws) (tokens : ∀ w ∈ ws, IsToken w.kind w.text.toList)
    (order : DimsLast ws) {front : List Char} (hw : w.kind = .ident)
    (hname : IsToken .ident w.text.toList) (noBracket : '[' ∉ front)
    (dotted : front = [] ∨ ∃ f, front = f ++ ['.']) :
    Text.afterLast '.' (String.ofList
        ((front ++ (w.text.toList ++ ws.flatMap (·.text.toList))).takeWhile (· != '['))) =
        (((w :: ws).filter (·.kind = .ident)).getLast?.map Word.text).getD "" ∧
      (front ++ (w.text.toList ++ ws.flatMap (·.text.toList))).dropWhile (· != '[') =
        (dimsText (ws.countP (·.kind = .punct .lbracket))).toList := by
  induction steps generalizing front w with
  | nil => exact Steps.nil.split_text_of_no_dot tokens (by simp) hw hname noBracket dotted
  | @brackets l r ws hl hr steps _ =>
    have noDot : ∀ v ∈ l :: r :: ws, v.kind ≠ .punct .dot :=
      List.forall_mem_cons.2 ⟨by simp [hl], fun v hv ↦ (List.pairwise_cons.1 order).1 v hv hl⟩
    exact (Steps.brackets hl hr steps).split_text_of_no_dot tokens noDot hw hname noBracket dotted
  | @segment d v ws hd hv steps ih =>
    obtain ⟨hdt, hvt, tokens⟩ : IsToken d.kind d.text.toList ∧ IsToken v.kind v.text.toList ∧
        ∀ w ∈ ws, IsToken w.kind w.text.toList := by simpa using tokens
    have dot : d.text.toList = ['.'] := toList_text_of_isToken (hd ▸ hdt)
    have order : DimsLast ws := (List.pairwise_cons.1 (List.pairwise_cons.1 order).2).2
    have bracket : '[' ∉ w.text.toList := notMem_of_isIdentPart hname (by decide)
    have front' : '[' ∉ front ++ w.text.toList ++ ['.'] := by simp [noBracket, bracket]
    obtain ⟨base, dims⟩ := ih tokens order hv (hv ▸ hvt) front' (.inr ⟨_, rfl⟩)
    have text : front ++ (w.text.toList ++ (d :: v :: ws).flatMap (·.text.toList)) =
        front ++ w.text.toList ++ ['.'] ++ (v.text.toList ++ ws.flatMap (·.text.toList)) := by
      simp [dot]
    rw [text, base, dims]
    simp [hw, hd, hv]

/-- What is outside is some of the words, in order. -/
theorem outside_sublist : (outside depth ws).Sublist ws := by
  induction ws generalizing depth with
  | nil => exact .slnil
  | cons w ws ih =>
    rw [outside]
    split
    · exact ih.cons_cons w
    · exact ih.cons w

/-- The characters outside are those of names, dots and brackets. -/
theorem Steps.char_cases (steps : Steps ws) (tokens : ∀ w ∈ ws, IsToken w.kind w.text.toList) :
    ∀ w ∈ ws, ∀ c ∈ w.text.toList, Lexer.isIdentPart c = true ∨ c ∈ ['.', '[', ']'] := by
  induction steps with
  | nil => simp
  | @segment d w ws hd hw _ ih =>
    simp only [List.forall_mem_cons] at tokens ⊢
    have dot : d.text.toList = ['.'] := toList_text_of_isToken (hd ▸ tokens.1)
    have name := Lexer.isIdentPart_of_isToken (hw ▸ tokens.2.1)
    refine ⟨fun c hc ↦ ?_, fun c hc ↦ .inl (List.all_eq_true.1 name c hc), ih tokens.2.2⟩
    rw [dot] at hc
    exact .inr (by simp [List.mem_singleton.1 hc])
  | @brackets l r ws hl hr _ ih =>
    simp only [List.forall_mem_cons] at tokens ⊢
    obtain ⟨left, right⟩ := text_of_brackets ⟨tokens.1, tokens.2.1⟩ hl hr
    rw [left, right]
    exact ⟨by simp, by simp, ih tokens.2.2⟩

/-- Erasing the text of a type reads its name and its brackets off its words. -/
theorem ofText_sourceText (tokens : ∀ v ∈ w :: ws, IsToken v.kind v.text.toList)
    (hw : w.kind = .ident) (name : NoBlanks w.text.toList)
    (steps : Steps (outside 0 ws)) (order : DimsLast (outside 0 ws)) (plain : PlainLayout 0 ws) :
    ErasedType.ofText (sourceText (w :: ws)) =
      ⟨simpleName (w :: ws), dimsText (pairs (w :: ws))⟩ := by
  obtain ⟨hwt, hws⟩ := List.forall_mem_cons.1 tokens
  rw [hw] at hwt
  have apart : outside 0 (w :: ws) = w :: outside 0 ws :=
    outside_cons (by simp [hw]) (by simp [hw])
  have outer : ∀ v ∈ outside 0 ws, IsToken v.kind v.text.toList := fun v hv ↦
    hws v (outside_sublist.subset hv)
  have chars := steps.char_cases outer
  have angles : ∀ v ∈ outside 0 ws, NoAngles v.text.toList := fun v hv ↦
    ⟨fun hm ↦ absurd (chars v hv _ hm) (by decide), fun hm ↦ absurd (chars v hv _ hm) (by decide)⟩
  have left : (outsideBrackets 0 (sourceText (w :: ws)).toList).filter (!isBlank ·) =
      w.text.toList ++ (outside 0 ws).flatMap (·.text.toList) := by
    have none := noAngles_of_isToken hwt
    rw [toList_sourceText, outsideBrackets_append, none.outsideBrackets_eq, if_pos rfl,
      none.openBehind_eq, List.filter_append, filter_outsideBrackets hws angles plain,
      List.filter_eq_self.2 fun c hc ↦ by simp [name c hc]]
  obtain ⟨base, dims⟩ := steps.split_text outer order hw hwt (List.not_mem_nil) (.inl rfl)
  rw [List.nil_append] at base dims
  rw [ofText_eq]
  · dsimp only
    rw [left, base, dims, String.ofList_toList, simpleName, pairs, apart]
    simp [hw]
  · intro hm
    have mem : '@' ∈ (outsideBrackets 0 (sourceText (w :: ws)).toList).filter (!isBlank ·) :=
      List.mem_filter.2 ⟨hm, by decide⟩
    rw [left, List.mem_append, List.mem_flatMap] at mem
    obtain mem | ⟨v, hv, mem⟩ := mem
    · exact notMem_of_isIdentPart hwt (by decide) mem
    · exact absurd (chars v hv _ mem) (by decide)

/-! ### Types in a plain layout

What `eraseType` computes is said here of the words of a type instead of its characters: the last
name with the brackets (`PlainType.eraseType_eq`).  So two types have one erased name when they
have the same last name and as many pairs of brackets (`PlainType.eraseType_eq_iff`), whatever
qualifiers, type arguments and blanks are written. -/

/-- A name with further segments, type arguments and brackets behind it. -/
def IsPath (ws : List Word) : Prop :=
  ∃ w tail, ws = w :: tail ∧ w.kind = .ident ∧ typeTail () tail = .ok ((), [])

/-- The words of a type that starts with a name, in a layout that does not show. -/
structure PlainType (ws : List Word) : Prop where
  path : IsPath ws
  tokens : ∀ w ∈ ws, IsToken w.kind w.text.toList
  order : DimsLast (outside 0 ws)
  name : ∀ w ∈ ws.head?, NoBlanks w.text.toList
  layout : PlainLayout 0 ws.tail

namespace PlainType

/-- The specification of erasure: the last name outside the type arguments, and the brackets. -/
theorem ofText_eq (h : PlainType ws) :
    ErasedType.ofText (sourceText ws) = ⟨simpleName ws, dimsText (pairs ws)⟩ := by
  obtain ⟨⟨w, tail, rfl, hw, tailType⟩, tokens, order, name, layout⟩ := h
  have outer : outside 0 (w :: tail) = w :: outside 0 tail :=
    outside_cons (by simp [hw]) (by simp [hw])
  rw [outer] at order
  exact ofText_sourceText tokens hw (name w rfl) (tailWords_of_typeTail tailType).steps
    (List.pairwise_cons.1 order).2 layout

theorem eraseType_eq (h : PlainType ws) :
    eraseType (sourceText ws) = simpleName ws ++ dimsText (pairs ws) := by
  rw [eraseType, h.ofText_eq, ErasedType.text]

/-- The last name of a type is a name, so that no bracket is in it. -/
theorem bracket_notMem_simpleName (h : PlainType ws) : '[' ∉ (simpleName ws).toList := by
  rw [simpleName]
  cases last : ((outside 0 ws).filter (·.kind = .ident)).getLast? with
  | none => simp
  | some w =>
    obtain ⟨mem, ident⟩ := List.mem_filter.1 (List.mem_of_getLast? last)
    have token := h.tokens w (outside_sublist.subset mem)
    rw [of_decide_eq_true ident] at token
    exact notMem_of_isIdentPart token (by decide)

/-- The erased text of a type can be taken apart again: the brackets start at the first one. -/
theorem eraseType_eq_iff (h : PlainType ws) (h' : PlainType vs) :
    eraseType (sourceText ws) = eraseType (sourceText vs) ↔
      simpleName ws = simpleName vs ∧ pairs ws = pairs vs := by
  rw [h.eraseType_eq, h'.eraseType_eq]
  constructor
  · intro same
    have split (x : List Word) (hx : PlainType x) :=
      span_bracket hx.bracket_notMem_simpleName (head?_dimsText (pairs x))
    have chars := congrArg String.toList same
    rw [String.toList_append, String.toList_append] at chars
    have names : (simpleName ws).toList = (simpleName vs).toList := by
      rw [← (split ws h).1, chars, (split vs h').1]
    have dims : (dimsText (pairs ws)).toList = (dimsText (pairs vs)).toList := by
      rw [← (split ws h).2, chars, (split vs h').2]
    have lengths : pairs ws * 2 = pairs vs * 2 := by
      simpa [toList_dimsText] using congrArg List.length dims
    exact ⟨String.toList_inj.1 names, by omega⟩
  · rintro ⟨names, dims⟩
    rw [names, dims]

end PlainType

/-! ## Parameters -/

/-- The words of a parameter. -/
structure ParamWords where
  lead : List Word
  type : List Word
  /-- The three dots of a parameter that takes any number of arguments. -/
  dots : List Word
  name : Word
  /-- The brackets behind the name. -/
  dims : List Word

namespace ParamWords

/-- The words of the parameter behind its modifiers, and those left. -/
def behindLead (x : ParamWords) (rest : List Word) : List Word :=
  x.type ++ (x.dots ++ x.name :: (x.dims ++ rest))

/-- These are the words of the parameter that is read from the front. -/
structure Of (x : ParamWords) (ws rest : List Word) : Prop where
  words : ws = x.lead ++ x.behindLead rest
  lead : ∃ r, modifiers ws = .ok (r, x.behindLead rest)
  type : typeWords x.type = .ok ((), [])
  dots : x.dots = [] ∨ ∃ w, x.dots = [w] ∧ w.kind = .punct .ellipsis
  name : x.name.kind = .ident
  dims : brackets (x.dims ++ rest) = (dimsText (x.dims.length / 2), rest)

/-- The type is a path of names with brackets behind it, in a layout that does not show. -/
structure Plain (x : ParamWords) : Prop where
  order : DimsLast (outside 0 x.type)
  name : ∀ w ∈ x.type.head?, NoBlanks w.text.toList
  layout : PlainLayout 0 x.type.tail

instance (x : ParamWords) : Decidable x.Plain :=
  decidable_of_iff (DimsLast (outside 0 x.type) ∧ (∀ w ∈ x.type.head?, NoBlanks w.text.toList) ∧
    PlainLayout 0 x.type.tail) ⟨fun h ↦ ⟨h.1, h.2.1, h.2.2⟩, fun h ↦ ⟨h.order, h.name, h.layout⟩⟩

/-- The parameter that is read from the words. -/
def param (x : ParamWords) : Param :=
  ⟨sourceText? x.lead, sourceText x.type ++ dimsText (x.dims.length / 2), !x.dots.isEmpty,
    x.name.text⟩

/-- The name of the type with a pair of brackets for each that is written and for the dots. -/
def erased (x : ParamWords) : String :=
  simpleName x.type ++ dimsText (pairs x.type + x.dims.length / 2 + x.dots.length)

end ParamWords

/-- Dimensions are bracket pairs, half as many as words. -/
theorem brackets_eq_ok (ws : List Word) :
    ∃ ds, ws = ds ++ (brackets ws).2 ∧ (brackets ws).1 = dimsText (ds.length / 2) := by
  fun_induction brackets ws with
  | case1 l r ws h rest ih =>
    obtain ⟨ds, e, dims⟩ := ih
    refine ⟨l :: r :: ds, by simp [← e, rest], ?_⟩
    have length : (l :: r :: ds).length / 2 = ds.length / 2 + 1 := by
      rw [List.length_cons, List.length_cons]
      omega
    rw [length, dimsText, List.replicate_succ, String.join_cons, ← dimsText]
    exact congrArg ("[]" ++ ·) dims
  | case2 => exact ⟨[], rfl, rfl⟩
  | case3 => exact ⟨[], rfl, rfl⟩

/-- What is read as a type is read to its end when nothing follows. -/
theorem exists_typeWords {s : String} (h : Parser.type ws = .ok (s, rest)) :
    ∃ type, ws = type ++ rest ∧ typeWords type = .ok ((), []) := by
  obtain ⟨ann, first, tail, e, -, -, -, -, again⟩ := typeWords_local (sourceOf_eq_ok h)
  refine ⟨ann ++ first :: tail, by simp [e], ?_⟩
  have whole := again (ann ++ first :: tail) [] rfl
  rwa [List.append_nil, typeTail_of_endsType (by simp [EndsType, isAt])] at whole

/-- A parameter that is read has words in this form. -/
theorem exists_paramWords {p : Param} (hp : param ws = .ok (p, rest)) :
    ∃ x : ParamWords, x.Of ws rest := by
  obtain ⟨⟨lead, r⟩, vs, hl, h₁⟩ := bind_eq_ok.1 hp
  obtain ⟨declared, us, ht, h₂⟩ := bind_eq_ok.1 h₁
  obtain ⟨varargs, xs, he, h₃⟩ := bind_eq_ok.1 h₂
  obtain ⟨name, ys, hn, h₄⟩ := bind_eq_ok.1 h₃
  cases h₄
  obtain ⟨w, rfl, hw, -⟩ := ident_eq_ok.1 hn
  obtain ⟨front, rfl⟩ := walks_modifiers.shortens _ _ _ (withSource_eq_ok hl)
  obtain ⟨type, e, whole⟩ := exists_typeWords ht
  obtain ⟨ds, hds, dims⟩ := brackets_eq_ok ys
  obtain ⟨dots, rfl, hdots⟩ : ∃ dots, us = dots ++ w :: ys ∧
      (dots = [] ∨ ∃ v, dots = [v] ∧ v.kind = .punct .ellipsis) := by
    by_cases hat : isAt (.punct .ellipsis) us = true
    · obtain ⟨v, us, rfl, hv⟩ := exists_of_isAt hat
      rw [eat_of_isAt hat] at he
      cases he
      exact ⟨[v], rfl, .inr ⟨v, rfl, hv⟩⟩
    · rw [eat_of_not_isAt (by simpa using hat)] at he
      cases he
      exact ⟨[], rfl, .inl rfl⟩
  have words : vs = type ++ (dots ++ w :: (ds ++ (brackets ys).2)) := by rw [e, ← hds]
  refine ⟨⟨front, type, dots, w, ds⟩, ?_, ?_, whole, hdots, hw, ?_⟩
  · exact congrArg (front ++ ·) words
  · exact ⟨r, by rw [withSource_eq_ok hl, words]; rfl⟩
  · dsimp only
    rw [← hds, ← dims]

theorem FromText.isToken_of_mem (h : FromText ws) : ∀ w ∈ ws, IsToken w.kind w.text.toList := by
  induction ws with
  | nil => simp
  | cons w ws ih => exact List.forall_mem_cons.2 ⟨FromText.isToken h, ih h.of_cons⟩

/-- The type of a parameter ends in front of its dots or its name. -/
theorem ParamWords.Of.ends {x : ParamWords} (hx : x.Of ws rest) :
    EndsType (x.dots ++ x.name :: (x.dims ++ rest)) ∧
      eat (.punct .ellipsis) (x.dots ++ x.name :: (x.dims ++ rest)) =
        .ok (!x.dots.isEmpty, x.name :: (x.dims ++ rest)) := by
  have name := hx.name
  obtain none | ⟨w, one, hw⟩ := hx.dots
  · have start : isAt .ident (x.name :: (x.dims ++ rest)) = true := by simp [isAt, name]
    rw [none]
    exact ⟨.of_isAt start (by decide), eat_of_not_isAt (by simp [isAt, name])⟩
  · have start : isAt (.punct .ellipsis) (w :: x.name :: (x.dims ++ rest)) = true := by
      simp [isAt, hw]
    rw [one]
    exact ⟨.of_isAt start (by decide), eat_of_isAt start⟩

theorem ParamWords.Of.type_eq_ok {x : ParamWords} (hx : x.Of ws rest) :
    Parser.type (x.behindLead rest) =
      .ok (sourceText x.type, x.dots ++ x.name :: (x.dims ++ rest)) :=
  (ReadsAsType.of_typeWords hx.type).type_eq_ok hx.ends.1

/-- The parameter that is read has the source text of its parts. -/
theorem ParamWords.Of.param_eq {x : ParamWords} (hx : x.Of ws rest) :
    Parser.param ws = .ok (x.param, rest) := by
  obtain ⟨r, lead⟩ := hx.lead
  have hlead : withSource modifiers ws = .ok ((sourceText? x.lead, r), x.behindLead rest) := by
    rw [hx.words] at lead ⊢
    exact withSource_append_iff.2 ⟨lead, rfl⟩
  have hname : ident "parameter name" (x.name :: (x.dims ++ rest)) =
    .ok (x.name.text, x.dims ++ rest) := ident_cons hx.name
  rw [Parser.param, bind_of_ok hlead]
  dsimp only
  rw [bind_of_ok hx.type_eq_ok, bind_of_ok hx.ends.2, bind_of_ok hname, bind_apply, Parser.dims,
    hx.dims]
  rfl

/-- A type behind modifiers has no annotation in front. -/
theorem ParamWords.Of.isPath {x : ParamWords} (h : FromText ws) (hx : x.Of ws rest) :
    IsPath x.type := by
  obtain ⟨r, lead⟩ := hx.lead
  obtain ⟨-, -, none⟩ := modifiersAfter_wellFormed h (by simp) lead
  have start : isAt .ident (x.behindLead rest) = true := isAt_ident_of_type none hx.type_eq_ok
  obtain ⟨ann, w, tail, e, hann, hw, -, -, -⟩ := typeWords_local hx.type
  rw [List.append_nil] at e
  obtain rfl : ann = [] := by
    refine hann.resolve_right fun mark ↦ ?_
    rw [ParamWords.behindLead, e, List.append_assoc,
      isAt_eq_of_isAt (isAt_append_of_isAt mark)] at start
    simp at start
  rw [List.nil_append] at e
  have type := hx.type
  rw [e, typeWords, bind_of_ok (typeAnnotations_of_ident (by simp [isAt, hw])),
    bind_of_ok (ident_cons hw)] at type
  exact ⟨w, tail, e, hw, type⟩

theorem ParamWords.Of.isToken {x : ParamWords} (h : FromText ws) (hx : x.Of ws rest) :
    ∀ v ∈ x.type, IsToken v.kind v.text.toList := fun v hv ↦ by
  refine h.isToken_of_mem v ?_
  rw [hx.words]
  exact List.mem_append_right _ (List.mem_append_left _ hv)

/-! ### Brackets behind the name -/

/-- Pairs of brackets with nothing between them. -/
def bracketWords (n : Nat) : List Word :=
  (List.replicate n [⟨.punct .lbracket, "[", "", none, .origin⟩,
    ⟨.punct .rbracket, "]", "", none, .origin⟩]).flatten

theorem toList_textFrom_bracketWords (n : Nat) :
    textFrom (bracketWords n) = (dimsText n).toList := by
  induction n with
  | zero => rfl
  | succ n ih =>
    rw [toList_dimsText] at ih ⊢
    rw [bracketWords, List.replicate_succ, List.flatten_cons, ← bracketWords, List.replicate_succ,
      List.flatten_cons, ← ih]
    rfl

/-- Bracket pairs are outside, they are steps, and their layout is plain. -/
theorem outside_bracketWords (n : Nat) :
    outside 0 (bracketWords n) = bracketWords n ∧ Steps (bracketWords n) ∧
      (bracketWords n).filter (·.kind = .ident) = [] ∧
      (bracketWords n).countP (·.kind = .punct .lbracket) = n ∧ PlainLayout 0 (bracketWords n) ∧
      ∀ w ∈ bracketWords n, w.kind ≠ .punct .dot ∧ IsToken w.kind w.text.toList := by
  induction n with
  | zero => exact ⟨rfl, .nil, rfl, rfl, trivial, by simp [bracketWords]⟩
  | succ n ih =>
    obtain ⟨apart, steps, names, count, plain, tokens⟩ := ih
    have cons : bracketWords (n + 1) = ⟨.punct .lbracket, "[", "", none, .origin⟩ ::
        ⟨.punct .rbracket, "]", "", none, .origin⟩ :: bracketWords n := by
      rw [bracketWords, List.replicate_succ, List.flatten_cons, ← bracketWords]
      rfl
    rw [cons]
    refine ⟨?_, .brackets rfl rfl steps, by simpa using names, by simp [count], ?_, ?_⟩
    · rw [outside, if_pos (by simp), outside, if_pos (by simp), apart]
    · exact ⟨by decide, by decide, plain⟩
    · refine List.forall_mem_cons.2 ⟨⟨by simp, isToken_punct .lbracket⟩,
        List.forall_mem_cons.2 ⟨⟨by simp, isToken_punct .rbracket⟩, tokens⟩⟩

/-- A type with brackets behind it, as the erasure reads it: the brackets are counted, wherever
they stand. -/
theorem ofText_append_dims (tokens : ∀ v ∈ w :: ws, IsToken v.kind v.text.toList)
    (hw : w.kind = .ident) (name : NoBlanks w.text.toList)
    (steps : Steps (outside 0 ws)) (closed : ws.foldl depthBehind 0 = 0)
    (order : DimsLast (outside 0 ws)) (plain : PlainLayout 0 ws) (n : Nat) :
    ErasedType.ofText (sourceText (w :: ws) ++ dimsText n) =
      ⟨simpleName (w :: ws), dimsText (pairs (w :: ws) + n)⟩ := by
  obtain ⟨apart, more, names, count, morePlain, moreTokens⟩ := outside_bracketWords n
  have text : sourceText (w :: ws) ++ dimsText n = sourceText (w :: (ws ++ bracketWords n)) := by
    rw [← String.toList_inj, String.toList_append, toList_sourceText, toList_sourceText,
      ← toList_textFrom_bracketWords, textFrom, textFrom, textFrom, List.flatMap_append,
      List.append_assoc]
  have outer : outside 0 (ws ++ bracketWords n) = outside 0 ws ++ bracketWords n := by
    rw [outside_append, closed, apart]
  have first (vs : List Word) : outside 0 (w :: vs) = w :: outside 0 vs :=
    outside_cons (by simp [hw]) (by simp [hw])
  rw [text, ofText_sourceText _ hw name]
  · rw [simpleName, simpleName, pairs, pairs, first, first, outer]
    simp [names, count, hw, List.countP_append]
  · rw [outer]
    exact steps.append more
  · rw [outer]
    refine List.pairwise_append.2 ⟨order, ?_, fun _ _ v hv _ ↦ (moreTokens v hv).1⟩
    exact List.pairwise_iff_forall_sublist.2 fun hs _ ↦ (moreTokens _ (hs.subset (by simp))).1
  · exact plain.append (by rwa [closed])
  · intro v hv
    rw [← List.cons_append] at hv
    exact (List.mem_append.1 hv).elim (tokens v) fun hv ↦ (moreTokens v hv).2

/-- A parameter is erased to what stands for the name of its type, with its brackets. -/
theorem eraseParam_param {x : ParamWords} (path : IsPath x.type) (plain : x.Plain)
    (tokens : ∀ v ∈ x.type, IsToken v.kind v.text.toList) (dots : x.dots.length ≤ 1)
    (bounds : List (String × String)) :
    eraseParam bounds x.param =
      (bounds.lookup (simpleName x.type)).getD (simpleName x.type) ++
        dimsText (pairs x.type + x.dims.length / 2 + x.dots.length) := by
  obtain ⟨w, tail, type, hw, tailType⟩ := path
  have tailWords := tailWords_of_typeTail tailType
  obtain ⟨order, name, layout⟩ := plain
  rw [type] at order name layout tokens
  have outer : outside 0 (w :: tail) = w :: outside 0 tail :=
    outside_cons (by simp [hw]) (by simp [hw])
  rw [outer] at order
  have erased := ofText_append_dims tokens hw (name w rfl) tailWords.steps tailWords.closed
    (List.pairwise_cons.1 order).2 layout (x.dims.length / 2)
  rw [← type] at erased
  have varargs : (if !x.dots.isEmpty then "[]" else "") = dimsText x.dots.length := by
    match x.dots, dots with
    | [], _ => rfl
    | [_], _ => rfl
  rw [eraseParam, ParamWords.param, erased]
  dsimp only
  rw [varargs, dimsText_add _ x.dots.length, String.append_assoc]

theorem ParamWords.Of.length_dots_le {x : ParamWords} (hx : x.Of ws rest) : x.dots.length ≤ 1 := by
  obtain none | ⟨v, one, -⟩ := hx.dots
  · simp [none]
  · simp [one]

/-- The erasure of a parameter in a plain layout is the simple name of its type and its
brackets, if the type is no variable. -/
theorem eraseParam_of_words {p : Param} (h : FromText ws) (hp : param ws = .ok (p, rest))
    {x : ParamWords} (hx : x.Of ws rest) (plain : x.Plain) (bounds : List (String × String))
    (other : simpleName x.type ∉ bounds.map Prod.fst) :
    eraseParam bounds p = x.erased := by
  obtain rfl : p = x.param := congrArg Prod.fst (Except.ok.inj (hp.symm.trans hx.param_eq))
  have free : bounds.lookup (simpleName x.type) = none :=
    List.lookup_eq_none_iff.2 fun b hb ↦ by
      simpa using fun e : simpleName x.type = b.1 ↦ other (e ▸ List.mem_map_of_mem hb)
  rw [eraseParam_param (hx.isPath h) plain (hx.isToken h) hx.length_dots_le, free, Option.getD_none,
    ParamWords.erased]

/-! ## Members that match -/

/-- What the signature of a method or constructor is made of: the name of a method, the type
parameters and the parameters.  A compact constructor has none of its own. -/
def Content.header? : Content → Option (Option String × Option String × List Param)
  | .method m => some (some m.name, m.typeParams, m.params)
  | .constructor c => if c.compact then none else some (none, c.typeParams, c.params)
  | .field _ => none
  | .initializer _ => none

/-- The signature of an item from its header. -/
theorem Item.signature?_eq {i : Item} {name typeParams : Option String} {ps : List Param}
    (h : i.content.header? = some (name, typeParams, ps)) (owner : TypeDecl) :
    i.signature? owner =
      some (name.elim (.constructor (eraseParams typeParams ps))
        (.method · (eraseParams typeParams ps))) := by
  rw [Item.signature?]
  cases e : i.content with
  | field f => simp [e, Content.header?] at h
  | initializer b => simp [e, Content.header?] at h
  | method m =>
    rw [e, Content.header?] at h
    cases h
    rfl
  | constructor c =>
    rw [e, Content.header?] at h
    split at h
    next => cases h
    next parameters =>
      cases h
      simp only [parameters]
      rfl

/-- An item with the same signature is enough for the match. -/
theorem TypeDecl.declares_of_mem {decl owner : TypeDecl} {i i' : Item} (mem : i' ∈ decl.items)
    (some : (i.signature? owner).isSome) (same : i'.signature? decl = i.signature? owner) :
    decl.declares owner i = true := by
  obtain ⟨signature, e⟩ := Option.isSome_iff_exists.1 some
  rw [TypeDecl.declares, TypeDecl.counterpart?, e, Option.bind_some, TypeDecl.itemWith?,
    List.find?_isSome]
  exact ⟨i', mem, by simp [same, e]⟩

/-- The parameter is read from words with a plain layout, which are none of the type variables,
and these words are erased to the text. -/
def ErasesTo (bounds : List (String × String)) (p : Param) (erased : String) : Prop :=
  ∃ ws rest x, FromText ws ∧ param ws = .ok (p, rest) ∧ ParamWords.Of x ws rest ∧ x.Plain ∧
    simpleName x.type ∉ bounds.map Prod.fst ∧ x.erased = erased

/-- A parameter erases to what its words say. -/
theorem ErasesTo.eraseParam_eq {bounds : List (String × String)} {p : Param} {erased : String}
    (h : ErasesTo bounds p erased) : eraseParam bounds p = erased := by
  obtain ⟨ws, rest, x, text, read, words, plain, other, rfl⟩ := h
  exact eraseParam_of_words text read words plain bounds other

/-- The parameters are erased to the same types. -/
def Alike (typeParams typeParams' : Option String) (p p' : Param) : Prop :=
  ∃ erased, ErasesTo (typeVariables typeParams) p erased ∧
    ErasesTo (typeVariables typeParams') p' erased

/-- Parameters that erase alike have the same erasure. -/
theorem eraseParams_of_alike {typeParams typeParams' : Option String} {ps ps' : List Param}
    (h : List.Forall₂ (Alike typeParams typeParams') ps ps') :
    eraseParams typeParams ps = eraseParams typeParams' ps' := by
  induction h with
  | nil => rfl
  | cons alike _ ih =>
    obtain ⟨erased, one, other⟩ := alike
    rw [eraseParams, eraseParams, List.map_cons, List.map_cons, one.eraseParam_eq,
      other.eraseParam_eq]
    exact congrArg (erased :: ·) ih

/-- A parameter in a plain layout is erased to the last name of its type with a pair of brackets
for each that is written and for the dots.  So members match whose parameters are alike in that. -/
theorem erased_params_of_layout {ws rest : List Word} {p : Param} (h : FromText ws)
    (hp : param ws = .ok (p, rest)) :
    (∃ x : ParamWords, x.Of ws rest) ∧
      (∀ x : ParamWords, x.Of ws rest → x.Plain → ∀ bounds : List (String × String),
        simpleName x.type ∉ bounds.map Prod.fst →
          eraseParam bounds p =
            simpleName x.type ++ dimsText (pairs x.type + x.dims.length / 2 + x.dots.length)) ∧
      ∀ {decl owner : TypeDecl} {i i' : Item} {name typeParams typeParams' : Option String}
          {ps ps' : List Param}, i' ∈ decl.items →
        i.content.header? = some (name, typeParams, ps) →
        i'.content.header? = some (name, typeParams', ps') →
        List.Forall₂ (Alike typeParams typeParams') ps ps' →
        i'.signature? decl = i.signature? owner ∧ decl.declares owner i = true := by
  refine ⟨exists_paramWords hp, fun x hx plain bounds other ↦
    eraseParam_of_words h hp hx plain bounds other, ?_⟩
  intro decl owner i i' name typeParams typeParams' ps ps' mem hi hi' alike
  have same : i'.signature? decl = i.signature? owner := by
    rw [Item.signature?_eq hi, Item.signature?_eq hi', eraseParams_of_alike alike]
  exact ⟨same, TypeDecl.declares_of_mem mem (by rw [Item.signature?_eq hi]; rfl) same⟩

/-- An instance with type arguments, line breaks and brackets in two places. -/
theorem erased_params_of_layout_list :
    let ws := wordsOf [⟨.ident, "", "java"⟩, ⟨.punct .dot, "\n", "."⟩, ⟨.ident, " ", "List"⟩,
      ⟨.punct .lt, " ", "<"⟩, ⟨.ident, "", "T"⟩, ⟨.blockComment, "", "/* a */"⟩,
      ⟨.punct .gt, "", ">"⟩, ⟨.punct .lbracket, "", "["⟩, ⟨.punct .rbracket, " ", "]"⟩,
      ⟨.ident, " ", "x"⟩, ⟨.punct .rparen, "", ")"⟩]
    let us := wordsOf [⟨.ident, "", "List"⟩, ⟨.punct .ellipsis, "", "..."⟩, ⟨.ident, " ", "y"⟩,
      ⟨.punct .rparen, "", ")"⟩]
    let p : Param := ⟨none, "java\n. List <T/* a */>[ ]", false, "x"⟩
    let q : Param := ⟨none, "List", true, "y"⟩
    let i (typeParams : Option String) (p : Param) : Item :=
      ⟨none, [], .empty, .method ⟨typeParams, "void", "f", [p], none, none, none⟩⟩
    let decl := { TypeDecl.bare .classType "D" with members := [.item (i none q)] }
    FromText ws ∧ param ws = .ok (p, ws.drop 9) ∧ eraseParam [("T", "Object")] p = "List[]" ∧
      FromText us ∧ param us = .ok (q, us.drop 3) ∧
      decl.declares (.bare .classType "C") (i (some "<T>") p) = true := by
  intro ws us p q i decl
  have text : FromText ws := @fromText_of_tokenize "java\n. List <T/* a */>[ ] x)" ⟨_, ""⟩
    (tokenize_eq_ok.2 (by decide +kernel))
  have text' : FromText us := @fromText_of_tokenize "List... y)" ⟨_, ""⟩
    (tokenize_eq_ok.2 (by decide +kernel))
  have read : param ws = .ok (p, ws.drop 9) := rfl
  have read' : param us = .ok (q, us.drop 3) := rfl
  have words : (⟨[], ws.take 8, [], ws[8], []⟩ : ParamWords).Of ws (ws.drop 9) :=
    ⟨rfl, ⟨_, rfl⟩, rfl, .inl rfl, rfl, by decide +kernel⟩
  have words' : (⟨[], us.take 1, [us[1]], us[2], []⟩ : ParamWords).Of us (us.drop 3) :=
    ⟨rfl, ⟨_, rfl⟩, rfl, .inr ⟨us[1], rfl, rfl⟩, rfl, by decide +kernel⟩
  have plain : (⟨[], ws.take 8, [], ws[8], []⟩ : ParamWords).Plain :=
    ⟨by decide +kernel, by decide +kernel, by decide +kernel⟩
  have plain' : (⟨[], us.take 1, [us[1]], us[2], []⟩ : ParamWords).Plain :=
    ⟨by decide +kernel, by decide +kernel, by decide +kernel⟩
  have erased : ErasesTo (typeVariables (some "<T>")) p "List[]" :=
    ⟨ws, _, _, text, read, words, plain, by decide +kernel, by decide +kernel⟩
  have erased' : ErasesTo (typeVariables none) q "List[]" :=
    ⟨us, _, _, text', read', words', plain', by decide +kernel, by decide +kernel⟩
  have value : (⟨[], ws.take 8, [], ws[8], []⟩ : ParamWords).erased = "List[]" := by decide +kernel
  have header : (i (some "<T>") p).content.header? = some (some "f", some "<T>", [p]) := rfl
  have header' : (i none q).content.header? = some (some "f", none, [q]) := rfl
  have mem : i none q ∈ decl.items := List.mem_singleton_self _
  obtain ⟨-, entry, matching⟩ := erased_params_of_layout text read
  have same := entry _ words plain [("T", "Object")] (by decide +kernel)
  exact ⟨text, read, same.trans value, text', read',
    (matching mem header header' (.cons ⟨_, erased, erased'⟩ .nil)).2⟩

/-- A comment between the words of a type shows, and so does an angle bracket in a comment in the
type arguments and a blank in a name.  A qualified name is taken for a type variable of the member
that is called like its last segment. -/
theorem exists_layout_shows :
    let read (ts : List Token) := (param (wordsOf ts)).toOption.map Prod.fst
    let p (type : String) : Param := ⟨none, type, false, "x"⟩
    read [⟨.ident, "", "List"⟩, ⟨.blockComment, "", "/*c*/"⟩, ⟨.punct .lt, "", "<"⟩,
        ⟨.ident, "", "A"⟩, ⟨.punct .gt, "", ">"⟩, ⟨.ident, " ", "x"⟩] = some (p "List/*c*/<A>") ∧
      eraseParams none [p "List/*c*/<A>"] = ["List/*c*/"] ∧
      read [⟨.ident, "", "List"⟩, ⟨.punct .lt, "", "<"⟩, ⟨.ident, "", "A"⟩,
        ⟨.blockComment, "", "/*>*/"⟩, ⟨.punct .gt, "", ">"⟩, ⟨.ident, " ", "x"⟩] =
          some (p "List<A/*>*/>") ∧
      eraseParams none [p "List<A/*>*/>"] = ["List*/"] ∧
      read [⟨.ident, "", "a\u00a0b"⟩, ⟨.ident, " ", "x"⟩] = some (p "a\u00a0b") ∧
      eraseParams none [p "a\u00a0b"] = ["ab"] ∧
      read [⟨.ident, "", "a"⟩, ⟨.punct .dot, "", "."⟩, ⟨.ident, "", "T"⟩, ⟨.ident, " ", "x"⟩] =
        some (p "a.T") ∧
      eraseParams (some "<T extends Number>") [p "a.T"] = ["Number"] := by
  refine ⟨by rfl, by decide +kernel, by rfl, by decide +kernel, by rfl, by decide +kernel, by rfl,
    by decide +kernel⟩

end PlatformOverlay.Java
