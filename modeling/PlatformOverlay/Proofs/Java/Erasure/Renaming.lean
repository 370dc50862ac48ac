import PlatformOverlay.Proofs.Java.Erasure.TypeParameters

/-!
# Renaming type variables

A name denotes a type variable unless it is qualified or in an annotation (`renameNames`).  Within
type arguments no name is left of an erased type, so other names there do not show
(`TypeParamWords.bound_rename`), and of a parameter only the name of its type can be a variable
(`eraseParam_rename`).  Variables are replaced by their bounds in one step, so this goes through
unless a variable stands for the bound of another.

Renaming goes through words with a state (`Place`), since what a name denotes depends on what stands
in front of it: a dot, the sign of an annotation, or the parentheses of its arguments. Erasure goes
through characters and counts angle brackets. They meet at words: `Respelled` words differ in names
without blanks, and where these stand within brackets the two texts are erased to the same
(`sameErased_of_respelled`).
-/

open PlatformOverlay.Java.Parser

namespace PlatformOverlay.Java

open Lexer (IsToken)
open Text (isBlank)

variable {ρ : String → String} {depth : Nat} {ws vs rest : List Word} {w v : Word}

/-! ## Renaming words -/

def renameWord (ρ : String → String) (w : Word) : Word :=
  if w.kind = .ident then { w with text := ρ w.text } else w

/-- How many parentheses are open behind a word. -/
def parensBehind (depth : Nat) (w : Word) : Nat :=
  if w.kind = .punct .lparen then depth + 1
  else if w.kind = .punct .rparen then depth - 1 else depth

/-- Where in a type a word stands.  Annotations may stand between a dot and a name. -/
inductive Place where
  | start
  | qualified
  /-- In front of a name of an annotation. -/
  | annotating (behindDot : Bool)
  /-- Behind a name of an annotation. -/
  | annotated (behindDot : Bool)

namespace Place

def isQualified : Place → Bool
  | .start => false
  | .qualified => true
  | .annotating behindDot => behindDot
  | .annotated behindDot => behindDot

/-- A name that stands here may denote a type variable. -/
def isFree : Place → Bool
  | .start => true
  | .qualified => false
  | .annotating _ => false
  | .annotated behindDot => !behindDot

/-- Behind a dot the name of an annotation goes on, or that of the type. -/
def behindDot : Place → Place
  | .annotated behindDot => .annotating behindDot
  | _ => .qualified

def behindName : Place → Place
  | .annotating behindDot => .annotated behindDot
  | _ => .start

/-- The arguments of an annotation, in parentheses, are passed over. -/
def behind (depth : Nat) (place : Place) (w : Word) : Place :=
  if depth ≠ 0 ∨ w.kind = .punct .lparen then place
  else if w.kind = .punct .atSign then .annotating place.isQualified
  else if w.kind = .punct .dot then place.behindDot
  else if w.kind = .ident then place.behindName
  else .start

end Place

/-- Rename what denotes a type variable; `depth` parentheses are open in front of the words. -/
def renameNames (ρ : String → String) : Place → Nat → List Word → List Word
  | _, _, [] => []
  | place, depth, w :: ws =>
      (if place.isFree ∧ depth = 0 then renameWord ρ w else w) ::
        renameNames ρ (place.behind depth w) (parensBehind depth w) ws

variable {place : Place}

/-- The words are the same, or names without blanks. -/
inductive Respelled : Word → Word → Prop where
  | same (w : Word) : Respelled w w
  | name {w : Word} {text : String} : w.kind = .ident → NoBlanks w.text.toList →
      IsToken .ident text.toList → NoBlanks text.toList → Respelled w { w with text }

/-- The names that are changed have no blanks, nor have those that stand for them. -/
def RespellsNames (ρ : String → String) : Prop :=
  ∀ name, ρ name = name ∨
    NoBlanks name.toList ∧ IsToken .ident (ρ name).toList ∧ NoBlanks (ρ name).toList

/-- A word is respelled: it keeps its kind and its gap. -/
theorem RespellsNames.respelled (h : RespellsNames ρ) (w : Word) :
    Respelled w (renameWord ρ w) := by
  rw [renameWord]
  split
  next name =>
    obtain same | ⟨old, token, new⟩ := h w.text
    · rw [same]
      exact .same w
    · exact .name name old token new
  next => exact .same w

theorem forall₂_renameNames (h : RespellsNames ρ) (place : Place) (depth : Nat) (ws : List Word) :
    List.Forall₂ Respelled ws (renameNames ρ place depth ws) := by
  induction ws generalizing place depth with
  | nil => exact .nil
  | cons w ws ih =>
    refine .cons ?_ (ih _ _)
    split
    next => exact h.respelled w
    next => exact .same w

theorem kind_renameWord : (renameWord ρ w).kind = w.kind := by
  rw [renameWord]
  split <;> rfl

theorem gap_renameWord : (renameWord ρ w).gap = w.gap := by
  rw [renameWord]
  split <;> rfl

theorem renameWord_of_ne_ident (h : w.kind ≠ .ident) : renameWord ρ w = w := if_neg h

theorem sameKinds_renameNames (ρ : String → String) (place : Place) (depth : Nat)
    (ws : List Word) : SameKinds (renameNames ρ place depth ws) ws := by
  induction ws generalizing place depth with
  | nil => rfl
  | cons w ws ih =>
    have kind : (if place.isFree = true ∧ depth = 0 then renameWord ρ w else w).kind = w.kind := by
      split
      next => exact kind_renameWord
      next => rfl
    rw [SameKinds, renameNames, List.map_cons, List.map_cons, kind]
    exact congrArg _ (ih _ _)

/-- What a front part leaves decides how the rest is renamed: whether a dot stands in front, and
how many brackets are open. -/
theorem renameNames_append (ρ : String → String) (place : Place) (depth : Nat) (ws : List Word) :
    ∃ place' depth', ∀ vs, renameNames ρ place depth (ws ++ vs) =
      renameNames ρ place depth ws ++ renameNames ρ place' depth' vs := by
  induction ws generalizing place depth with
  | nil => exact ⟨place, depth, fun _ ↦ rfl⟩
  | cons w ws ih =>
    obtain ⟨place', depth', e⟩ := ih (place.behind depth w) (parensBehind depth w)
    exact ⟨place', depth', fun vs ↦ by rw [List.cons_append, renameNames, renameNames, e,
      List.cons_append]⟩

/-- What stands behind a dot is not renamed. -/
theorem not_isFree_behind_dot (hw : w.kind = .punct .dot) :
    ¬ ((place.behind depth w).isFree = true ∧ parensBehind depth w = 0) := by
  rintro ⟨free, closed⟩
  have depth_eq : depth = 0 := by simpa [parensBehind, hw] using closed
  cases place <;> simp [Place.behind, Place.behindDot, Place.isFree, hw, depth_eq] at free

namespace Respelled

theorem kind_eq (h : Respelled w v) : v.kind = w.kind := by cases h <;> rfl

theorem gap_eq (h : Respelled w v) : v.gap = w.gap := by cases h <;> rfl

theorem isToken (h : Respelled w v) (token : IsToken w.kind w.text.toList) :
    IsToken v.kind v.text.toList := by
  cases h with
  | same => exact token
  | name hw _ new _ => exact hw ▸ new

theorem noAngles (h : Respelled w v) (none : NoAngles w.text.toList) : NoAngles v.text.toList := by
  cases h with
  | same => exact none
  | name _ _ new _ => exact noAngles_of_isToken new

theorem noBlanks (h : Respelled w v) (none : NoBlanks w.text.toList) : NoBlanks v.text.toList := by
  cases h with
  | same => exact none
  | name _ _ _ new => exact new

end Respelled

theorem forall₂_isToken (h : List.Forall₂ Respelled ws vs)
    (tokens : ∀ w ∈ ws, IsToken w.kind w.text.toList) :
    ∀ v ∈ vs, IsToken v.kind v.text.toList := by
  induction h with
  | nil => exact tokens
  | cons here _ ih =>
    obtain ⟨token, later⟩ := List.forall_mem_cons.1 tokens
    exact List.forall_mem_cons.2 ⟨here.isToken token, ih later⟩

theorem depthBehind_congr (kind : v.kind = w.kind) : depthBehind depth v = depthBehind depth w := by
  rw [depthBehind, depthBehind, kind]

/-- A plain layout stays plain: gaps do not change. -/
theorem PlainLayout.respelled (h : PlainLayout depth ws) (spelled : List.Forall₂ Respelled ws vs) :
    PlainLayout depth vs := by
  induction spelled generalizing depth with
  | nil => exact h
  | @cons w v ws vs here _ ih =>
    obtain ⟨plain, later⟩ := h
    refine ⟨?_, by rw [depthBehind_congr here.kind_eq]; exact ih later⟩
    rw [here.gap_eq, here.kind_eq]
    split at plain
    next zero => exact (if_pos zero).symm ▸ ⟨plain.1, here.noBlanks plain.2⟩
    next deep => exact (if_neg deep).symm ▸ ⟨plain.1, plain.2.imp_right (.imp_right here.noAngles)⟩

/-! ## Words of the same kinds -/

/-- The depth behind words depends on their kinds. -/
theorem foldl_depthBehind_of_sameKinds (h : SameKinds vs ws) :
    vs.foldl depthBehind depth = ws.foldl depthBehind depth := by
  induction ws generalizing vs depth with
  | nil =>
    obtain rfl := List.map_eq_nil_iff.1 h
    rfl
  | cons w ws ih =>
    obtain ⟨v, vs, rfl, kind, same⟩ := h.cons_inv
    rw [List.foldl_cons, List.foldl_cons, depthBehind_congr kind]
    exact ih same

theorem outside_of_sameKinds (h : SameKinds vs ws) :
    SameKinds (outside depth vs) (outside depth ws) := by
  induction ws generalizing vs depth with
  | nil =>
    obtain rfl := List.map_eq_nil_iff.1 h
    rfl
  | cons w ws ih =>
    obtain ⟨v, vs, rfl, kind, same⟩ := h.cons_inv
    rw [outside, outside, kind, depthBehind_congr kind]
    split
    next =>
      rw [SameKinds, List.map_cons, List.map_cons, kind]
      exact congrArg _ (ih same)
    next => exact ih same

/-- Outside its type arguments, no name of a type but the first denotes a variable. -/
theorem TailWords.outside_renameNames (h : TailWords ws) (ρ : String → String) (place : Place)
    (depth : Nat) : outside 0 (renameNames ρ place depth ws) = outside 0 ws := by
  have pair {w v : Word} (hw : w.kind ≠ .punct .lt) (hw' : w.kind ≠ .punct .gt)
      (hv : v.kind ≠ .punct .lt) (hv' : v.kind ≠ .punct .gt) (vs : List Word) :
      outside 0 (w :: v :: vs) = w :: v :: outside 0 vs := by
    rw [outside_cons hw hw', outside_cons hv hv']
  induction h generalizing place depth with
  | nil => rfl
  | @segment d w _ hd hw _ ih =>
    have both := @pair d w (by simp [hd]) (by simp [hd]) (by simp [hw]) (by simp [hw])
    rw [renameNames, renameNames, renameWord_of_ne_ident (by simp [hd]), ite_self,
      if_neg (not_isFree_behind_dot hd), both, both, ih]
  | @arguments v inner _ hv inside closed _ ih =>
    obtain ⟨place', depth', e⟩ :=
      renameNames_append ρ (place.behind depth v) (parensBehind depth v) inner
    -- Only the kinds of the words decide where the type arguments end.
    have kinds := sameKinds_renameNames ρ (place.behind depth v) (parensBehind depth v) inner
    have inside' := @outside_of_sameKinds 1 _ _ kinds
    rw [inside] at inside'
    rw [renameNames, renameWord_of_ne_ident (by simp [hv]), ite_self, e,
      outside_arguments hv inside closed, outside_arguments hv (List.map_eq_nil_iff.1 inside')
        ((foldl_depthBehind_of_sameKinds kinds).trans closed), ih]
  | @brackets l r _ hl hr _ ih =>
    have both := @pair l r (by simp [hl]) (by simp [hl]) (by simp [hr]) (by simp [hr])
    rw [renameNames, renameNames, renameWord_of_ne_ident (by simp [hl]),
      renameWord_of_ne_ident (by simp [hr]), ite_self, ite_self, both, both, ih]

/-! ## Bounds -/

/-- The same is left of both texts up to an ampersand. -/
structure SameErased (depth : Nat) (cs ds : List Char) : Prop where
  left : outsideBrackets depth (upToAmpersand cs) = outsideBrackets depth (upToAmpersand ds)
  blank : (∀ c ∈ upToAmpersand cs, isBlank c = true) ↔ ∀ c ∈ upToAmpersand ds, isBlank c = true

theorem SameErased.refl (depth : Nat) (cs : List Char) : SameErased depth cs cs :=
  ⟨rfl, Iff.rfl⟩

/-- Two texts erase to the same if parts in front of them do and leave the same depth. -/
theorem SameErased.append {cs ds xs ys : List Char} {behind : Nat} (hx : '&' ∉ xs) (hy : '&' ∉ ys)
    (left : outsideBrackets depth xs = outsideBrackets depth ys)
    (behindX : openBehind depth xs = behind) (behindY : openBehind depth ys = behind)
    (blank : (∀ c ∈ xs, isBlank c = true) ↔ ∀ c ∈ ys, isBlank c = true)
    (later : SameErased behind cs ds) : SameErased depth (xs ++ cs) (ys ++ ds) where
  left := by
    rw [upToAmpersand_append_of_notMem hx, upToAmpersand_append_of_notMem hy,
      outsideBrackets_append, outsideBrackets_append, left, behindX, behindY, later.left]
  blank := by
    rw [upToAmpersand_append_of_notMem hx, upToAmpersand_append_of_notMem hy,
      List.forall_mem_append, List.forall_mem_append, blank, later.blank]

theorem SameErased.append_left {cs ds xs : List Char}
    (later : '&' ∉ xs → SameErased (openBehind depth xs) cs ds) :
    SameErased depth (xs ++ cs) (xs ++ ds) := by
  by_cases h : '&' ∈ xs
  · constructor
    · rw [upToAmpersand_append_of_mem h, upToAmpersand_append_of_mem h]
    · rw [upToAmpersand_append_of_mem h, upToAmpersand_append_of_mem h]
  · exact .append h h rfl rfl rfl Iff.rfl (later h)

/-- The words of the first of some bounds. -/
def firstOf (ws : List Word) : List Word := ws.takeWhile (·.text ≠ "&")

/-- Angle brackets stand only between the words. -/
def PlainAngles (ws : List Word) : Prop :=
  ∀ w ∈ ws, NoAngles w.gap.toList ∧
    (w.kind = .punct .lt ∨ w.kind = .punct .gt ∨ NoAngles w.text.toList)

instance (ws : List Word) : Decidable (PlainAngles ws) := List.decidableBAll _ _

theorem not_all_blank {t : List Char} (h : IsToken .ident t) (none : NoBlanks t) :
    ¬ ∀ c ∈ t, isBlank c = true := by
  obtain ⟨c, cs, rfl⟩ := List.exists_cons_of_ne_nil (IsToken.ne_nil h)
  intro all
  have := none c List.mem_cons_self
  rw [all c List.mem_cons_self] at this
  cases this

/-- Other names within type arguments do not show in what is left of the first bound. -/
theorem outside_tail (kind : v.kind = w.kind)
    (same : outside depth (v :: vs) = outside depth (w :: ws)) :
    outside (depthBehind depth w) vs = outside (depthBehind depth w) ws := by
  rw [outside, outside, kind, depthBehind_congr kind] at same
  split at same
  next plain =>
    rw [depthBehind, if_neg plain.1, if_neg plain.2.1]
    exact (List.cons.inj same).2
  next => exact same

/-- Words that are respelled only within angle brackets erase to the same. -/
theorem sameErased_of_respelled (spelled : List.Forall₂ Respelled ws vs)
    (tokens : ∀ w ∈ ws, IsToken w.kind w.text.toList) (angles : PlainAngles (firstOf ws))
    (same : outside depth (firstOf vs) = outside depth (firstOf ws)) (gap : List Char) :
    SameErased depth (textFrom vs ++ gap) (textFrom ws ++ gap) := by
  induction spelled generalizing depth with
  | nil => exact .refl depth gap
  | @cons w v ws vs here _ ih =>
    obtain ⟨token, tokens⟩ := List.forall_mem_cons.1 tokens
    rw [textFrom_cons, textFrom_cons, here.gap_eq, List.append_assoc, List.append_assoc,
      List.append_assoc, List.append_assoc]
    refine .append_left fun _ ↦ ?_
    -- A word that is an ampersand ends the bound, and others are left in both.
    by_cases stop : '&' ∈ w.text.toList
    · cases here with
      | same => exact .append_left fun none ↦ absurd stop none
      | name hw _ _ _ => exact absurd stop (notMem_of_isIdentPart (hw ▸ token) (by decide))
    have goes (u : Word) (h : '&' ∉ u.text.toList) (us : List Word) :
        firstOf (u :: us) = u :: firstOf us := by
      have : u.text ≠ "&" := fun e ↦ h (by rw [e]; decide)
      rw [firstOf, List.takeWhile_cons_of_pos (by simpa using this), firstOf]
    have stop' : '&' ∉ v.text.toList := by
      cases here with
      | same => exact stop
      | name _ _ new _ => exact notMem_of_isIdentPart new (by decide)
    rw [goes w stop] at angles same
    rw [goes v stop'] at same
    obtain ⟨⟨gapAngles, textAngles⟩, angles⟩ := List.forall_mem_cons.1 angles
    obtain ⟨behind, left⟩ := outsideBrackets_word depth token textAngles
    have later : SameErased (depthBehind depth w) (textFrom vs ++ gap) (textFrom ws ++ gap) :=
      ih tokens angles (outside_tail here.kind_eq same)
    rw [gapAngles.openBehind_eq]
    cases here with
    | same => exact .append stop stop rfl behind behind Iff.rfl later
    | @name text hw old new none =>
      have angles' := noAngles_of_isToken new
      have depth_eq : depthBehind depth w = depth := by simp [depthBehind, hw]
      refine .append stop' stop ?_ (by rw [depth_eq, angles'.openBehind_eq]) behind
        (iff_of_false (not_all_blank new none) (not_all_blank (hw ▸ token) old)) later
      rw [left, angles'.outsideBrackets_eq]
      by_cases outer : depth = 0
      · -- Outside type arguments the name is the same.
        rw [outer, outside_cons (by simp [hw]) (by simp [hw]),
          outside_cons (by simp [hw]) (by simp [hw])] at same
        have text_eq : text = w.text := congrArg Word.text (List.cons.inj same).1
        simp [outer, hw, text_eq]
      · simp [outer]

namespace TypeParamWords

variable {t : TypeParamWords}

/-- Rename the type variables where they are declared and in their bounds. -/
def rename (ρ : String → String) (t : TypeParamWords) : TypeParamWords :=
  { t with name := renameWord ρ t.name, bounds := renameNames ρ .start 0 t.bounds }

def firstBound (t : TypeParamWords) : List Word := firstOf t.bounds.tail

/-- The bounds behind the first are respelled. -/
theorem tail_rename (h : RespellsNames ρ) :
    List.Forall₂ Respelled t.bounds.tail (t.rename ρ).bounds.tail := by
  have spelled := forall₂_renameNames h .start 0 t.bounds
  change List.Forall₂ Respelled t.bounds.tail (renameNames ρ .start 0 t.bounds).tail
  generalize renameNames ρ .start 0 t.bounds = vs at spelled ⊢
  generalize t.bounds = ws at spelled ⊢
  cases spelled with
  | nil => exact .nil
  | cons _ later => exact later

/-- A bound is erased as before if the variables are only named in its type arguments. -/
theorem bound_rename (h : RespellsNames ρ)
    (tokens : ∀ w ∈ t.bounds, IsToken w.kind w.text.toList) (angles : PlainAngles t.firstBound)
    (same : outside 0 (t.rename ρ).firstBound = outside 0 t.firstBound) :
    (t.rename ρ).bound = t.bound := by
  have erased : SameErased 0 (t.rename ρ).boundText t.boundText :=
    sameErased_of_respelled (tail_rename h) (fun w hw ↦ tokens w (List.mem_of_mem_tail hw)) angles
      same _
  have type : eraseType (String.ofList (upToAmpersand (t.rename ρ).boundText)) =
      eraseType (String.ofList (upToAmpersand t.boundText)) :=
    eraseType_congr (by rw [erased.left])
  rw [bound, bound, erasedBound_words, erasedBound_words, type]
  simp only [List.all_eq_true, erased.blank]

theorem openWithin_of_isToken {t : List Char} (h : IsToken .ident t) :
    openWithin depth t = some depth := by
  have part : ∀ c ∈ t, Lexer.isIdentPart c = true :=
    List.all_eq_true.1 (Lexer.isIdentPart_of_isToken h)
  clear h
  induction t with
  | nil => rfl
  | cons c t ih =>
    obtain ⟨here, later⟩ := List.forall_mem_cons.1 part
    have other (d : Char) (hd : Lexer.isIdentPart d = false) : c ≠ d := by
      rintro rfl
      rw [here] at hd
      cases hd
    rw [openWithin, if_neg fun h ↦ other ',' (by decide) h.1,
      if_neg (not_or.2 ⟨other '<' (by decide), other '(' (by decide)⟩),
      if_neg (not_or.2 ⟨other '>' (by decide), other ')' (by decide)⟩), ih later]

/-- Renaming does not change where brackets are open. -/
theorem openWithin_of_respelled (spelled : List.Forall₂ Respelled ws vs)
    (tokens : ∀ w ∈ ws, IsToken w.kind w.text.toList) :
    openWithin depth (textFrom vs) = openWithin depth (textFrom ws) := by
  induction spelled generalizing depth with
  | nil => rfl
  | @cons w v ws vs here _ ih =>
    obtain ⟨token, tokens⟩ := List.forall_mem_cons.1 tokens
    have text : ∀ depth, openWithin depth v.text.toList = openWithin depth w.text.toList := by
      intro depth
      cases here with
      | same => rfl
      | name hw _ new _ => rw [openWithin_of_isToken new, openWithin_of_isToken (hw ▸ token)]
    have later : (openWithin · (textFrom vs)) = (openWithin · (textFrom ws)) :=
      funext fun depth ↦ ih tokens
    rw [textFrom_cons, textFrom_cons, here.gap_eq, openWithin_append, openWithin_append]
    congr 1
    funext depth
    rw [openWithin_append, openWithin_append, text, later]

/-- What stands in front stays blank. -/
theorem head?_blank_of_respelled (spelled : List.Forall₂ Respelled ws vs)
    (tokens : ∀ w ∈ ws, IsToken w.kind w.text.toList) {gap : List Char}
    (h : ∀ c ∈ (textFrom ws ++ gap).head?, isBlank c = true) :
    ∀ c ∈ (textFrom vs ++ gap).head?, isBlank c = true := by
  cases spelled with
  | nil => exact h
  | @cons w v ws vs here _ =>
    have token := tokens w List.mem_cons_self
    rw [textFrom_cons] at h ⊢
    rw [here.gap_eq]
    cases front : w.gap.toList with
    | cons c cs => simpa [front] using h
    | nil =>
      cases here with
      | same =>
        obtain ⟨c, cs, text⟩ := List.exists_cons_of_ne_nil (IsToken.ne_nil token)
        simpa [front, text] using h
      | name hw none _ _ =>
        obtain ⟨c, cs, text⟩ := List.exists_cons_of_ne_nil (IsToken.ne_nil token)
        have blank : isBlank c = true := by simpa [front, text] using h
        rw [none c (by simp [text])] at blank
        cases blank

/-- A renamed type parameter starts and ends as before. -/
theorem rename_text (h : RespellsNames ρ) (tokens : ∀ w ∈ t.words, IsToken w.kind w.text.toList) :
    (t.rename ρ).front = t.front ∧
      openWithin depth (t.rename ρ).text = openWithin depth t.text := by
  have spelled : List.Forall₂ Respelled (t.annotations ++ t.name :: t.bounds)
      (t.annotations ++ renameWord ρ t.name :: renameNames ρ .start 0 t.bounds) :=
    List.rel_append (List.forall₂_same.2 fun w _ ↦ .same w)
      (.cons (h.respelled _) (forall₂_renameNames h .start 0 t.bounds))
  refine ⟨?_, ?_⟩
  · rw [front, front, rename, gap_renameWord]
  · rw [text, text, openWithin_append, openWithin_append, rename,
      openWithin_of_respelled spelled fun w hw ↦ tokens w ?_]
    simp only [words, List.mem_append, List.mem_cons] at hw ⊢
    tauto

/-- The layout shows no more when the variables have other names. -/
theorem Plain.rename (plain : t.Plain) (h : RespellsNames ρ)
    (tokens : ∀ w ∈ t.words, IsToken w.kind w.text.toList) : (t.rename ρ).Plain := by
  obtain ⟨front, closed⟩ := @rename_text ρ 0 t h tokens
  have bounds : ∀ w ∈ t.bounds, IsToken w.kind w.text.toList := fun w hw ↦
    tokens w (by simp [words, hw])
  refine ⟨?_, ⟨?_, ?_⟩, ?_, closed.trans plain.closed⟩
  · change IsToken .ident (renameWord ρ t.name).text.toList ∧
      NoBlanks (renameWord ρ t.name).text.toList
    have spelled := h.respelled t.name
    generalize renameWord ρ t.name = v at spelled
    cases spelled with
    | same => exact plain.name
    | name _ _ new none => exact ⟨new, none⟩
  · rw [front]
    exact plain.apart.1
  · have behind := plain.apart.2
    have blank := @head?_blank_of_respelled _ _ (@tail_rename ρ t h)
      (fun w hw ↦ bounds w (List.mem_of_mem_tail hw)) t.stop.gap.toList
    cases e : t.bounds with
    | nil =>
      rw [e] at behind
      simpa [TypeParamWords.rename, e, renameNames] using behind
    | cons v b =>
      rw [e] at behind
      obtain ⟨text, nonempty, gap, head⟩ := behind
      have other : v.kind ≠ .ident := fun hv ↦
        ne_extends (hv ▸ bounds v (by simp [e])) text
      have same : (if Place.start.isFree = true ∧ 0 = 0 then renameWord ρ v else v) = v := by
        rw [renameWord_of_ne_ident other, ite_self]
      rw [show (t.rename ρ).bounds = _ from congrArg (renameNames ρ .start 0) e, renameNames, same]
      exact ⟨text, nonempty, gap, blank head⟩
  · rw [front]
    exact plain.front

end TypeParamWords

theorem kind_eq_of_isToken {kind kind' : TokenKind} {t : List Char} (h : IsToken kind t)
    (h' : IsToken kind' t) : kind = kind' := by
  rw [IsToken] at h h'
  rw [h] at h'
  exact congrArg Prod.fst (Option.some.inj h')

/-- Renamed type parameters are still a list. -/
theorem Listed.rename {ts : List TypeParamWords} (listed : Listed ts) :
    Listed (ts.map (·.rename ρ)) := by
  induction ts with
  | nil => exact listed
  | cons t ts ih =>
    cases ts with
    | nil => exact listed
    | cons u us => exact ⟨listed.1, ih listed.2⟩

/-- The text of a type parameter begins as before, or with the name. -/
theorem TypeParamWords.head?_text_rename {t : TypeParamWords} (plain : t.Plain)
    (h : RespellsNames ρ) (tokens : ∀ w ∈ t.words, IsToken w.kind w.text.toList)
    (start : t.text.head? ≠ some '<') : (t.rename ρ).text.head? ≠ some '<' := by
  have renamed := (plain.rename h tokens).name.1
  rw [text_eq] at start ⊢
  rw [(@rename_text ρ 0 t h tokens).1]
  cases text : t.front with
  | cons c cs => simpa [text] using start
  | nil =>
    rw [List.nil_append, List.head?_append_of_ne_nil _ (IsToken.ne_nil renamed)]
    exact fun first ↦ (noAngles_of_isToken renamed).1 (List.mem_of_mem_head? first)

/-- The renamed variables with what they are erased to. -/
theorem typeVariables_rename {ts : List TypeParamWords} (h : RespellsNames ρ)
    (hw : IsToken (.punct .lt) w.text.toList) (listed : Listed ts)
    (tokens : ∀ t ∈ ts, ∀ w ∈ t.words, IsToken w.kind w.text.toList)
    (start : ∀ t ∈ ts.head?, t.text.head? ≠ some '<') (plain : ∀ t ∈ ts, t.Plain) :
    typeVariables (some (sourceText (w :: (ts.map (·.rename ρ)).flatMap (·.words)))) =
      ts.map fun t ↦ (ρ t.name.text, (t.rename ρ).bound) := by
  have stops : ∀ t ∈ ts, IsToken t.stop.kind t.stop.text.toList := fun t ht ↦
    tokens t ht t.stop (by simp [TypeParamWords.words])
  have start' : ∀ t ∈ (ts.map (·.rename ρ)).head?, t.text.head? ≠ some '<' := by
    rw [List.head?_map]
    intro t' ht'
    obtain ⟨t, ht, rfl⟩ := Option.map_eq_some_iff.1 ht'
    have mem := List.mem_of_mem_head? ht
    exact TypeParamWords.head?_text_rename (plain t mem) h (tokens t mem) (start t ht)
  rw [typeVariables_sourceText hw listed.rename (by simpa [TypeParamWords.rename] using stops)
    start' ?_, List.map_map]
  · refine List.map_congr_left fun t ht ↦ Prod.ext ?_ rfl
    have kind : t.name.kind = .ident :=
      kind_eq_of_isToken (tokens t ht t.name (by simp [TypeParamWords.words])) (plain t ht).name.1
    exact congrArg Word.text (if_pos kind)
  · intro t' ht'
    obtain ⟨t, ht, rfl⟩ := List.mem_map.1 ht'
    exact (plain t ht).rename h (tokens t ht)

/-! ## Parameters -/

theorem IsPath.rename (path : IsPath ws) : IsPath (renameNames ρ .start 0 ws) := by
  obtain ⟨w, tail, rfl, hw, tailType⟩ := path
  obtain ⟨taken, e, -, -, again⟩ := typeTail_local tailType
  rw [List.append_nil] at e
  subst e
  have kinds := sameKinds_renameNames ρ (Place.start.behind 0 w) (parensBehind 0 w) tail
  have read := again _ [] kinds
  have ends : typeTail () [] = .ok ((), []) := typeTail_of_endsType (by simp [EndsType, isAt])
  rw [List.append_nil, ends] at read
  exact ⟨_, _, rfl, kind_renameWord.trans hw, read⟩

/-- Of a type only the first name is renamed outside the type arguments. -/
theorem IsPath.outside_rename (path : IsPath ws) :
    ∃ w vs, w.kind = .ident ∧ Steps vs ∧ outside 0 ws = w :: vs ∧
      outside 0 (renameNames ρ .start 0 ws) = renameWord ρ w :: vs := by
  obtain ⟨w, tail, rfl, hw, tailType⟩ := path
  have tailWords := tailWords_of_typeTail tailType
  refine ⟨w, outside 0 tail, hw, tailWords.steps, outside_cons (by simp [hw]) (by simp [hw]), ?_⟩
  have kind : (renameWord ρ w).kind = .ident := kind_renameWord.trans hw
  rw [renameNames, if_pos ⟨rfl, rfl⟩, outside_cons (by simp [kind]) (by simp [kind]),
    tailWords.outside_renameNames]

/-- Behind the first name there are further names only behind dots. -/
theorem Steps.names (steps : Steps ws) :
    ws.filter (·.kind = .ident) = [] ∨
      ws.filter (·.kind = .ident) ≠ [] ∧ ∃ v ∈ ws, v.kind = .punct .dot := by
  induction steps with
  | nil => exact .inl rfl
  | segment hd hw _ _ => exact .inr ⟨by simp [hd, hw], _, List.mem_cons_self, hd⟩
  | brackets hl hr _ ih =>
    obtain none | ⟨some, v, hv, dot⟩ := ih
    · exact .inl (by simpa [hl, hr] using none)
    · exact .inr ⟨by simpa [hl, hr] using some, v, by simp [hv], dot⟩

/-- The name of a type is renamed if it is the first. -/
theorem IsPath.simpleName_rename (path : IsPath ws)
    (qualified : (∃ v ∈ outside 0 ws, v.kind = .punct .dot) → ρ (simpleName ws) = simpleName ws) :
    simpleName (renameNames ρ .start 0 ws) = ρ (simpleName ws) ∧
      pairs (renameNames ρ .start 0 ws) = pairs ws := by
  obtain ⟨w, vs, hw, steps, outer, outer'⟩ := @IsPath.outside_rename ρ _ path
  have kind : (renameWord ρ w).kind = .ident := kind_renameWord.trans hw
  have text : (renameWord ρ w).text = ρ w.text := congrArg Word.text (if_pos hw)
  refine ⟨?_, by rw [pairs, pairs, outer, outer']; simp [kind, hw]⟩
  have names (u : Word) (hu : u.kind = .ident) : (u :: vs).filter (·.kind = .ident) =
      u :: vs.filter (·.kind = .ident) := List.filter_cons_of_pos (by simpa using hu)
  rw [outer, simpleName, outer, names w hw] at qualified
  rw [simpleName, simpleName, outer, outer', names w hw, names _ kind]
  obtain none | ⟨some, v, hv, dot⟩ := steps.names
  · simp [none, text]
  · obtain ⟨u, us, e⟩ := List.exists_cons_of_ne_nil some
    rw [e, List.getLast?_cons_cons] at qualified ⊢
    exact (qualified ⟨v, List.mem_cons_of_mem _ hv, dot⟩).symm

namespace ParamWords

variable {x : ParamWords}

/-- Rename the type variables in the type. -/
def rename (ρ : String → String) (x : ParamWords) : ParamWords :=
  { x with type := renameNames ρ .start 0 x.type }

theorem Plain.rename (plain : x.Plain) (h : RespellsNames ρ) : (x.rename ρ).Plain := by
  have spelled := forall₂_renameNames h .start 0 x.type
  have kinds : SameKinds (outside 0 (renameNames ρ .start 0 x.type)) (outside 0 x.type) :=
    outside_of_sameKinds (sameKinds_renameNames ρ .start 0 x.type)
  obtain ⟨order, name, layout⟩ := plain
  refine ⟨?_, ?_, ?_⟩
  · -- Only the kinds of the words decide where brackets and dots stand.
    have order' := (List.pairwise_map (f := Word.kind) (R := fun k k' ↦
      k = .punct .lbracket → k' ≠ .punct .dot)).2 order
    rw [← kinds] at order'
    exact List.pairwise_map.1 order'
  · change ∀ w ∈ (renameNames ρ .start 0 x.type).head?, NoBlanks w.text.toList
    generalize renameNames ρ .start 0 x.type = vs at spelled ⊢
    generalize x.type = ws at spelled name
    cases spelled with
    | nil => exact name
    | @cons w v ws vs here _ =>
      intro u hu
      obtain rfl : v = u := by simpa using hu
      exact here.noBlanks (name w rfl)
  · change PlainLayout 0 (renameNames ρ .start 0 x.type).tail
    generalize renameNames ρ .start 0 x.type = vs at spelled ⊢
    generalize x.type = ws at spelled layout
    cases spelled with
    | nil => exact layout
    | cons _ later => exact layout.respelled later

end ParamWords

/-- A renamed name is looked up in the renamed bounds as the name was, since different names
stay different. -/
theorem lookup_map_rename {ts : List TypeParamWords} {names : List String}
    (distinct : ∀ x ∈ names, ∀ y ∈ names, ρ x = ρ y → x = y)
    (declared : ∀ t ∈ ts, t.name.text ∈ names) {name : String} (hn : name ∈ names)
    (bounds : ∀ t ∈ ts, t.name.text = name → (t.rename ρ).bound = t.bound) :
    (ts.map fun t ↦ (ρ t.name.text, (t.rename ρ).bound)).lookup (ρ name) =
      (ts.map fun t ↦ (t.name.text, t.bound)).lookup name := by
  induction ts with
  | nil => rfl
  | cons t ts ih =>
    obtain ⟨here, later⟩ := List.forall_mem_cons.1 declared
    obtain ⟨bound, bounds⟩ := List.forall_mem_cons.1 bounds
    simp only [List.map_cons, List.lookup_cons, ih later bounds]
    by_cases e : t.name.text = name
    · simp [e, bound e]
    · have other : ρ name ≠ ρ t.name.text := fun e' ↦ e (distinct _ hn _ here e').symm
      rw [beq_false_of_ne other, beq_false_of_ne (Ne.symm e)]

/-! ## Renamed variables -/

/-- The variables, and nothing else, get other names.  No two of the names become one. -/
structure Renames (ρ : String → String) (vars names : List String) : Prop where
  fixes : ∀ x, x ∉ vars → ρ x = x
  isName : ∀ x ∈ vars, IsToken .ident (ρ x).toList ∧ NoBlanks (ρ x).toList
  distinct : ∀ x ∈ names, ∀ y ∈ names, ρ x = ρ y → x = y

/-- If the type is a variable, it is not qualified, and its first bound is no variable itself. -/
structure ParamWords.Resolves (ρ : String → String) (ts : List TypeParamWords)
    (x : ParamWords) : Prop where
  unqualified : simpleName x.type ∈ ts.map (·.name.text) →
    ∀ v ∈ outside 0 x.type, v.kind ≠ .punct .dot
  bounds : ∀ t ∈ ts, t.name.text = simpleName x.type →
    PlainAngles t.firstBound ∧ outside 0 (t.rename ρ).firstBound = outside 0 t.firstBound

instance (ρ : String → String) (ts : List TypeParamWords) (x : ParamWords) :
    Decidable (x.Resolves ρ ts) :=
  decidable_of_iff (_ ∧ _) ⟨fun h ↦ ⟨h.1, h.2⟩, fun h ↦ ⟨h.unqualified, h.bounds⟩⟩

/-- A renaming of variables by names without blanks respells names. -/
theorem Renames.respells {vars names : List String} (h : Renames ρ vars names)
    (plain : ∀ x ∈ vars, NoBlanks x.toList) : RespellsNames ρ := fun x ↦ by
  by_cases hx : x ∈ vars
  · exact .inr ⟨plain x hx, h.isName x hx⟩
  · exact .inl (h.fixes x hx)

/-- A parameter is erased as before. -/
theorem eraseParam_rename {ts : List TypeParamWords} {names : List String} {x : ParamWords}
    (renames : Renames ρ (ts.map (·.name.text)) names) (plainTypes : ∀ t ∈ ts, t.Plain)
    (tokens : ∀ t ∈ ts, ∀ w ∈ t.words, IsToken w.kind w.text.toList)
    (declared : ∀ t ∈ ts, t.name.text ∈ names) (named : simpleName x.type ∈ names)
    (path : IsPath x.type) (plain : x.Plain)
    (typeTokens : ∀ v ∈ x.type, IsToken v.kind v.text.toList) (dots : x.dots.length ≤ 1)
    (resolves : x.Resolves ρ ts) :
    eraseParam (ts.map fun t ↦ (ρ t.name.text, (t.rename ρ).bound)) (x.rename ρ).param =
      eraseParam (ts.map fun t ↦ (t.name.text, t.bound)) x.param := by
  have respells : RespellsNames ρ := renames.respells <| by
    simpa using fun t ht ↦ (plainTypes t ht).name.2
  have bounds : ∀ t ∈ ts, t.name.text = simpleName x.type → (t.rename ρ).bound = t.bound :=
    fun t ht e ↦ TypeParamWords.bound_rename respells
      (fun w hw ↦ tokens t ht w (by simp [TypeParamWords.words, hw])) (resolves.bounds t ht e).1
      (resolves.bounds t ht e).2
  have qualified : (∃ v ∈ outside 0 x.type, v.kind = .punct .dot) →
      ρ (simpleName x.type) = simpleName x.type := by
    rintro ⟨v, hv, dot⟩
    exact renames.fixes _ fun var ↦ resolves.unqualified var v hv dot
  obtain ⟨name, dims⟩ := path.simpleName_rename qualified
  have typeTokens' := forall₂_isToken (forall₂_renameNames respells .start 0 x.type) typeTokens
  rw [eraseParam_param (x := x.rename ρ) path.rename (plain.rename respells) typeTokens' dots,
    eraseParam_param path plain typeTokens dots]
  change ((ts.map fun t ↦ (ρ t.name.text, (t.rename ρ).bound)).lookup
      (simpleName (renameNames ρ .start 0 x.type))).getD
        (simpleName (renameNames ρ .start 0 x.type)) ++
    dimsText (pairs (renameNames ρ .start 0 x.type) + _ + _) = _
  rw [name, dims, lookup_map_rename renames.distinct declared named bounds]
  congr 1
  cases found : (ts.map fun t ↦ (t.name.text, t.bound)).lookup (simpleName x.type) with
  | some bound => rfl
  | none =>
    refine renames.fixes _ fun var ↦ ?_
    obtain ⟨t, ht, e⟩ := List.mem_map.1 var
    have := List.lookup_eq_none_iff.1 found _ (List.mem_map_of_mem ht)
    simp [e] at this

end PlatformOverlay.Java
