import PlatformOverlay.Proofs.Java.Erasure.Layout
import PlatformOverlay.Proofs.Merge.Graft

/-!
# Adopted supertypes

A type goes into a list of supertypes if none has its erased name yet, those that have just gone in
included (`newTypes`).  So what the platform class lists stays in front, every common type is there
under some spelling, and a list that has them all takes in nothing more (`uniteTypes_eq_self`).

Which list this is depends on the kind of the type (`supertypes`): interfaces extend others, all
other types implement them. What is adopted besides is taken over only where the platform class says
nothing itself: a superclass by classes, type parameters by all types, constants by enums.
`reparent_adopts` says this of the whole head of a class.

Types are compared by the erased names that `eraseType` computes from their texts. What these are is
said for the words of a type by `PlainType.eraseType_eq`: the last name and the brackets. So two
lists are compared by what is written in them, and `hasErased_sourceText_iff` says what it means
that a type is there already: qualifiers, type arguments and blanks do not count. This is for types
whose layout does not show in their erasure. In others it may, and a type with arguments in an
annotation, for instance, is not known again under its name.
-/

namespace PlatformOverlay.Merge

open Java

/-- Some of the types has the erased name of `t`. -/
def HasErased (types : List String) (t : String) : Prop := ∃ u ∈ types, eraseType u = eraseType t

instance (types : List String) (t : String) : Decidable (HasErased types t) :=
  inferInstanceAs (Decidable (∃ u ∈ types, eraseType u = eraseType t))

/-- For types as they are written: some of them has the last name of the type and as many pairs of
brackets.  Qualifiers, type arguments and blanks do not count. -/
theorem hasErased_sourceText_iff {types : List (List Word)} {ws : List Word}
    (plain : ∀ vs ∈ types, PlainType vs) (h : PlainType ws) :
    HasErased (types.map sourceText) (sourceText ws) ↔
      ∃ vs ∈ types, simpleName vs = simpleName ws ∧ pairs vs = pairs ws := by
  constructor
  · rintro ⟨u, hu, same⟩
    obtain ⟨vs, mem, rfl⟩ := List.mem_map.1 hu
    exact ⟨vs, mem, ((plain vs mem).eraseType_eq_iff h).1 same⟩
  · rintro ⟨vs, mem, same⟩
    exact ⟨sourceText vs, List.mem_map_of_mem mem, ((plain vs mem).eraseType_eq_iff h).2 same⟩

theorem HasErased.append {types : List String} {t : String} (h : HasErased types t)
    (more : List String) : HasErased (types ++ more) t := by
  obtain ⟨u, hu, same⟩ := h
  exact ⟨u, List.mem_append_left more hu, same⟩

/-- The types that are put behind `own`, each unless the name is there by then. -/
def newTypes : List String → List String → List String
  | _, [] => []
  | own, t :: extra =>
    if HasErased own t then newTypes own extra else t :: newTypes (own ++ [t]) extra

section

variable {own extra : List String} {t : String}

/-- The union is the own entries and the new ones behind them. -/
theorem uniteTypes_eq (own extra : List String) :
    uniteTypes own extra = own ++ newTypes own extra := by
  induction extra generalizing own with
  | nil => exact (List.append_nil own).symm
  | cons t extra ih =>
    have found : own.any (eraseType · = eraseType t) ↔ HasErased own t := by simp [HasErased]
    have first : uniteTypes own (t :: extra) =
        uniteTypes (if own.any (eraseType · = eraseType t) then own else own ++ [t]) extra := rfl
    rw [first, ih, newTypes]
    simp only [found]
    split
    · rfl
    · exact List.append_assoc own [t] _

theorem newTypes_sublist (own extra : List String) : (newTypes own extra).Sublist extra := by
  induction extra generalizing own with
  | nil => exact .slnil
  | cons t extra ih =>
    rw [newTypes]
    split
    · exact (ih own).cons t
    · exact (ih (own ++ [t])).cons_cons t

/-- An entry is new only if no entry in front of it has the same erased name. -/
theorem not_hasErased_of_newTypes {before after : List String}
    (h : newTypes own extra = before ++ t :: after) : ¬HasErased (own ++ before) t := by
  induction extra generalizing own before with
  | nil => simp [newTypes] at h
  | cons first extra ih =>
    rw [newTypes] at h
    split at h
    · exact ih h
    · rename_i new
      cases before with
      | nil =>
        obtain ⟨rfl, -⟩ := List.cons.inj h
        rwa [List.append_nil]
      | cons u before =>
        obtain ⟨rfl, behind⟩ := List.cons.inj h
        rw [List.append_cons]
        exact ih behind

theorem mem_uniteTypes (h : t ∈ uniteTypes own extra) : t ∈ own ∨ t ∈ extra := by
  rw [uniteTypes_eq, List.mem_append] at h
  exact h.imp_right fun added ↦ (newTypes_sublist own extra).subset added

/-- Every name of the second list is in the union. -/
theorem hasErased_uniteTypes (h : t ∈ extra) : HasErased (uniteTypes own extra) t := by
  rw [uniteTypes_eq]
  induction extra generalizing own with
  | nil => cases h
  | cons first extra ih =>
    have here : HasErased (own ++ newTypes own (first :: extra)) first := by
      rw [newTypes]
      split
      · rename_i old
        exact old.append _
      · exact ⟨first, by simp, rfl⟩
    rcases List.mem_cons.1 h with rfl | h
    · exact here
    · rw [newTypes]
      split
      · exact ih h
      · rw [List.append_cons]
        exact ih h

/-- A list that has all the names takes in nothing. -/
theorem uniteTypes_eq_self (h : ∀ t ∈ extra, HasErased own t) : uniteTypes own extra = own := by
  rw [uniteTypes_eq]
  induction extra with
  | nil => exact List.append_nil own
  | cons t extra ih =>
    obtain ⟨first, rest⟩ := List.forall_mem_cons.1 h
    rw [newTypes, if_pos first]
    exact ih rest

theorem uniteTypes_uniteTypes (own extra : List String) :
    uniteTypes (uniteTypes own extra) extra = uniteTypes own extra :=
  uniteTypes_eq_self fun _ ↦ hasErased_uniteTypes

end

/-! ## Adopting the parts of a common class -/

/-- The list of supertypes that types of the kind unite with that of their counterpart. -/
def supertypes (kind : TypeKind) (decl : TypeDecl) : List String :=
  if kind.isInterfaceLike then decl.extending else decl.implementing

variable {platform common : TypeDecl}

theorem typeParams_reparent :
    (reparent platform common).typeParams = (platform.typeParams <|> common.typeParams) := by
  unfold reparent
  split <;> rfl

/-- The supertypes of a class are united wherever its kind declares them. -/
theorem supertypes_reparent : supertypes platform.kind (reparent platform common) =
    uniteTypes (supertypes platform.kind platform) (supertypes platform.kind common) := by
  unfold supertypes reparent
  split <;> rfl

theorem extending_reparent (h : platform.extending ≠ []) (other : ¬platform.kind.isInterfaceLike) :
    (reparent platform common).extending = platform.extending := by
  simp [reparent, h, other]

theorem enumConstants_reparent (h : platform.enumConstants.isSome) :
    (reparent platform common).enumConstants = platform.enumConstants := by
  obtain ⟨constants, h⟩ := Option.isSome_iff_exists.1 h
  unfold reparent
  split <;> simp [h]

/-- What an interface adopts: type parameters if it has none, and supertypes. -/
theorem reparent_of_interface (h : platform.kind.isInterfaceLike) :
    reparent platform common =
      { platform with
        typeParams := platform.typeParams <|> common.typeParams
        extending := uniteTypes platform.extending common.extending } := if_pos h

/-- What any other type adopts, with a superclass for classes that have none and constants for
enums that have none. -/
theorem reparent_of_class (h : ¬platform.kind.isInterfaceLike) :
    reparent platform common =
      { platform with
        typeParams := platform.typeParams <|> common.typeParams
        extending := if platform.kind = .classType ∧ platform.extending.isEmpty
          then common.extending else platform.extending
        implementing := uniteTypes platform.implementing common.implementing
        enumConstants := if platform.kind = .enumType
          then platform.enumConstants <|> common.enumConstants else platform.enumConstants } :=
  if_neg h

/-- What has been adopted is there, so that nothing is the second time. -/
theorem reparent_reparent (platform common : TypeDecl) :
    reparent (reparent platform common) common = reparent platform common := by
  have kept {α : Type} (own extra : Option α) : ((own <|> extra) <|> extra) = (own <|> extra) := by
    cases own <;> cases extra <;> rfl
  by_cases interface : platform.kind.isInterfaceLike
  · rw [reparent_of_interface interface, reparent_of_interface (by exact interface)]
    simp only [kept, uniteTypes_uniteTypes]
  · have superclass (own extra : List String) (p : Prop) [Decidable p] :
        (if p ∧ (if p ∧ own.isEmpty then extra else own).isEmpty then extra
          else if p ∧ own.isEmpty then extra else own) =
            if p ∧ own.isEmpty then extra else own := by
      split <;> rename_i adopts
      · split <;> simp_all
      · rfl
    have constants (own extra : Option Snippet) (p : Prop) [Decidable p] :
        (if p then (if p then own <|> extra else own) <|> extra
          else if p then own <|> extra else own) = if p then own <|> extra else own := by
      split
      · exact kept own extra
      · rfl
    rw [reparent_of_class interface, reparent_of_class (by exact interface)]
    simp only [kept, uniteTypes_uniteTypes, superclass, constants]

/-- What a platform class takes over from its counterpart besides members: behind the supertypes
that it lists itself the common ones, each unless its erased name is there by then; where the class
says something itself, that stays. -/
theorem reparent_adopts (platform common : TypeDecl) :
    let merged := reparent platform common
    let listed := supertypes platform.kind
    (∃ added, listed merged = listed platform ++ added ∧ added.Sublist (listed common) ∧
      ∀ before t after, added = before ++ t :: after → ¬HasErased (listed platform ++ before) t) ∧
    (∀ t ∈ listed common, HasErased (listed merged) t) ∧
    (platform.kind = .classType → platform.extending ≠ [] →
      merged.extending = platform.extending) ∧
    (platform.typeParams.isSome → merged.typeParams = platform.typeParams) ∧
    (platform.enumConstants.isSome → merged.enumConstants = platform.enumConstants) ∧
    reparent merged common = merged := by
  intro merged listed
  have united : listed merged = uniteTypes (listed platform) (listed common) := supertypes_reparent
  refine ⟨⟨newTypes (listed platform) (listed common), ?_, newTypes_sublist _ _, ?_⟩, ?_, ?_, ?_,
    enumConstants_reparent, reparent_reparent platform common⟩
  · rw [united, uniteTypes_eq]
  · intro before t after e
    exact not_hasErased_of_newTypes e
  · intro t ht
    rw [united]
    exact hasErased_uniteTypes ht
  · intro kind declared
    exact extending_reparent declared (by simp [kind, TypeKind.isInterfaceLike])
  · intro declared
    obtain ⟨own, h⟩ := Option.isSome_iff_exists.1 declared
    rw [typeParams_reparent, h]
    rfl

end PlatformOverlay.Merge
