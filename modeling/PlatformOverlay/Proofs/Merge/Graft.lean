import PlatformOverlay.Mark
import PlatformOverlay.Merge.Graft
import PlatformOverlay.Proofs.Model.Classes

/-!
# What grafting does to the members of a class

Grafting keeps the members and puts others behind them, and fields also between them (`Grown`).
That a class lacks an item is a matter of signatures and staticness alone (`lacks_iff`), so a class
lacks no more when its items lose annotations or others are added (`Lacks.of_items`).

`Grown P Q` keeps apart what may be added at the end, which has `P`, and what may be added between
the old elements, which has `Q` as well. New fields go behind the last field, and all other items to
the end; hence it is fields that stand between (`grown_graftItems`). Nested types go to the end
(`grown_graftTypes`).
-/

namespace PlatformOverlay

variable {α : Type}

/-- The second list is the first with elements added that satisfy `P`, between those of the
first only such that satisfy `Q` as well. -/
inductive Grown (P Q : α → Prop) : List α → List α → Prop
  | rest {bs : List α} : (∀ b ∈ bs, P b) → Grown P Q [] bs
  | keep {a : α} {as bs : List α} : Grown P Q as bs → Grown P Q (a :: as) (a :: bs)
  | add {b : α} {as bs : List α} : P b → Q b → Grown P Q as bs → Grown P Q as (b :: bs)

namespace Grown

variable {P Q : α → Prop} {as bs cs : List α}

protected theorem refl (as : List α) : Grown P Q as as := by
  induction as with
  | nil => exact .rest (by simp)
  | cons a as ih => exact .keep ih

theorem append_right (h : Grown P Q as bs) (h' : ∀ c ∈ cs, P c) : Grown P Q as (bs ++ cs) := by
  induction h with
  | rest hb => exact .rest fun b hm ↦ (List.mem_append.1 hm).elim (hb b) (h' b)
  | keep _ ih => exact .keep ih
  | add hp hq _ ih => exact .add hp hq ih

theorem insert (front behind : List α) (h : ∀ c ∈ cs, P c ∧ Q c) :
    Grown P Q (front ++ behind) (front ++ cs ++ behind) := by
  induction front with
  | cons a front ih => exact .keep ih
  | nil =>
    induction cs with
    | nil => exact .refl behind
    | cons c cs ih =>
      obtain ⟨hp, hq⟩ := h c List.mem_cons_self
      exact .add hp hq (ih fun c hc ↦ h c (List.mem_cons_of_mem _ hc))

/-- What a list has grown from nothing is all added. -/
theorem forall_of_nil (h : Grown P Q [] bs) : ∀ b ∈ bs, P b := by
  induction bs with
  | nil => simp
  | cons b bs ih =>
    cases h with
    | rest h => exact h
    | add hp _ h =>
      intro c hc
      rcases List.mem_cons.1 hc with rfl | hc
      · exact hp
      · exact ih h c hc

theorem trans (h : Grown P Q as bs) (h' : Grown P Q bs cs) : Grown P Q as cs := by
  induction h' generalizing as with
  | rest hc =>
    cases h
    exact .rest hc
  | @keep b bs cs h' ih =>
    cases h with
    | rest hb =>
      have later := ih (.rest fun b hm ↦ hb b (List.mem_cons_of_mem _ hm))
      refine .rest fun c hm ↦ ?_
      rcases List.mem_cons.1 hm with rfl | hm
      · exact hb c List.mem_cons_self
      · exact later.forall_of_nil c hm
    | keep h => exact .keep (ih h)
    | add hp hq h => exact .add hp hq (ih h)
  | add hp hq _ ih => exact .add hp hq (ih h)

/-- The property of what is added can be weakened. -/
theorem mono {P' : α → Prop} (h : Grown P Q as bs) (hP : ∀ a, P a → P' a) : Grown P' Q as bs := by
  induction h with
  | rest hb => exact .rest fun b hm ↦ hP b (hb b hm)
  | keep _ ih => exact .keep ih
  | add hp hq _ ih => exact .add (hP _ hp) hq ih

end Grown

namespace Java

namespace Item

/-- Annotations do not count, and of the owner only the components do. -/
theorem signature?_congr {item item' : Item} {owner owner' : TypeDecl}
    (hc : item.content = item'.content) (ho : owner.components = owner'.components) :
    item.signature? owner = item'.signature? owner' := by
  rw [signature?, signature?, hc, ho]

/-- Taking a mark off leaves what an item declares as it is. -/
@[simp] theorem content_removeMark (item : Item) (mark : Mark) :
    (item.removeMark mark).content = item.content := rfl

@[simp] theorem modifiers_removeMark (item : Item) (mark : Mark) :
    (item.removeMark mark).modifiers = item.modifiers := rfl

end Item

namespace TypeDecl

theorem mem_items {decl : TypeDecl} {i : Item} : i ∈ decl.items ↔ .item i ∈ decl.members := by
  unfold items
  rw [List.mem_filterMap]
  constructor
  · rintro ⟨j | _, hm, h⟩
    · rwa [← Option.some.inj h]
    · simp at h
  · exact fun h ↦ ⟨_, h, rfl⟩

/-- An item is not declared when no item has its signature. -/
theorem declares_eq_false {platform common : TypeDecl} {item : Item} {signature : Signature}
    (h : item.signature? common = some signature) :
    platform.declares common item = false ↔
      ∀ i ∈ platform.items, i.signature? platform ≠ some signature := by
  rw [declares, counterpart?, h, Option.bind_some, Option.isSome_eq_false_iff,
    Option.isNone_iff_eq_none, itemWith?, List.find?_eq_none]
  simp

end TypeDecl

end Java

namespace Merge

open Java

/-- The platform class has no item that is the same member as the item of the common class:
none of its signature, or, for an initializer, no initializer of its staticness. -/
def Lacks (platform common : TypeDecl) (item : Item) : Prop :=
  match item.signature? common with
  | some signature => ∀ i ∈ platform.items, i.signature? platform ≠ some signature
  | none => ∀ i ∈ platform.items, i.isInitializer → i.modifiers.isStatic ≠ item.modifiers.isStatic

/-- The test for a lacking item is about signatures, and about staticness for initializers. -/
theorem lacks_iff {platform common : TypeDecl} {item : Item} :
    lacks platform common item = true ↔ Lacks platform common item := by
  unfold lacks Lacks
  cases h : item.signature? common with
  | none =>
    rw [if_pos (Item.signature?_eq_none.1 h)]
    simp [hasInitializer]
  | some signature =>
    have structural : ¬item.isInitializer = true := by
      intro initializer
      rw [Item.signature?_eq_none.2 initializer] at h
      cases h
    rw [if_neg structural, Bool.not_eq_true', TypeDecl.declares_eq_false h]

/-- What is lacking in a class is lacking in one that has fewer items. -/
theorem Lacks.of_items {platform platform' common : TypeDecl} {item : Item}
    (h : Lacks platform' common item) (hc : platform.components = platform'.components)
    (items : ∀ i ∈ platform.items, ∃ i' ∈ platform'.items,
      i'.content = i.content ∧ i'.modifiers = i.modifiers) :
    Lacks platform common item := by
  unfold Lacks at h ⊢
  cases hs : item.signature? common with
  | none =>
    rw [hs] at h
    intro i hi init
    obtain ⟨i', hi', content, modifiers⟩ := items i hi
    rw [← modifiers]
    exact h i' hi' (by rwa [Item.isInitializer, content])
  | some signature =>
    rw [hs] at h
    intro i hi
    obtain ⟨i', hi', content, -⟩ := items i hi
    rw [Item.signature?_congr content.symm hc]
    exact h i' hi'

/-! ## Putting fields in -/

theorem insertFields_eq (fields ms : List Member) :
    ∃ front behind, ms = front ++ behind ∧ insertFields fields ms = front ++ fields ++ behind ∧
      (∀ m ∈ behind, isFieldMember m = false) ∧ ∀ m, front.getLast? = some m → isFieldMember m := by
  obtain ⟨front, hf⟩ : ∃ front, front = ms.reverse.dropWhile fun m ↦ !isFieldMember m := ⟨_, rfl⟩
  obtain ⟨behind, hb⟩ : ∃ behind, behind = ms.reverse.takeWhile fun m ↦ !isFieldMember m := ⟨_, rfl⟩
  have parts : ms = front.reverse ++ behind.reverse := by
    rw [← List.reverse_append, hf, hb, List.takeWhile_append_dropWhile, List.reverse_reverse]
  refine ⟨front.reverse, behind.reverse, parts, ?_, fun m hm ↦ ?_, fun m hm ↦ ?_⟩
  · have front_eq : ms.take (ms.length - behind.reverse.length) = front.reverse := by
      rw [parts, List.length_append, Nat.add_sub_cancel, List.take_left']
      rfl
    simp only [insertFields, ← hb, front_eq]
  · rw [List.mem_reverse, hb] at hm
    simpa using List.all_eq_true.1 List.all_takeWhile m hm
  · rw [List.getLast?_reverse, hf] at hm
    have := List.head?_dropWhile_not (fun m ↦ !isFieldMember m) ms.reverse
    rw [hm] at this
    simpa using this

/-- A class grows by its new fields between fields only. -/
theorem grown_insertFields {P : Member → Prop} {fields : List Member} (ms : List Member)
    (h : ∀ m ∈ fields, P m ∧ isFieldMember m) :
    Grown P (isFieldMember ·) ms (insertFields fields ms) := by
  obtain ⟨front, behind, rfl, e, -, -⟩ := insertFields_eq fields ms
  rw [e]
  exact .insert front behind h

theorem nestedTypes_insertFields {fields : List Item} {ms : List Member} :
    (insertFields (fields.map .item) ms).filterMap Member.type? = ms.filterMap Member.type? := by
  obtain ⟨front, behind, rfl, e, -, -⟩ := insertFields_eq (fields.map .item) ms
  rw [e]
  simp [List.filterMap_map, Function.comp_def]

/-! ## Moving to another class -/

section renameConstructor

variable (name : String) (item : Item)

theorem annotations_renameConstructor :
    (renameConstructor name item).annotations = item.annotations := by
  unfold renameConstructor
  split <;> rfl

theorem modifiers_renameConstructor :
    (renameConstructor name item).modifiers = item.modifiers := by
  unfold renameConstructor
  split <;> rfl

/-- The signature of a constructor does not have its name, so the renamed one has the same. -/
theorem signature?_renameConstructor (owner : TypeDecl) :
    (renameConstructor name item).signature? owner = item.signature? owner := by
  unfold renameConstructor
  cases h : item.content <;> simp [Item.signature?, h]

theorem isField_renameConstructor : (renameConstructor name item).isField = item.isField := by
  unfold renameConstructor
  cases h : item.content <;> simp [Item.isField, h]

theorem renameConstructor_of_isField (h : item.isField = true) :
    renameConstructor name item = item := by
  unfold renameConstructor
  cases hc : item.content <;> simp_all [Item.isField]

end renameConstructor

/-! ## What is grafted -/

/-- The member is a lacking item of the common class. -/
def IsGraftOf (platform common : TypeDecl) (m : Member) : Prop :=
  ∃ item ∈ common.items, Lacks platform common item ∧
    m = .item (renameConstructor platform.name item)

/-- The member is a nested type of the common class that the platform class has none like. -/
def IsTypeGraftOf (platform common : TypeDecl) (m : Member) : Prop :=
  ∃ t ∈ common.nestedTypes, platform.nestedType? t.name = none ∧ m = .type t

variable {platform common : TypeDecl}

/-- The missing items are the items of the common class that are lacking. -/
theorem mem_missingItems {item : Item} :
    item ∈ missingItems platform common ↔ item ∈ common.items ∧ Lacks platform common item := by
  rw [missingItems, List.mem_filter, lacks_iff]

/-- Grafting items adds missing ones, fields behind the fields and all others at the end. -/
theorem grown_graftItems (platform common : TypeDecl) :
    Grown (IsGraftOf platform common) (isFieldMember ·) platform.members
      (graftItems platform common).members := by
  refine (grown_insertFields _ fun m hm ↦ ?_).append_right fun m hm ↦ ?_
  · obtain ⟨item, hi, rfl⟩ := List.mem_map.1 hm
    obtain ⟨hi, field⟩ := List.mem_filter.1 hi
    obtain ⟨hc, lacking⟩ := mem_missingItems.1 hi
    exact ⟨⟨item, hc, lacking, by rw [renameConstructor_of_isField _ _ field]⟩, field⟩
  · obtain ⟨i, hi, rfl⟩ := List.mem_map.1 hm
    obtain ⟨item, hmem, rfl⟩ := List.mem_map.1 hi
    obtain ⟨hc, lacking⟩ := mem_missingItems.1 (List.mem_of_mem_filter hmem)
    exact ⟨item, hc, lacking, rfl⟩

/-- Grafting types adds those that have no namesake. -/
theorem grown_graftTypes (platform common : TypeDecl) :
    Grown (IsTypeGraftOf platform common) (isFieldMember ·) platform.members
      (graftTypes platform common).members := by
  refine (Grown.refl _).append_right fun m hm ↦ ?_
  obtain ⟨t, ht, rfl⟩ := List.mem_map.1 hm
  obtain ⟨ht, new⟩ := List.mem_filter.1 ht
  exact ⟨t, ht, Option.isNone_iff_eq_none.1 new, rfl⟩

@[simp] theorem nestedTypes_graftItems :
    (graftItems platform common).nestedTypes = platform.nestedTypes := by
  rw [TypeDecl.nestedTypes, graftItems, List.filterMap_append, nestedTypes_insertFields]
  simp [List.filterMap_map, Function.comp_def, TypeDecl.nestedTypes]

/-- The nested types are those of the platform class and the new ones, in this order. -/
theorem nestedTypes_graftTypes : (graftTypes platform common).nestedTypes =
    platform.nestedTypes ++
      common.nestedTypes.filter fun t ↦ (platform.nestedType? t.name).isNone := by
  simp [graftTypes, TypeDecl.nestedTypes, List.filterMap_map, Function.comp_def]

/-- Only type parameters, supertypes and enum constants can become others. -/
theorem reparent_eq (platform common : TypeDecl) :
    ∃ typeParams extending implementing enumConstants, reparent platform common =
      { platform with typeParams, extending, implementing, enumConstants } := by
  unfold reparent
  split
  · exact ⟨_, _, _, _, rfl⟩
  · exact ⟨_, _, _, _, rfl⟩

/-- Annotations and members play no part. -/
theorem reparent_with (platform common : TypeDecl) (annotations : List Annotation)
    (members : List Member) : reparent { platform with annotations, members } common =
      { reparent platform common with annotations, members } := by
  unfold reparent
  by_cases h : platform.kind.isInterfaceLike <;> simp [h]

@[simp] theorem members_reparent : (reparent platform common).members = platform.members := by
  unfold reparent
  split <;> rfl

end Merge

end PlatformOverlay
