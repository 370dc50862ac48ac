import PlatformOverlay.Proofs.Merge.Overlay

/-!
# A merge keeps platform code and adds what is missing

`Merged` says what a merge may make of a platform type without speaking of passes: what the type
declares is there in its order, its annotations but for the marks of classes as well, and items lose
nothing but overwriting marks. Between these stand members that were added, and `Added` says where
each of them comes from.

| member | is added as |
| --- | --- |
| an item the platform type lacks | it stands in the common type, annotations and comment included |
| a constructor | the same, but with the name of the platform type |
| a type, if the platform type inherits | it stands in the common type |

The passes are related to this specification through `Overlaid`, which does speak of them. What is
left to prove is that nothing more happens to what has been grafted. Over a common model without
platform marks that is so: a common type has nothing to graft and nothing to clear, so the types
that are grafted come as they are (`Overlaid.eq_of_idle`), and every overlaid class is merged in the
sense of the specification (`Overlaid.merged`). `run_keeps_platform_code` puts this together for all
files of a model.

What happens to the head of a class besides its annotations is said in
`PlatformOverlay.Proofs.Merge.Supertypes`.
-/

namespace PlatformOverlay.Merge

open Java Model

/-- The member comes from the common counterpart of the platform type `d`, which lacks it: an item
as it is, except that a constructor gets the name of `d`, or under `@Inherit` also a nested type. -/
inductive Added (common : CommonClasses) (q : String) (d : TypeDecl) : Member → Prop
  | item {c : ClassRef} {i : Item} : common.find? q = some c → i ∈ c.decl.items →
      d.hasMark .inheritMissingMembers ∨ d.hasMark .inherit → Lacks d c.decl i →
      (∀ k, i.content ≠ .constructor k) → Added common q d (.item i)
  | constructor {c : ClassRef} {i : Item} {k : Constructor} : common.find? q = some c →
      i ∈ c.decl.items → d.hasMark .inheritMissingMembers ∨ d.hasMark .inherit →
      Lacks d c.decl i → i.content = .constructor k →
      Added common q d (.item { i with content := .constructor { k with name := d.name } })
  | type {c : ClassRef} {t : TypeDecl} : common.find? q = some c → t ∈ c.decl.nestedTypes →
      d.hasMark .inherit → (∀ u ∈ d.nestedTypes, u.name ≠ t.name) → Added common q d (.type t)

mutual

/-- What a merge may make of a platform type with the qualified name `q`. -/
inductive Merged (common : CommonClasses) : String → TypeDecl → TypeDecl → Prop
  | mk {q : String} {d d' : TypeDecl} :
      d'.kind = d.kind → d'.name = d.name → d'.doc = d.doc → d'.modifiers = d.modifiers →
      d'.components = d.components → d'.permitting = d.permitting →
      d'.annotations = d.annotations.filter (fun a ↦ !Mark.ofClass.any (·.isOn a)) →
      MergedMembers common q d d.members d'.members → Merged common q d d'

/-- The members of the type in their order, with added ones between them.  Items lose the
annotations that are overwriting marks and nothing else. -/
inductive MergedMembers (common : CommonClasses) :
    String → TypeDecl → List Member → List Member → Prop
  | nil {q : String} {d : TypeDecl} : MergedMembers common q d [] []
  | item {q : String} {d : TypeDecl} {i : Item} {ms ms' : List Member} :
      MergedMembers common q d ms ms' →
      MergedMembers common q d (.item i :: ms)
        (.item { i with annotations := i.annotations.filter fun a ↦ !Mark.overwrite.isOn a } :: ms')
  | type {q : String} {d t t' : TypeDecl} {ms ms' : List Member} :
      Merged common (nestedName q t.name) t t' → MergedMembers common q d ms ms' →
      MergedMembers common q d (.type t :: ms) (.type t' :: ms')
  | added {q : String} {d : TypeDecl} {m : Member} {ms ms' : List Member} :
      Added common q d m → MergedMembers common q d ms ms' →
      MergedMembers common q d ms (m :: ms')

end

variable {common : CommonClasses} {passes : List Pass} {q : String} {d e : TypeDecl}

/-- No pass treats the type or one in it. -/
def Idle (q : String) (d : TypeDecl) : Prop :=
  ∀ r t, Encloses q d r t → ∀ pass : Pass, pass.treats t = false

theorem Idle.nested (idle : Idle q d) {t : TypeDecl} (ht : t ∈ d.nestedTypes) :
    Idle (nestedName q t.name) t :=
  fun r u hu ↦ idle r u (.nested ht hu)

theorem Pass.treats_eq_false_of_unmarked (pass : Pass)
    (unmarked : ∀ mark ∈ Mark.platform, d.hasMark mark = false ∧ d.anyItemMarked mark = false) :
    pass.treats d = false := by
  cases pass with
  | inheritMissingMembers => exact (unmarked .inheritMissingMembers (by decide)).1
  | inherit => exact (unmarked .inherit (by decide)).1
  | overwriteClass => exact (unmarked .overwriteClass (by decide)).1
  | overwrite => exact (unmarked .overwrite (by decide)).2

/-- Without marks in the common model, its classes are idle. -/
theorem idle_of_find? {common : SourceModel} (unmarked : common.Unmarked) {c : ClassRef}
    (hc : (CommonClasses.ofModel common).find? q = some c) : Idle q c.decl :=
  fun _ _ hu pass ↦ pass.treats_eq_false_of_unmarked
    (CommonClasses.unmarked_of_find? unmarked hc hu)

theorem clearItem_of_not_hasMark {i : Item} (h : i.hasMark .overwrite = false) :
    clearItem passes i = i := by
  unfold clearItem
  split
  · exact Item.removeMark_of_not_hasMark h
  · rfl

theorem clearClass_of_not_treats (h : ∀ pass : Pass, pass.treats d = false) :
    clearClass passes d.annotations = d.annotations := by
  rw [clearClass, List.filter_eq_self]
  intro a ha
  rw [Bool.not_eq_true', List.any_eq_false]
  intro mark hm
  obtain ⟨pass, -, hp⟩ := List.mem_filterMap.1 hm
  have unmarked : d.hasMark mark = false := by
    rw [← h pass]
    cases pass <;> cases hp <;> rfl
  rw [TypeDecl.hasMark, Mark.isAmong, List.any_eq_false] at unmarked
  exact unmarked a ha

/-- Nothing happens to an idle type. -/
theorem Overlaid.eq_of_idle (h : Overlaid common passes q d e) (idle : Idle q d) : e = d := by
  induction d using TypeDecl.nestingInduction generalizing passes q e with
  | step d ih =>
    have own := idle q d .refl
    have no_graft : ∀ m, ¬Grafted common passes q d m := by
      rintro m (⟨-, treats, -, -, -⟩ | ⟨marked, -, -, -, -⟩)
      · rw [own] at treats
        cases treats
      · exact absurd (marked.symm.trans (own .inherit)) (by decide)
    have members : ∀ ms' ms, (∀ m ∈ ms, m ∈ d.members) → OverlaidMembers common passes q d ms ms' →
        ms' = ms := by
      intro ms'
      induction ms' with
      | nil =>
        intro ms _ h
        cases h
        rfl
      | cons m' ms' ihm =>
        intro ms hms h
        rcases h.cons_cases with ⟨m, rest, rfl, hm, h⟩ | ⟨hg, -⟩
        · rw [ihm rest (fun m hm ↦ hms m (List.mem_cons_of_mem _ hm)) h]
          have first := hms m List.mem_cons_self
          cases hm with
          | @item i =>
            have unm : i.hasMark .overwrite = false := by
              have := own .overwrite
              rw [Pass.treats, TypeDecl.anyItemMarked, List.any_eq_false] at this
              simpa using this i (TypeDecl.mem_items.2 first)
            rw [clearItem_of_not_hasMark unm]
          | @type t t' ht =>
            have mem := TypeDecl.mem_nestedTypes.2 first
            rw [ih t mem ht (idle.nested mem)]
        · exact absurd hg (no_graft m')
    rw [h.eq, members _ _ (fun _ hm ↦ hm) h.members,
      clearClass_of_not_treats own]
    have : adopt common passes q d = d :=
      if_neg fun h ↦ absurd (h.2.symm.trans (own .inherit)) (by decide)
    rw [this]
    cases d
    rfl

/-- A copy of a common item under the name of the class is one that is added. -/
theorem added_renameConstructor {c : ClassRef} {i : Item} (hc : common.find? q = some c)
    (hi : i ∈ c.decl.items) (marked : d.hasMark .inheritMissingMembers ∨ d.hasMark .inherit)
    (lacking : Lacks d c.decl i) : Added common q d (.item (renameConstructor d.name i)) := by
  unfold renameConstructor
  split
  next k content => exact .constructor hc hi marked lacking content
  all_goals
    next content => exact .item hc hi marked lacking (by simp [content])

/-- An added item has the annotations of a common one. -/
theorem Added.exists_item {j : Item} (h : Added common q d (.item j)) :
    ∃ c, common.find? q = some c ∧ ∃ i ∈ c.decl.items, j.annotations = i.annotations := by
  cases h with
  | item hc hi => exact ⟨_, hc, _, hi, rfl⟩
  | constructor hc hi => exact ⟨_, hc, _, hi, rfl⟩

/-- An added type is one of the common class. -/
theorem Added.exists_type {t : TypeDecl} (h : Added common q d (.type t)) :
    ∃ c, common.find? q = some c ∧ t ∈ c.decl.nestedTypes := by
  cases h with
  | type hc ht => exact ⟨_, hc, ht⟩

/-- After all passes, the marks of classes are gone and all other annotations are there. -/
theorem clearClass_all (annotations : List Annotation) : clearClass Pass.all annotations =
    annotations.filter fun a ↦ !Mark.ofClass.any (·.isOn a) := rfl

/-- What passes have grafted was added from the common class as the specification says. -/
theorem Grafted.added {common : SourceModel} (unmarked : common.Unmarked) {m : Member}
    (h : Grafted (.ofModel common) passes q d m) : Added (.ofModel common) q d m := by
  cases h with
  | @item before after pass _ _ c i grafts treats hc hi lacking =>
    have unm : (renameConstructor d.name i).hasMark .overwrite = false := by
      have := (CommonClasses.unmarked_of_find? unmarked hc .refl .overwrite (by decide)).2
      rw [TypeDecl.anyItemMarked, List.any_eq_false] at this
      have : i.hasMark .overwrite = false := by simpa using this i hi
      rwa [Item.hasMark, annotations_renameConstructor]
    rw [clearItem_of_not_hasMark unm]
    refine added_renameConstructor hc hi ?_ lacking
    cases pass with
    | inheritMissingMembers => exact .inl treats
    | inherit => exact .inr treats
    | overwriteClass => cases grafts
    | overwrite => cases grafts
  | @type before after _ _ t t' c marked hc ht new h =>
    rw [h.eq_of_idle ((idle_of_find? unmarked hc).nested ht)]
    refine .type hc ht marked fun u hu same ↦ ?_
    rw [TypeDecl.nestedType?, List.find?_eq_none] at new
    exact new u hu (decide_eq_true same)

/-- An overlaid class is merged in the sense of the specification. -/
theorem Overlaid.merged {common : SourceModel} (unmarked : common.Unmarked)
    (h : Overlaid (.ofModel common) Pass.all q d e) : Merged (.ofModel common) q d e := by
  induction d using TypeDecl.nestingInduction generalizing q e with
  | step d ih =>
    have members : ∀ ms' ms, (∀ m ∈ ms, m ∈ d.members) →
        OverlaidMembers (.ofModel common) Pass.all q d ms ms' →
        MergedMembers (.ofModel common) q d ms ms' := by
      intro ms'
      induction ms' with
      | nil =>
        intro ms _ h
        cases h
        exact .nil
      | cons m' ms' ihm =>
        intro ms hms h
        rcases h.cons_cases with ⟨m, rest, rfl, hm, h⟩ | ⟨hg, h⟩
        · have later := ihm rest (fun m hm ↦ hms m (List.mem_cons_of_mem _ hm)) h
          cases hm with
          | item => exact .item later
          | type ht =>
            have mem := TypeDecl.mem_nestedTypes.2 (hms _ List.mem_cons_self)
            exact .type (ih _ mem ht) later
        · exact .added (hg.added unmarked) (ihm ms hms h)
    obtain ⟨_, _, _, _, eq⟩ := h.eq_with
    refine .mk ?_ ?_ ?_ ?_ ?_ ?_ ?_ (members _ _ (fun _ hm ↦ hm) h.members)
    · rw [eq]
    · rw [eq]
    · rw [eq]
    · rw [eq]
    · rw [eq]
    · rw [eq]
    · rw [h.annotations, clearClass_all]

/-- A merge keeps every file and every type with all that it declares, takes only marks away,
and adds only what a type lacks of its common counterpart. -/
theorem run_keeps_platform_code {common platform : SourceModel} (unmarked : common.Unmarked)
    (ok : (run (.ofModel common) platform).fault = none) :
    platform.Corresponds (Merged (.ofModel common)) (run (.ofModel common) platform).value :=
  (overlaid_merge ok).mono fun _ _ _ h ↦ h.merged unmarked

/-- A package-private field without a value. -/
def fieldOf (annotations : List Annotation) (type name : String) : Item :=
  ⟨none, annotations, .empty, .field ⟨type, name, none⟩⟩

/-- A common class with two fields and a nested type. -/
def commonPair : TypeDecl :=
  { TypeDecl.bare .classType "C" with
    members := [.item (fieldOf [] "int" "x"), .item (fieldOf [] "int" "y"),
      .type (.bare .enumType "E")] }

/-- A platform class that overwrites one of the fields and takes in the rest. -/
def platformPair : TypeDecl :=
  { TypeDecl.bare .classType "C" with
    annotations := [⟨"Inherit", none⟩]
    members := [.item (fieldOf [⟨"Overwrite", none⟩] "long" "y")] }

theorem run_keeps_platform_code_pair :
    SourceModel.Corresponds (Merged (.ofModel (.ofType commonPair))) (.ofType platformPair)
      (run (.ofModel (.ofType commonPair)) (.ofType platformPair)).value :=
  run_keeps_platform_code (by decide +kernel) (by decide +kernel)

end PlatformOverlay.Merge
