import PlatformOverlay.Proofs.Merge.Preservation
import Mathlib.Data.List.Infix

/-!
# Which marks survive a merge

Each pass takes one mark away, and only where it looks for it.

| mark | taken off | by the pass |
| --- | --- | --- |
| `@InheritMissingMembers` | types | of its name, the first one |
| `@Inherit` | types | of its name |
| `@OverwriteClass` | types | of its name |
| `@Overwrite` | items | of its name, the last one |

So a mark that stands elsewhere stays (`Overlaid.marksPlaced`), and so does one that a grafted type
brings along for a pass that has already run. `TypeDecl.MarksPlaced` excludes the first of a type
and `SourceModel.GraftsCleanly` the second of the common model; both can be decided.

Over a common model that grafts nothing of the kind no mark survives in a file exactly if the
platform file has none in the wrong place (`unmarked_run_iff`), at any depth. One way round this is
a matter of what each pass takes away (`Overlaid.unmarked`); for the other, nothing that stood in
the wrong place is ever moved to another.

## What is not claimed

That no mark survives at all: `@Overwrite` is written on nested types too, where no pass takes it
away, though the items beside them lose theirs (`exists_mark_survives`).
-/

namespace PlatformOverlay

namespace Java.TypeDecl

/-- No platform mark stands on the type or on an item of it. -/
def Unmarked (decl : TypeDecl) : Prop :=
  ∀ mark ∈ Mark.platform, decl.hasMark mark = false ∧ decl.anyItemMarked mark = false

/-- The marks of classes are not on items, and that of items is not on the type. -/
structure MarksPlaced (decl : TypeDecl) : Prop where
  type : decl.hasMark .overwrite = false
  items : ∀ mark ∈ Mark.ofClass, decl.anyItemMarked mark = false

instance (decl : TypeDecl) : Decidable decl.Unmarked :=
  inferInstanceAs (Decidable (∀ _ ∈ _, _))

instance (decl : TypeDecl) : Decidable decl.MarksPlaced :=
  decidable_of_iff (decl.hasMark .overwrite = false ∧
      ∀ mark ∈ Mark.ofClass, decl.anyItemMarked mark = false)
    ⟨fun h ↦ ⟨h.1, h.2⟩, fun h ↦ ⟨h.type, h.items⟩⟩

theorem anyItemMarked_eq_false {decl : TypeDecl} {mark : Mark} :
    decl.anyItemMarked mark = false ↔ ∀ i ∈ decl.items, i.hasMark mark = false := by
  simp [anyItemMarked]

end Java.TypeDecl

namespace Model

open Java

/-- The file declares the type under the qualified name, at any depth. -/
def SourceFile.Declares (file : SourceFile) (q : String) (d : TypeDecl) : Prop :=
  ∃ t ∈ file.unit.types, Encloses (qualify file.package t.name) t q d

/-- What the model grafts into a platform class leaves no mark behind: the marks of its classes
are where the passes look for them, and none is for the pass that runs before nested types are
grafted. -/
def SourceModel.GraftsCleanly (model : SourceModel) : Prop :=
  ∀ c ∈ model.classes, c.decl.MarksPlaced ∧ c.decl.hasMark .inheritMissingMembers = false

instance (model : SourceModel) : Decidable model.GraftsCleanly :=
  inferInstanceAs (Decidable (∀ _ ∈ _, _))

/-- Nested types of the common model are among its classes, so that they are clean as well. -/
theorem SourceModel.GraftsCleanly.of_encloses {common : SourceModel} (clean : common.GraftsCleanly)
    {q r : String} {c : ClassRef} (hc : (CommonClasses.ofModel common).find? q = some c)
    {t : TypeDecl} (ht : Encloses q c.decl r t) :
    t.MarksPlaced ∧ t.hasMark .inheritMissingMembers = false := by
  obtain ⟨c', hc', -, -, rfl⟩ := ((CommonClasses.declares_of_find? hc).enclosed ht).exists_mem
  exact clean c' hc'

end Model

namespace Merge

open Java Model

/-! ## The passes that a type goes through

A platform type goes through all passes and a grafted one through the grafting pass and those
after it. -/

/-- A final part of the merge that inherits has every pass but the first one. -/
theorem Pass.mem_of_suffix {passes : List Pass} (suffix : passes <:+ Pass.all)
    (inherits : .inherit ∈ passes) {pass : Pass} (late : pass ≠ .inheritMissingMembers) :
    pass ∈ passes := by
  rw [← List.mem_tails, Pass.all] at suffix
  simp only [List.tails, List.mem_cons, List.not_mem_nil, or_false] at suffix
  rcases suffix with rfl | rfl | rfl | rfl | rfl
  · cases pass <;> decide
  · cases pass <;> first | decide | exact absurd rfl late
  all_goals exact absurd inherits (by decide)

/-- Overwriting comes after both passes that graft items, so it sees the items they bring. -/
theorem Pass.overwrite_mem_of_suffix {pass : Pass} {after : List Pass}
    (suffix : pass :: after <:+ Pass.all) (grafts : pass.grafts = true) : .overwrite ∈ after := by
  have nonempty : pass :: after ≠ [] := List.cons_ne_nil _ _
  obtain ⟨before, eq⟩ := suffix
  have last : (before ++ pass :: after).getLast (List.append_ne_nil_of_right_ne_nil _ nonempty) =
      .overwrite := by
    simp only [eq]
    rfl
  rw [List.getLast_append_of_ne_nil _ nonempty] at last
  rcases List.mem_cons.1 (last ▸ List.getLast_mem nonempty) with rfl | later
  · cases grafts
  · exact later

section clear

variable {passes : List Pass}

/-- Once overwriting has run, its mark is the one that is gone from items. -/
theorem hasMark_clearItem (h : .overwrite ∈ passes) (i : Item) (mark : Mark) :
    (clearItem passes i).hasMark mark = (i.hasMark mark && mark ≠ .overwrite) := by
  rw [clearItem, if_pos h]
  by_cases hm : mark = .overwrite
  · rw [hm]
    exact (Mark.isAmong_removeFrom _ _).trans (by simp)
  · exact (Mark.isAmong_removeFrom_of_ne hm i.annotations).trans (by simp [hm, Item.hasMark])

/-- The mark of a pass that has run is gone from the class. -/
theorem isAmong_clearClass_of_mem {mark : Mark} (h : mark ∈ passes.filterMap Pass.classMark?)
    (annotations : List Annotation) : mark.isAmong (clearClass passes annotations) = false := by
  rw [Mark.isAmong, List.any_eq_false]
  intro a ha on
  have kept := (List.mem_filter.1 ha).2
  rw [Bool.not_eq_true', List.any_eq_false] at kept
  exact kept mark h on

/-- No pass takes the mark for overwriting off a class. -/
theorem overwrite_notMem_classMarks : Mark.overwrite ∉ passes.filterMap Pass.classMark? := by
  intro h
  obtain ⟨pass, -, hp⟩ := List.mem_filterMap.1 h
  cases pass <;> cases hp

theorem isAmong_clearClass_inheritMissingMembers {annotations : List Annotation}
    (h : Mark.inheritMissingMembers.isAmong annotations = true → .inheritMissingMembers ∈ passes) :
    Mark.inheritMissingMembers.isAmong (clearClass passes annotations) = false := by
  by_cases hm : Pass.inheritMissingMembers ∈ passes
  · exact isAmong_clearClass_of_mem (List.mem_filterMap.2 ⟨_, hm, rfl⟩) _
  · rw [isAmong_clearClass, ← Bool.not_eq_true]
    · exact fun marked ↦ hm (h marked)
    · intro mem
      obtain ⟨pass, hp, eq⟩ := List.mem_filterMap.1 mem
      cases pass <;> cases eq
      exact hm hp

end clear

/-! ## What is left -/

variable {common : SourceModel} {passes : List Pass} {q : String} {d e : TypeDecl}

/-- Of an item only the overwrite mark is taken, also if it was grafted. -/
theorem Overlaid.cases_hasMark (h : Overlaid (.ofModel common) passes q d e)
    (suffix : passes <:+ Pass.all) (inherits : .inherit ∈ passes) {j : Item} (hj : j ∈ e.items) :
    ∃ i, (i ∈ d.items ∨ ∃ c, (CommonClasses.ofModel common).find? q = some c ∧ i ∈ c.decl.items) ∧
      ∀ mark, j.hasMark mark = (i.hasMark mark && mark ≠ .overwrite) := by
  rcases h.cases_item hj with ⟨i, hi, rfl⟩ | hg
  · exact ⟨i, .inl hi, hasMark_clearItem (Pass.mem_of_suffix suffix inherits (by decide)) i⟩
  · cases hg with
    | @item before after pass _ _ c i grafts _ hc hi _ =>
      have later := Pass.overwrite_mem_of_suffix ((List.suffix_append _ _).trans suffix) grafts
      refine ⟨i, .inr ⟨c, hc, hi⟩, fun mark ↦ ?_⟩
      rw [hasMark_clearItem later, Item.hasMark, annotations_renameConstructor, Item.hasMark]

/-- The passes take away all marks of the type itself that are in their place, if the type goes
through the first pass or has no mark for it. -/
theorem Overlaid.unmarked_self (clean : common.GraftsCleanly)
    (h : Overlaid (.ofModel common) passes q d e) (suffix : passes <:+ Pass.all)
    (inherits : .inherit ∈ passes) (placed : d.MarksPlaced)
    (early : d.hasMark .inheritMissingMembers = true → .inheritMissingMembers ∈ passes) :
    e.Unmarked := by
  have cleared (pass : Pass) {mark : Mark} (hm : pass.classMark? = some mark)
      (late : pass ≠ .inheritMissingMembers) : e.hasMark mark = false := by
    rw [TypeDecl.hasMark, h.annotations]
    exact isAmong_clearClass_of_mem
      (List.mem_filterMap.2 ⟨pass, Pass.mem_of_suffix suffix inherits late, hm⟩) _
  have items : ∀ mark ∈ Mark.platform, e.anyItemMarked mark = false := by
    intro mark hm
    refine TypeDecl.anyItemMarked_eq_false.2 fun j hj ↦ ?_
    obtain ⟨i, hi, same⟩ := h.cases_hasMark suffix inherits hj
    rw [same]
    by_cases overwrites : mark = .overwrite
    · simp [overwrites]
    · have class_mark : mark ∈ Mark.ofClass := by
        cases mark <;> first | decide | exact absurd rfl overwrites | exact absurd hm (by decide)
      have unmarked : i.hasMark mark = false := by
        rcases hi with hi | ⟨c, hc, hi⟩
        · exact TypeDecl.anyItemMarked_eq_false.1 (placed.items mark class_mark) i hi
        · exact TypeDecl.anyItemMarked_eq_false.1
            ((clean.of_encloses hc .refl).1.items mark class_mark) i hi
      rw [unmarked, Bool.false_and]
  intro mark hm
  refine ⟨?_, items mark hm⟩
  cases mark with
  | overwrite =>
    rw [TypeDecl.hasMark, h.annotations, isAmong_clearClass overwrite_notMem_classMarks]
    exact placed.type
  | overwriteClass => exact cleared .overwriteClass rfl (by decide)
  | inherit => exact cleared .inherit rfl (by decide)
  | inheritMissingMembers =>
    rw [TypeDecl.hasMark, h.annotations]
    exact isAmong_clearClass_inheritMissingMembers early
  | overwriteTarget => exact absurd hm (by decide)

/-- No mark is left on the types in an overlaid class, own and grafted ones, once every pass
that reads one has run. -/
theorem Overlaid.unmarked (clean : common.GraftsCleanly)
    (h : Overlaid (.ofModel common) passes q d e) (suffix : passes <:+ Pass.all)
    (inherits : .inherit ∈ passes) (placed : ∀ r t, Encloses q d r t → t.MarksPlaced)
    (early : ∀ r t, Encloses q d r t →
      t.hasMark .inheritMissingMembers = true → .inheritMissingMembers ∈ passes)
    {r : String} {u : TypeDecl} (hu : Encloses q e r u) : u.Unmarked := by
  induction hu generalizing passes d with
  | refl => exact h.unmarked_self clean suffix inherits (placed _ _ .refl) (early _ _ .refl)
  | nested ht' _ ih =>
    rcases h.cases_nestedType ht' with ⟨t, ht, h'⟩ | hg
    · rw [h'.name] at ih
      exact ih h' suffix inherits (fun r u hu ↦ placed r u (.nested ht hu))
        fun r u hu ↦ early r u (.nested ht hu)
    · obtain _ | ⟨-, hc, ht, -, h'⟩ := hg
      rw [h'.name] at ih
      have clean_in {r : String} {u : TypeDecl} (hu : Encloses (nestedName _ _) _ r u) :=
        clean.of_encloses hc (.nested ht hu)
      refine ih h' ((List.suffix_append _ _).trans suffix) List.mem_cons_self
        (fun r u hu ↦ (clean_in hu).1) fun r u hu marked ↦ ?_
      rw [(clean_in hu).2] at marked
      cases marked

/-- A mark in the wrong place is still there after all passes. -/
theorem Overlaid.marksPlaced (h : Overlaid (.ofModel common) Pass.all q d e)
    (unmarked : e.Unmarked) :
    d.MarksPlaced where
  type := by
    have := (unmarked .overwrite (by decide)).1
    rwa [TypeDecl.hasMark, h.annotations, isAmong_clearClass overwrite_notMem_classMarks] at this
  items mark hm := by
    refine TypeDecl.anyItemMarked_eq_false.2 fun i hi ↦ ?_
    have platform : mark ∈ Mark.platform := by revert mark; decide
    have := TypeDecl.anyItemMarked_eq_false.1 (unmarked mark platform).2 _ (h.item_mem hi)
    rw [hasMark_clearItem (by decide)] at this
    have not_overwrite : mark ≠ .overwrite := by rintro rfl; exact absurd hm (by decide)
    simpa [not_overwrite] using this

/-- The files of a merged model in which no mark survives are those whose platform files have no
mark in the wrong place. -/
theorem unmarked_run_iff {common platform : SourceModel} (clean : common.GraftsCleanly)
    (ok : (run (.ofModel common) platform).fault = none) :
    List.Forall₂ (fun file file' : SourceFile ↦
        (∀ q u, file'.Declares q u → u.Unmarked) ↔ ∀ q t, file.Declares q t → t.MarksPlaced)
      platform.files (run (.ofModel common) platform).value.files := by
  refine (overlaid_merge ok).imp fun file file' ⟨eq, types⟩ ↦ ?_
  have package : file'.package = file.package := by rw [eq]; rfl
  constructor
  · rintro unmarked q t ⟨top, htop, ht⟩
    obtain ⟨top', htop', h⟩ := exists_of_forall₂ types.flip htop
    obtain ⟨t', ht', h'⟩ := h.exists_encloses ht
    refine h'.marksPlaced (unmarked q t' ⟨top', htop', ?_⟩)
    rwa [package, h.name]
  · rintro placed q u ⟨top', htop', hu⟩
    obtain ⟨top, htop, h⟩ := exists_of_forall₂ types htop'
    rw [package, h.name] at hu
    exact h.unmarked clean (List.suffix_refl _) (by decide)
      (fun r t ht ↦ placed r t ⟨top, htop, ht⟩) (fun _ _ _ _ ↦ by decide) hu

theorem unmarked_run_iff_pair :
    List.Forall₂ (fun file file' : SourceFile ↦
        (∀ q u, file'.Declares q u → u.Unmarked) ↔ ∀ q t, file.Declares q t → t.MarksPlaced)
      (SourceModel.ofType platformPair).files
      (run (.ofModel (.ofType commonPair)) (.ofType platformPair)).value.files :=
  unmarked_run_iff (by decide +kernel) (by decide +kernel)

/-- A platform class that overwrites a field and has the mark for it on a nested type too. -/
def overwritingType : TypeDecl :=
  { TypeDecl.bare .classType "C" with
    members :=
      [.item (fieldOf [⟨"Overwrite", none⟩] "long" "y"),
        .type { TypeDecl.bare .enumType "E" with annotations := [⟨"Overwrite", none⟩] }] }

/-- The mark of a nested type is not taken away with those of the items beside it. -/
theorem exists_mark_survives : ¬∀ common platform : SourceModel,
    (run (.ofModel common) platform).fault = none →
    ∀ c ∈ (run (.ofModel common) platform).value.classes,
      (run (.ofModel common) platform).state.touches c.file = true → c.decl.Unmarked := fun h ↦
  absurd (h (.ofType commonPair) (.ofType overwritingType) (by decide +kernel)) (by decide +kernel)

end Merge

end PlatformOverlay
