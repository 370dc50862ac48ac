import PlatformOverlay.Check.Validate
import PlatformOverlay.Proofs.Check.Report
import PlatformOverlay.Proofs.Model.Classes

/-!
# What validation reports

The report of a validation is that of a list of findings: those of the classes in model
order and then the targets for which there is no class (`validate_eq`).
-/

namespace PlatformOverlay.Check

open Java Model

/-- The members that are reported for one class and its common counterpart. -/
def violations (platform common : ClassRef) : ReportKind → List String
  | .missingMembers => missingMembers platform common
  | .unreachableMembers => unreachableMembers platform common
  | .moreRestrictiveAccess => badOverrides Override.restricts platform common
  | .accessKindMismatch => badOverrides Override.changesKind platform common
  | .missingOverwrites => []

def classFindings (common : CommonClasses) (c : ClassRef) : List Finding :=
  match common.find? c.qualified with
  | none => []
  | some parent =>
      ReportKind.all.flatMap fun kind ↦ (violations c parent kind).map (⟨kind, c.qualified, ·⟩)

def targetFindings (common : CommonClasses) (declared : List String) : List Finding :=
  (common.targets.filter fun target ↦ !declared.contains target.qualified).map
    fun target ↦ ⟨.missingOverwrites, target.qualified, target.relative⟩

/-- The check of a class adds its findings, in the order of the kinds. -/
theorem checkClass_eq (common : CommonClasses) (report : Report) (c : ClassRef) :
    checkClass common report c = report.addFindings (classFindings common c) := by
  unfold checkClass classFindings
  cases common.find? c.qualified with
  | none => rfl
  | some parent =>
    simp only [ReportKind.all, List.flatMap_cons, List.flatMap_nil, violations,
      List.map_nil, List.append_nil, Report.addFindings_append, Report.addAll_eq]

/-- The check of the targets adds a finding for each one that no class declares. -/
theorem checkTargets_eq (common : CommonClasses) (declared : List String) (report : Report) :
    checkTargets common declared report = report.addFindings (targetFindings common declared) := by
  unfold checkTargets targetFindings
  induction common.targets generalizing report with
  | nil => rfl
  | cons target targets ih =>
    rw [List.foldl_cons, ih]
    by_cases h : declared.contains target.qualified
    · rw [if_pos h, List.filter_cons_of_neg (by rw [h]; decide)]
    · rw [if_neg h, List.filter_cons_of_pos (by simpa using h)]
      rfl

theorem foldl_checkClass (common : CommonClasses) (classes : List ClassRef) (report : Report) :
    classes.foldl (checkClass common) report =
      report.addFindings (classes.flatMap (classFindings common)) := by
  induction classes generalizing report with
  | nil => rfl
  | cons c classes ih =>
    rw [List.foldl_cons, ih, checkClass_eq, List.flatMap_cons, Report.addFindings_append]

/-- The report of a model is that of the findings about its classes and then about the targets. -/
theorem validate_eq (common : CommonClasses) (model : SourceModel) :
    validate common model = .ofFindings (model.classes.flatMap (classFindings common) ++
      targetFindings common (model.classes.map ClassRef.qualified)) := by
  rw [validate, foldl_checkClass, checkTargets_eq, ← Report.addFindings_append]
  rfl

/-- A finding about a class is a violation against its counterpart. -/
theorem mem_classFindings {common : CommonClasses} {c : ClassRef} {f : Finding} :
    f ∈ classFindings common c ↔ f.className = c.qualified ∧
      ∃ parent, common.find? c.qualified = some parent ∧ f.member ∈ violations c parent f.kind := by
  unfold classFindings
  cases common.find? c.qualified with
  | none => simp
  | some parent =>
    simp only [List.mem_flatMap, List.mem_map]
    constructor
    · rintro ⟨kind, -, member, hm, rfl⟩
      exact ⟨rfl, parent, rfl, hm⟩
    · rintro ⟨hc, other, e, hm⟩
      obtain rfl := Option.some.inj e
      refine ⟨f.kind, by cases f.kind <;> decide, f.member, hm, ?_⟩
      rw [← hc]

/-- What is reported under a kind for a class name: what is wrong with a class of that name,
or that there is none and the name is one of the targets. -/
theorem mem_members_validate {common : CommonClasses} {model : SourceModel} {kind : ReportKind}
    {q member : String} :
    member ∈ (validate common model).members kind q ↔
      (∃ c ∈ model.classes, c.qualified = q ∧
        ∃ parent, common.find? q = some parent ∧ member ∈ violations c parent kind) ∨
      (kind = .missingOverwrites ∧ q ∉ model.classes.map ClassRef.qualified ∧
        ∃ target ∈ common.targets, target.qualified = q ∧ target.relative = member) := by
  rw [validate_eq, Report.mem_members_ofFindings, List.mem_append, List.mem_flatMap]
  refine or_congr ⟨?_, ?_⟩ ⟨?_, ?_⟩
  · rintro ⟨c, hc, hf⟩
    obtain ⟨rfl, parent, hp, hm⟩ := mem_classFindings.1 hf
    exact ⟨c, hc, rfl, parent, hp, hm⟩
  · rintro ⟨c, hc, rfl, parent, hp, hm⟩
    exact ⟨c, hc, mem_classFindings.2 ⟨rfl, parent, hp, hm⟩⟩
  · intro hf
    obtain ⟨target, ht, e⟩ := List.mem_map.1 hf
    obtain ⟨ht, absent⟩ := List.mem_filter.1 ht
    obtain ⟨rfl, rfl, rfl⟩ := Finding.mk.inj e
    exact ⟨rfl, by simpa using absent, target, ht, rfl, rfl⟩
  · rintro ⟨rfl, absent, target, ht, rfl, rfl⟩
    exact List.mem_map.2 ⟨target, List.mem_filter.2 ⟨ht, by simpa using absent⟩, rfl⟩

end PlatformOverlay.Check
