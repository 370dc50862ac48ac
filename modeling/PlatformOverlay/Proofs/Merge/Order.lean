import PlatformOverlay.Proofs.Merge.Recorded
import PlatformOverlay.Proofs.Merge.Settled

/-!
# The order of the passes

Passes in whatever order settle every type (`settled_runPasses`), and what they settle it to does
not ask for their order (`settle_perm`); whether they find what they need is asked of the platform
as it was (`ready_of_runPasses`, `fault_runPasses_of_ready`), and so is what they record
(`state_runPasses_iff`).  Where classes that take members in have the record components of their
counterparts, the order of the passes is therefore of no importance (`runPasses_perm`).

What an order could make a difference to, and why it does not:

* *Overwriting before grafting.* Grafts come without marks, as the common model has none, so there
  is nothing in them that the overwriting pass would have to be late for.
* *Grafting twice.* A class with two marks takes in by the second pass only what the first one has
  left, and where it has the components of its counterpart that is nothing (`graftItems_graft`).
* *Adopting and grafting.* What a class adopts are parts of its head, which no other pass looks at.

Components are what `ComponentsAgree` is about: a compact constructor has the signature that the
components around it give, so in another record it would be lacking once more.
-/

namespace PlatformOverlay

namespace Model.SourceModel

/-- Two lists that are related to a third by relations with one outcome are the same. -/
theorem eq_of_forall₂ {α β : Type} {R S : α → β → Prop} {as : List α} {bs cs : List β}
    (h : List.Forall₂ R as bs) (h' : List.Forall₂ S as cs)
    (unique : ∀ a b c, R a b → S a c → b = c) :
    bs = cs := by
  have same : List.Forall₂ Eq bs cs :=
    forall₂_trans (fun b a c hb hc ↦ unique a b c hb hc) h.flip h'
  rwa [List.forall₂_eq_eq_eq] at same

/-- Models whose types are made from those of one model are the same if what is made is. -/
theorem Corresponds.eq_of_unique {R S : String → Java.TypeDecl → Java.TypeDecl → Prop}
    {model m m' : SourceModel} (h : model.Corresponds R m) (h' : model.Corresponds S m')
    (unique : ∀ q t u u', R q t u → S q t u' → u = u') : m = m' := by
  refine congrArg SourceModel.mk (eq_of_forall₂ h h' fun file file₁ file₂ h₁ h₂ ↦ ?_)
  have types := eq_of_forall₂ h₁.2 h₂.2 fun _ _ _ ↦ unique _ _ _ _
  rw [h₁.1, h₂.1, types]

end Model.SourceModel

namespace Merge

open Java Model

section perm

variable {common : CommonClasses} {order other : List Pass}

/-- What is adopted depends on which passes have run, not on their order. -/
theorem adopt_perm (perm : order.Perm other) (q : String) (d : TypeDecl) :
    adopt common order q d = adopt common other q d := by
  simp only [adopt, perm.mem_iff]

theorem clearClass_perm (perm : order.Perm other) (annotations : List Annotation) :
    clearClass order annotations = clearClass other annotations :=
  List.filter_congr fun _ _ ↦ congrArg (!·) (perm.filterMap _).any_eq

theorem clearItem_perm (perm : order.Perm other) (i : Item) :
    clearItem order i = clearItem other i := by
  simp only [clearItem, perm.mem_iff]

theorem graft_perm (perm : order.Perm other) (q : String) (d : TypeDecl) :
    graft common order q d = graft common other q d := by
  have items : graftsItems order d = graftsItems other d := perm.any_eq
  simp only [graft, items, perm.mem_iff]

/-- What passes settle a type to does not depend on their order. -/
theorem settle_perm (perm : order.Perm other) (q : String) (d : TypeDecl) :
    settle common order q d = settle common other q d := by
  induction d using TypeDecl.nestingInduction generalizing q with
  | step d ih =>
    have members : d.members.map (settleMember common order q) =
        d.members.map (settleMember common other q) := by
      refine List.map_congr_left fun m hm ↦ ?_
      cases m with
      | item i => exact congrArg Member.item (clearItem_perm perm i)
      | type t => exact congrArg Member.type (ih t (TypeDecl.mem_nestedTypes.2 hm) _)
    rw [settle_eq, settle_eq, adopt_perm perm, clearClass_perm perm, graft_perm perm, mapMembers,
      mapMembers, members]

end perm

/-- Every class of the platform that takes members in has the record components of its counterpart,
up to erasure: if it is no record, neither is that. -/
def ComponentsAgree (common : CommonClasses) (platform : SourceModel) : Prop :=
  ∀ k ∈ platform.classes, k.decl.hasMark .inheritMissingMembers = true ∨
    k.decl.hasMark .inherit = true →
    ∀ c ∈ common.find? k.qualified,
      eraseParams none k.decl.components = eraseParams none c.decl.components

instance (common : CommonClasses) (platform : SourceModel) :
    Decidable (ComponentsAgree common platform) :=
  inferInstanceAs (Decidable (∀ _ ∈ _, _ → ∀ _ ∈ _, _))

section order

variable {common platform : SourceModel} {order other : List Pass}

/-- Before the first pass, the settled class is the class. -/
theorem settle_nil {common : CommonClasses} (q : String) (d : TypeDecl) :
    settle common [] q d = d := by
  induction d using TypeDecl.nestingInduction generalizing q with
  | step d ih =>
    have members : d.members.map (settleMember common [] q) = d.members := by
      refine (List.map_congr_left fun m hm ↦ ?_).trans (List.map_id _)
      cases m with
      | item i => exact congrArg Member.item (clearItem_nil i)
      | type t => exact congrArg Member.type (ih t (TypeDecl.mem_nestedTypes.2 hm) _)
    have own : adopt common [] q d = d := if_neg (by simp)
    rw [settle_eq, graft_nil, mapMembers, members, own, clearClass_nil]
    cases d
    rfl

/-- At the start a model is settled with no pass run. -/
theorem settled_of_agree {common : CommonClasses} (agree : ComponentsAgree common platform) :
    platform.Corresponds (Settled common []) platform := by
  refine List.forall₂_same.2 fun file hf ↦ ⟨rfl, List.forall₂_same.2 fun t ht ↦ ⟨?_, ?_⟩⟩
  · intro r u hu marked c hc
    obtain ⟨k, hk, -, rfl, rfl⟩ := SourceModel.Declares.exists_mem ⟨file, hf, rfl, t, ht, hu⟩
    exact agree k hk marked c hc
  · exact (settle_nil _ t).symm

/-- The runs record the same if a run of one pass records what `P` says of the platform. -/
theorem state_runPasses_perm {common : CommonClasses} {K : EmitSet → Prop}
    {P : Pass → String → TypeDecl → Prop}
    (run : ∀ (pass : Pass) emit m, (pass.run common emit m).fault = none →
      (K (pass.run common emit m).state ↔ K emit ∨ ∃ file ∈ m.files, ∃ t ∈ file.unit.types,
        P pass (qualify file.package t.name) t))
    (kept : ∀ passes pass q d e, Overlaid common passes q d e → pass ∉ passes →
      (P pass q e ↔ P pass q d))
    (all : order.Perm Pass.all) (all' : other.Perm Pass.all)
    (ok : (runPasses common order ⟨platform, .empty, none⟩).fault = none)
    (ok' : (runPasses common other ⟨platform, .empty, none⟩).fault = none) :
    K (runPasses common other ⟨platform, .empty, none⟩).state ↔
      K (runPasses common order ⟨platform, .empty, none⟩).state := by
  rw [state_runPasses_iff run kept (all.nodup_iff.2 (by decide)) ok,
    state_runPasses_iff run kept (all'.nodup_iff.2 (by decide)) ok']
  simp only [all.mem_iff, all'.mem_iff]

/-- The order of the passes does not matter: where they succeed in one order they do in every
other, with the same result and the same recorded classes. -/
theorem runPasses_perm (distinct : common.DistinctNames) (unmarked : common.Unmarked)
    (agree : ComponentsAgree (.ofModel common) platform) (all : order.Perm Pass.all)
    (all' : other.Perm Pass.all)
    (ok : (runPasses (.ofModel common) order ⟨platform, .empty, none⟩).fault = none) :
    (runPasses (.ofModel common) other ⟨platform, .empty, none⟩).fault = none ∧
      (runPasses (.ofModel common) other ⟨platform, .empty, none⟩).value =
        (runPasses (.ofModel common) order ⟨platform, .empty, none⟩).value ∧
      ∀ q,
        (runPasses (.ofModel common) other ⟨platform, .empty, none⟩).state.contains q =
          (runPasses (.ofModel common) order ⟨platform, .empty, none⟩).state.contains q ∧
        (runPasses (.ofModel common) other ⟨platform, .empty, none⟩).state.containsTopLevel q =
          (runPasses (.ofModel common) order ⟨platform, .empty, none⟩).state.containsTopLevel
            q := by
  have nodup : order.Nodup := all.nodup_iff.2 (by decide)
  have nodup' : other.Nodup := all'.nodup_iff.2 (by decide)
  have ready : ∀ file ∈ platform.files, ∀ t ∈ file.unit.types,
      Ready (.ofModel common) (qualify file.package t.name) t :=
    fun file hf t ht ↦ ready_of_runPasses distinct all ok hf ht
  have ok' : (runPasses (.ofModel common) other ⟨platform, .empty, none⟩).fault = none :=
    fault_runPasses_of_ready distinct unmarked nodup' ready
  refine ⟨ok', ?_, fun q ↦ ⟨?_, ?_⟩⟩
  · have settled := settled_runPasses unmarked nodup (settled_of_agree agree) ok
    have settled' := settled_runPasses unmarked nodup' (settled_of_agree agree) ok'
    refine settled'.eq_of_unique settled fun q t u u' h h' ↦ ?_
    rw [h.2, h'.2]
    exact settle_perm (all'.trans all.symm) q t
  · refine Bool.eq_iff_iff.2 ?_
    simp only [EmitSet.contains, List.contains_iff_mem]
    exact state_runPasses_perm (K := fun emit ↦ q ∈ emit.classes)
      (P := fun pass r d ↦ pass.RecordsIn (.ofModel common) none r d q)
      (fun _ _ _ ok ↦ Pass.mem_classes_run unmarked ok)
      (fun _ _ _ _ _ h new ↦ h.recordsIn_iff unmarked new) all all' ok ok'
  · refine Bool.eq_iff_iff.2 ?_
    simp only [EmitSet.containsTopLevel, List.contains_iff_mem]
    exact state_runPasses_perm (K := fun emit ↦ q ∈ emit.topLevel)
      (P := fun pass r d ↦ q = r ∧ pass.TreatsWithin r d)
      (fun _ _ _ ok ↦ Pass.mem_topLevel_run ok)
      (fun _ _ _ _ _ h new ↦ and_congr_right fun _ ↦ h.treatsWithin_iff unmarked new)
        all all' ok ok'

theorem runPasses_perm_pair :
    let common := CommonClasses.ofModel (.ofType commonPair)
    let backwards := runPasses common [.overwrite, .overwriteClass, .inherit,
      .inheritMissingMembers]
      ⟨.ofType platformPair, .empty, none⟩
    let merged := run common (.ofType platformPair)
    backwards.fault = none ∧ backwards.value = merged.value ∧
      ∀ q, backwards.state.contains q = merged.state.contains q ∧
        backwards.state.containsTopLevel q = merged.state.containsTopLevel q :=
  runPasses_perm (by decide +kernel) (by decide +kernel) (by decide +kernel) (.refl _) (by decide)
    (by decide +kernel)

end order

end Merge

end PlatformOverlay
