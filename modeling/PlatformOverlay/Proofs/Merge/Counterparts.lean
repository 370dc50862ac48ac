import PlatformOverlay.Proofs.Merge.Touched
import PlatformOverlay.Proofs.Path
import PlatformOverlay.Output.Tree

/-!
# Touched files have common files

A class is treated only where the common module has a class of its name.  What is recorded is the
top-level type around it, which has a counterpart itself if names can be taken apart at the dollar
signs (`counterpartText?_of_touches`): so for each file that is printed anew there is a common file
to take imports from.

A dollar sign joins the name of a nested type to that of the type around it, and may stand in any
name as well. Without dollar signs in top-level names (`SourceModel.DollarFree`) a name is under one
of these only (`Under.unique`).
-/

namespace PlatformOverlay

open Java Model

namespace Model

/-- The qualified name of the type or of one in it, by the way it is put together. -/
def Under (x r : String) : Prop := r = x ∨ ∃ inner, r = nestedName x inner

/-- Nested names are joined from the outside or from the inside. -/
theorem nestedName_assoc (x inner name : String) :
    nestedName (nestedName x inner) name = nestedName x (nestedName inner name) := by
  simp only [nestedName, String.append_assoc]

/-- A type nested in one under `x` is under `x`. -/
theorem Under.nested {x r : String} (h : Under x r) (name : String) :
    Under x (nestedName r name) := by
  rcases h with rfl | ⟨inner, rfl⟩
  · exact .inr ⟨name, rfl⟩
  · exact .inr ⟨nestedName inner name, nestedName_assoc x inner name⟩

theorem Under.trans {x y r : String} (h : Under x y) (h' : Under y r) : Under x r := by
  rcases h' with rfl | ⟨inner, rfl⟩
  · exact h
  · exact h.nested inner

/-- An enclosed type is under the name of the type that encloses it. -/
theorem Encloses.under {q r : String} {d e : TypeDecl} (h : Encloses q d r e) : Under q r := by
  induction h with
  | refl => exact .inl rfl
  | @nested q _ _ t _ _ _ ih => exact Under.trans (.inr ⟨t.name, rfl⟩) ih

/-- Without dollar signs in it the outer name can be told from the whole one. -/
theorem Under.head?_splitOn {x r : String} (h : Under x r) (plain : '$' ∉ x.toList) :
    (Text.splitOn '$' r).head? = some x := by
  rcases h with rfl | ⟨inner, rfl⟩
  · rw [Text.splitOn_of_notMem plain]
    rfl
  · have split : nestedName x inner = x ++ String.singleton '$' ++ inner := rfl
    rw [split, Text.splitOn_append, Text.splitOn_of_notMem plain]
    rfl

/-- A name is under one top-level name only, since these have no dollar sign. -/
theorem Under.unique {x y r : String} (hx : Under x r) (hy : Under y r) (plain : '$' ∉ x.toList)
    (plain' : '$' ∉ y.toList) : x = y :=
  Option.some.inj ((hx.head?_splitOn plain).symm.trans (hy.head?_splitOn plain'))

namespace SourceModel

/-- No top-level name of the model contains a dollar sign. -/
def DollarFree (model : SourceModel) : Prop :=
  ∀ file ∈ model.files, ∀ name ∈ file.topLevelNames, '$' ∉ name.toList

instance (model : SourceModel) :
    Decidable model.DollarFree := inferInstanceAs (Decidable (∀ _ ∈ _, _))

end SourceModel

namespace CommonClasses

/-- Putting a class adds its name and drops none. -/
theorem mem_putClass_names {classes : List ClassRef} {c : ClassRef} {name : String} :
    name ∈ (putClass classes c).map ClassRef.qualified ↔
      name ∈ classes.map ClassRef.qualified ∨ name = c.qualified := by
  unfold putClass
  split
  next known =>
    have same :
        (classes.map fun d ↦ if d.qualified = c.qualified then c else d).map ClassRef.qualified =
          classes.map ClassRef.qualified := by
      rw [List.map_map]
      refine List.map_congr_left fun d _ ↦ ?_
      simp only [Function.comp]
      split_ifs with h
      · exact h.symm
      · rfl
    obtain ⟨d, hd, e⟩ := List.any_eq_true.1 known
    rw [same]
    refine (or_iff_left_of_imp ?_).symm
    rintro rfl
    exact of_decide_eq_true e ▸ List.mem_map_of_mem hd
  next => simp

theorem mem_foldl_putClass_names {classes acc : List ClassRef} {name : String} :
    name ∈ (classes.foldl putClass acc).map ClassRef.qualified ↔
      name ∈ acc.map ClassRef.qualified ∨ name ∈ classes.map ClassRef.qualified := by
  induction classes generalizing acc with
  | nil => simp
  | cons c cs ih => rw [List.foldl_cons, ih, mem_putClass_names, List.map_cons,
      List.mem_cons, or_assoc]

/-- A declared class is found by its name, if maybe as it is declared in another place. -/
theorem find?_ne_none_of_mem {model : SourceModel} {c : ClassRef} (h : c ∈ model.classes) :
    (ofModel model).find? c.qualified ≠ none := by
  have listed : c.qualified ∈ (ofModel model).all.map ClassRef.qualified :=
    mem_foldl_putClass_names.2 (.inr (List.mem_map_of_mem h))
  obtain ⟨d, hd, same⟩ := List.mem_map.1 listed
  rw [find?, Ne, List.find?_eq_none]
  exact fun none ↦ none d hd (by simp [same])

/-- With a class the top-level class around it is found. -/
theorem find?_ne_none_of_under {model : SourceModel} (dollarFree : model.DollarFree) {x r : String}
    {c : ClassRef} (hc : (ofModel model).find? r = some c) (h : Under x r)
    (plain : '$' ∉ x.toList) :
    (ofModel model).find? x ≠ none := by
  obtain ⟨file, hf, hp, t, ht, encloses⟩ := declares_of_find? hc
  have named : qualify c.package t.name ∈ file.topLevelNames := hp ▸ List.mem_map_of_mem ht
  obtain rfl := h.unique encloses.under plain (dollarFree file hf _ named)
  have declared : model.Declares c.package (qualify c.package t.name) t :=
    ⟨file, hf, hp, t, ht, .refl⟩
  obtain ⟨top, mem, -, qualified, -⟩ := declared.exists_mem
  exact qualified ▸ find?_ne_none_of_mem mem

end CommonClasses

end Model

namespace Merge

/-- The type around a class with a counterpart. -/
def Anchored (common : CommonClasses) (x : String) : Prop :=
  ∃ r c, Under x r ∧ common.find? r = some c

section anchored

variable {common : CommonClasses} {x : String}

/-- Where a visit treats a type, it has found a counterpart for this type or for one around it. -/
theorem anchored_of_visit {pass : Pass} {levels : Nat} {scope : Scope} {emit : EmitSet}
    {d : TypeDecl}
    (enough : Suffices (pass.visit common) levels scope d)
    (ok : (visitDecl (pass.visit common) levels scope emit d).fault = none)
    (treats : pass.TreatsWithin scope.qualified d) : Anchored common scope.qualified := by
  refine visitDecl_induction (motive := fun scope _ d _ _ ↦
      pass.TreatsWithin scope.qualified d → Anchored common scope.qualified)
    (fun scope emit d ok emit' members visited treats ↦ ?_) enough ok treats
  rcases Pass.visit_cases ok with ⟨untreated, e⟩ | ⟨-, c, hc, -, -⟩
  · rw [Pass.treatsWithin_iff, untreated] at treats
    obtain ⟨t, ht, treats⟩ := treats.resolve_left (by simp)
    rw [e] at visited
    obtain ⟨_, _, _, visited⟩ := visited.exists_of_mem (TypeDecl.mem_nestedTypes.1 ht)
    cases visited with
    | type h =>
      obtain ⟨r, c, under, hc⟩ := h treats
      exact ⟨r, c, Under.trans (.inr ⟨t.name, rfl⟩) under, hc⟩
  · exact ⟨scope.qualified, c, .inl rfl, hc⟩

/-- All that a run records lies under a class that has a counterpart. -/
theorem anchored_of_runPasses {passes : List Pass} {emit : EmitSet} {model : SourceModel}
    (ok : (runPasses common passes ⟨model, emit, none⟩).fault = none)
    (before : ∀ x ∈ emit.topLevel, Anchored common x) :
    ∀ x ∈ (runPasses common passes ⟨model, emit, none⟩).state.topLevel, Anchored common x := by
  refine runPasses_induction (motive := fun _ emit _ ↦ ∀ x ∈ emit.topLevel, Anchored common x)
    (fun _ pass emit m _ before first x hx ↦ ?_) before ok
  rcases (Pass.mem_topLevel_run first).1 hx with hx | ⟨file, hf, t, ht, rfl, treats⟩
  · exact before x hx
  · obtain ⟨n, s, visited⟩ := SourceModel.exists_ok_of_visit first hf ht
    exact anchored_of_visit (pass.suffices_run common hf ht n) visited treats

end anchored

/-- For each file that a merge touches there is a common file to take imports from. -/
theorem counterpartText?_of_touches {common platform : SourceModel} (dollarFree : common.DollarFree)
    (ok : (run (.ofModel common) platform).fault = none) {file : SourceFile}
    (plain : ∀ name ∈ file.topLevelNames, '$' ∉ name.toList)
    (touches : (run (.ofModel common) platform).state.touches file = true) :
    ∃ text, Output.counterpartText? (.ofModel common) file = some text := by
  obtain ⟨t, ht, recorded⟩ := touches_iff.1 touches
  have named : qualify file.package t.name ∈ file.topLevelNames := List.mem_map_of_mem ht
  obtain ⟨r, c, under, hc⟩ := anchored_of_runPasses ok (by simp [EmitSet.empty]) _ recorded
  have found := CommonClasses.find?_ne_none_of_under dollarFree hc under (plain _ named)
  have first : file.topLevelNames.findSome? (CommonClasses.ofModel common).find? ≠ none := by
    rw [Ne, List.findSome?_eq_none_iff]
    exact fun none ↦ found (none _ named)
  obtain ⟨d, hd⟩ := Option.ne_none_iff_exists'.1 first
  exact ⟨d.file.text, by rw [Output.counterpartText?, hd]; rfl⟩

end Merge

end PlatformOverlay
