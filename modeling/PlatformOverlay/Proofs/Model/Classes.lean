import PlatformOverlay.Model.CommonClasses
import Mathlib.Data.List.Nodup

/-!
# Types in types, and the classes of a model

`Encloses` says that one type lies in another and which qualified name that gives it; the
enumeration of classes lists just these (`declares_of_mem`, `Declares.exists_mem`).  Where the
qualified names of a common model are pairwise distinct, look-up by name finds exactly the declared
classes (`find?_eq_some_iff`), those in a found class included (`find?_of_encloses`).

The induction for all that is said of types and the types in them is `TypeDecl.nestingInduction`,
which has the hypothesis for every nested type and does not go through the members.
-/

namespace PlatformOverlay

namespace Java.TypeDecl

theorem mem_nestedTypes {decl t : TypeDecl} : t ∈ decl.nestedTypes ↔ .type t ∈ decl.members := by
  unfold nestedTypes
  rw [List.mem_filterMap]
  constructor
  · rintro ⟨_ | u, hm, h⟩
    · simp at h
    · rwa [← Option.some.inj h]
  · exact fun h ↦ ⟨_, h, rfl⟩

/-- A member is no deeper than all of them together. -/
theorem memberDepth_le {m : Member} {ms : List Member} (h : m ∈ ms) :
    memberDepth m ≤ membersDepth ms := by
  induction ms with
  | nil => simp at h
  | cons x xs ih =>
    rw [membersDepth]
    rcases List.mem_cons.1 h with rfl | h
    · omega
    · have := ih h
      omega

/-- A nested type is less deep than the one it is nested in: this is the measure of all
recursion over types. -/
theorem depth_lt_of_mem {decl t : TypeDecl} (h : t ∈ decl.nestedTypes) : t.depth < decl.depth := by
  have : memberDepth (.type t) ≤ membersDepth decl.members := memberDepth_le (mem_nestedTypes.1 h)
  rw [memberDepth] at this
  rw [depth_eq decl]
  omega

theorem depth_pos (decl : TypeDecl) : 0 < decl.depth := by
  rw [depth_eq]
  omega

/-- What holds of a type whenever it holds of the types in it holds of every type. -/
theorem nestingInduction {motive : TypeDecl → Prop}
    (step : ∀ decl, (∀ t ∈ decl.nestedTypes, motive t) → motive decl) (decl : TypeDecl) :
    motive decl := by
  induction h : decl.depth using Nat.strongRecOn generalizing decl with
  | ind n ih => exact step decl fun t ht ↦ ih t.depth (h ▸ depth_lt_of_mem ht) t rfl

end Java.TypeDecl

namespace Model

open Java

/-- The type `d`, whose qualified name is `q`, is or encloses the type `e`, whose
qualified name is then `r`. -/
inductive Encloses : String → TypeDecl → String → TypeDecl → Prop
  | refl {q : String} {d : TypeDecl} : Encloses q d q d
  | nested {q r : String} {d t e : TypeDecl} : t ∈ d.nestedTypes →
      Encloses (nestedName q t.name) t r e → Encloses q d r e

namespace Encloses

/-- What is enclosed by something enclosed is enclosed, and the names go along. -/
theorem trans {q r s : String} {d e f : TypeDecl} (h : Encloses q d r e) (h' : Encloses r e s f) :
    Encloses q d s f := by
  induction h with
  | refl => exact h'
  | nested ht _ ih => exact .nested ht (ih h')

/-- A nested type is enclosed, under the nested name. -/
theorem of_mem {q : String} {d t : TypeDecl} (h : t ∈ d.nestedTypes) :
    Encloses q d (nestedName q t.name) t := .nested h .refl

end Encloses

/-! ## The enumeration lists what is enclosed -/

/-- A class that is listed for the members is listed for one of the types among them. -/
theorem exists_of_mem_classesOfMembers {file : SourceFile} {id : ClassId} {scope : Scope}
    {c : ClassRef} {index : Nat} {ms : List Member}
    (h : c ∈ classesOfMembers file id scope index ms) :
    ∃ n t, .type t ∈ ms ∧ c ∈ classesOf file (id.nested n) (scope.nested t.name) t := by
  induction ms generalizing index with
  | nil => simp [classesOfMembers] at h
  | cons m ms ih =>
    rw [classesOfMembers, List.mem_append] at h
    rcases h with h | h
    · cases m with
      | item i => simp [classesOfMember] at h
      | type t => exact ⟨index, t, by simp, h⟩
    · obtain ⟨n, t, ht, hc⟩ := ih h
      exact ⟨n, t, List.mem_cons_of_mem _ ht, hc⟩

/-- All classes of a nested type are listed for the members. -/
theorem classesOf_subset_of_mem (file : SourceFile) (id : ClassId) (scope : Scope) (index : Nat)
    {t : TypeDecl} {ms : List Member} (h : .type t ∈ ms) :
    ∃ n, classesOf file (id.nested n) (scope.nested t.name) t ⊆
      classesOfMembers file id scope index ms := by
  induction ms generalizing index with
  | nil => simp at h
  | cons m ms ih =>
    rw [classesOfMembers]
    rcases List.mem_cons.1 h with rfl | h
    · exact ⟨index, List.subset_append_left _ _⟩
    · obtain ⟨n, hn⟩ := ih (index + 1) h
      exact ⟨n, List.Subset.trans hn (List.subset_append_right _ _)⟩

/-- Only enclosed types are listed, with the names they have. -/
theorem encloses_of_mem_classesOf {file : SourceFile} {id : ClassId} {scope : Scope}
    {decl : TypeDecl} {c : ClassRef} (h : c ∈ classesOf file id scope decl) :
    Encloses scope.qualified decl c.qualified c.decl ∧ c.file = file := by
  induction decl using TypeDecl.nestingInduction generalizing id scope with
  | step decl ih =>
    rw [classesOf_eq] at h
    rcases List.mem_cons.1 h with rfl | h
    · exact ⟨.refl, rfl⟩
    · obtain ⟨n, t, ht, hc⟩ := exists_of_mem_classesOfMembers h
      have ht := TypeDecl.mem_nestedTypes.2 ht
      obtain ⟨he, hf⟩ := ih t ht hc
      exact ⟨.nested ht he, hf⟩

theorem Encloses.exists_mem_classesOf {q r : String} {d e : TypeDecl} (h : Encloses q d r e)
    (file : SourceFile) (id : ClassId) (scope : Scope) (hs : scope.qualified = q) :
    ∃ c ∈ classesOf file id scope d, c.qualified = r ∧ c.decl = e ∧ c.file = file := by
  induction h generalizing id scope with
  | refl =>
    rw [classesOf_eq]
    exact ⟨_, List.mem_cons_self, hs, rfl, rfl⟩
  | @nested q r d t e ht _ ih =>
    obtain ⟨n, hn⟩ := classesOf_subset_of_mem file id scope 0 (TypeDecl.mem_nestedTypes.1 ht)
    obtain ⟨c, hc, hq⟩ := ih (id.nested n) (scope.nested t.name)
      (congrArg (nestedName · t.name) hs)
    exact ⟨c, by rw [classesOf_eq]; exact List.mem_cons_of_mem _ (hn hc), hq⟩

namespace SourceModel

/-- A file of the package declares the type under the qualified name, at any depth. -/
def Declares (model : SourceModel) (package : Option String) (q : String) (d : TypeDecl) : Prop :=
  ∃ file ∈ model.files, file.package = package ∧
    ∃ t ∈ file.unit.types, Encloses (qualify package t.name) t q d

/-- A file declares all types in those it declares. -/
theorem Declares.enclosed {model : SourceModel} {package : Option String} {q r : String}
    {d e : TypeDecl} (h : model.Declares package q d) (h' : Encloses q d r e) :
    model.Declares package r e := by
  obtain ⟨file, hf, hp, t, ht, he⟩ := h
  exact ⟨file, hf, hp, t, ht, he.trans h'⟩

/-- The classes of a model are declared in it. -/
theorem declares_of_mem {model : SourceModel} {c : ClassRef} (h : c ∈ model.classes) :
    model.Declares c.package c.qualified c.decl := by
  simp only [classes, SourceFile.classes, List.mem_flatMap] at h
  obtain ⟨⟨file, n⟩, hf, ⟨t, m⟩, ht, hc⟩ := h
  obtain ⟨he, rfl⟩ := encloses_of_mem_classesOf hc
  exact ⟨c.file, List.fst_mem_of_mem_zipIdx hf, rfl, t, List.fst_mem_of_mem_zipIdx ht, he⟩

/-- Every type that is declared at any depth is among the classes of the model. -/
theorem Declares.exists_mem {model : SourceModel} {package : Option String} {q : String}
    {d : TypeDecl} (h : model.Declares package q d) :
    ∃ c ∈ model.classes, c.package = package ∧ c.qualified = q ∧ c.decl = d := by
  obtain ⟨file, hf, hp, t, ht, he⟩ := h
  obtain ⟨n, hn⟩ := List.mem_iff_getElem?.1 hf
  obtain ⟨m, hm⟩ := List.mem_iff_getElem?.1 ht
  rw [← List.mk_mem_zipIdx_iff_getElem?] at hn hm
  subst hp
  obtain ⟨c, hc, hq, hd, hfile⟩ :=
    he.exists_mem_classesOf file ⟨n, m, []⟩ (file.scope n t) rfl
  refine ⟨c, ?_, congrArg SourceFile.package hfile, hq, hd⟩
  simp only [classes, SourceFile.classes, List.mem_flatMap]
  exact ⟨(file, n), hn, (t, m), hm, hc⟩

/-- The model of one file, in no package, that declares just the type. -/
def ofType (t : TypeDecl) : SourceModel :=
  ⟨[⟨⟨t.name ++ ".java"⟩, "", { CompilationUnit.empty with types := [t] }⟩]⟩

/-- No two classes of the model have the same qualified name. -/
def DistinctNames (model : SourceModel) : Prop := (model.classes.map ClassRef.qualified).Nodup

/-- No class of the model and no item in one carries a platform mark. -/
def Unmarked (model : SourceModel) : Prop :=
  ∀ c ∈ model.classes, ∀ mark ∈ Mark.platform,
    c.decl.hasMark mark = false ∧ c.decl.anyItemMarked mark = false

instance (model : SourceModel) : Decidable model.DistinctNames :=
  inferInstanceAs (Decidable (List.Nodup _))

instance (model : SourceModel) :
    Decidable model.Unmarked := inferInstanceAs (Decidable (∀ _ ∈ _, _))

end SourceModel

/-! ## Depth -/

/-- The maximum over a list is at least the start and each of the values. -/
theorem le_foldl_max {α : Type} (f : α → Nat) {as : List α} (n : Nat) :
    n ≤ as.foldl (fun n a ↦ max n (f a)) n ∧ ∀ a ∈ as,
      f a ≤ as.foldl (fun n a ↦ max n (f a)) n := by
  induction as generalizing n with
  | nil => simp
  | cons b bs ih =>
    obtain ⟨h₁, h₂⟩ := ih (max n (f b))
    rw [List.foldl_cons]
    refine ⟨by omega, fun a ha ↦ ?_⟩
    rcases List.mem_cons.1 ha with rfl | ha
    · omega
    · exact h₂ a ha

/-- No type of a model is deeper than the model. -/
theorem depth_le_of_mem {model : SourceModel} {file : SourceFile} (hf : file ∈ model.files)
    {t : TypeDecl} (ht : t ∈ file.unit.types) : t.depth ≤ model.depth := by
  have mono : ∀ (files : List SourceFile) (n : Nat),
      n ≤ files.foldl (fun d file ↦ file.unit.types.foldl (fun d t ↦ max d t.depth) d) n := by
    intro files
    induction files with
    | nil => exact fun n ↦ n.le_refl
    | cons file files ih => exact fun n ↦ Nat.le_trans (le_foldl_max TypeDecl.depth n).1 (ih _)
  obtain ⟨before, after, e⟩ := List.append_of_mem hf
  rw [SourceModel.depth, e, List.foldl_append, List.foldl_cons]
  exact Nat.le_trans ((le_foldl_max TypeDecl.depth _).2 t ht) (mono after _)

/-! ## Look-up by name -/

namespace CommonClasses

theorem mem_putClass {classes : List ClassRef} {c d : ClassRef} (h : d ∈ putClass classes c) :
    d ∈ classes ∨ d = c := by
  unfold putClass at h
  split at h
  · obtain ⟨e, he, rfl⟩ := List.mem_map.1 h
    split
    · exact .inr rfl
    · exact .inl he
  · simpa using h

theorem mem_foldl_putClass {classes acc : List ClassRef} {d : ClassRef}
    (h : d ∈ classes.foldl putClass acc) : d ∈ acc ∨ d ∈ classes := by
  induction classes generalizing acc with
  | nil => exact .inl h
  | cons c cs ih =>
    rcases ih h with h | h
    · rcases mem_putClass h with h | rfl
      · exact .inl h
      · exact .inr List.mem_cons_self
    · exact .inr (List.mem_cons_of_mem _ h)

/-- With different names no class takes the place of another, so all are put one behind the
other. -/
theorem foldl_putClass_of_nodup {classes acc : List ClassRef}
    (h : ((acc ++ classes).map ClassRef.qualified).Nodup) :
    classes.foldl putClass acc = acc ++ classes := by
  induction classes generalizing acc with
  | nil => simp
  | cons c cs ih =>
    have new : putClass acc c = acc ++ [c] := by
      refine if_neg fun hc ↦ ?_
      obtain ⟨d, hd, e⟩ := List.any_eq_true.1 hc
      rw [List.map_append, List.nodup_append] at h
      exact h.2.2 _ (List.mem_map_of_mem hd) _ (List.mem_map_of_mem List.mem_cons_self)
        (of_decide_eq_true e)
    rw [List.foldl_cons, new, ih (by simpa using h)]
    simp

variable {model : SourceModel} {q : String} {c : ClassRef}

theorem mem_of_find? (h : (ofModel model).find? q = some c) :
    c ∈ model.classes ∧ c.qualified = q := by
  rw [find?] at h
  refine ⟨?_, by simpa using List.find?_some h⟩
  rcases mem_foldl_putClass (List.mem_of_find?_eq_some h) with h | h
  · simp at h
  · exact h

/-- With different names, the common classes are the classes of the model in their order. -/
theorem all_eq (hd : model.DistinctNames) : (ofModel model).all = model.classes :=
  foldl_putClass_of_nodup hd

/-- With different names, every class is found. -/
theorem find?_of_mem (hd : model.DistinctNames) (h : c ∈ model.classes) :
    (ofModel model).find? c.qualified = some c := by
  obtain ⟨as, bs, e⟩ := List.append_of_mem h
  have := hd
  rw [SourceModel.DistinctNames, e, List.map_append, List.nodup_append] at this
  rw [find?, all_eq hd, e, List.find?_append, List.find?_cons_of_pos (by simp),
    List.find?_eq_none.2 fun d hd' ↦ ?_, Option.none_or]
  have := this.2.2 _ (List.mem_map_of_mem hd') _ (List.mem_map_of_mem List.mem_cons_self)
  simpa using this

theorem find?_eq_some_iff (hd : model.DistinctNames) :
    (ofModel model).find? q = some c ↔ c ∈ model.classes ∧ c.qualified = q :=
  ⟨mem_of_find?, fun ⟨h, e⟩ ↦ e ▸ find?_of_mem hd h⟩

/-- The targets are the classes with the mark for it. -/
theorem targets_eq (hd : model.DistinctNames) :
    (ofModel model).targets = model.classes.filter (·.decl.hasMark .overwriteTarget) := by
  have found : ∀ cs : List ClassRef, (∀ c ∈ cs, c ∈ model.classes) →
      (cs.map ClassRef.qualified).filterMap (ofModel model).find? = cs := by
    intro cs
    induction cs with
    | nil => exact fun _ ↦ rfl
    | cons c cs ih =>
      intro h
      obtain ⟨first, rest⟩ := List.forall_mem_cons.1 h
      rw [List.map_cons, List.filterMap_cons_some (find?_of_mem hd first), ih rest]
  exact found _ fun c hc ↦ List.mem_of_mem_filter hc

/-- A type that the common model declares is found under its qualified name. -/
theorem find?_of_declares (hd : model.DistinctNames) {package : Option String} {d : TypeDecl}
    (h : model.Declares package q d) :
    ∃ c, (ofModel model).find? q = some c ∧ c.package = package ∧ c.decl = d := by
  obtain ⟨c, hc, hp, rfl, rfl⟩ := h.exists_mem
  exact ⟨c, find?_of_mem hd hc, hp, rfl⟩

/-- A class that is found is declared in the common model. -/
theorem declares_of_find? (h : (ofModel model).find? q = some c) :
    model.Declares c.package q c.decl := by
  obtain ⟨hc, rfl⟩ := mem_of_find? h
  exact SourceModel.declares_of_mem hc

/-- No type in a class of an unmarked model carries a platform mark, and no item does. -/
theorem unmarked_of_find? (hu : model.Unmarked) (h : (ofModel model).find? q = some c) {r : String}
    {e : TypeDecl} (he : Encloses q c.decl r e) (mark : Mark) (hm : mark ∈ Mark.platform) :
    e.hasMark mark = false ∧ e.anyItemMarked mark = false := by
  obtain ⟨c', hc', -, -, rfl⟩ := ((declares_of_find? h).enclosed he).exists_mem
  exact hu c' hc' mark hm

/-- The types in a common class are found by the names they have in it. -/
theorem find?_of_encloses (hd : model.DistinctNames) (h : (ofModel model).find? q = some c)
    {r : String} {e : TypeDecl} (he : Encloses q c.decl r e) :
    ∃ c', (ofModel model).find? r = some c' ∧ c'.package = c.package ∧ c'.decl = e :=
  find?_of_declares hd ((declares_of_find? h).enclosed he)

end CommonClasses

end Model

end PlatformOverlay
