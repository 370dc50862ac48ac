import PlatformOverlay.Proofs.Model.Classes

/-!
# Identifiers of classes

The enumeration lists the types to which a way of member indices leads, each under the identifier
that the way makes up (`mem_classesOf_iff`).  So an identifier leads to a class exactly if the class
is listed under it (`SourceModel.class?_eq_some_iff`), and no identifier is listed twice
(`SourceModel.nodup_ids`).

Both are about ways: `ClassId.below` puts one behind an identifier, which tells different ways apart
(`ClassId.below_injective`). An index counts all members, items included, so that a way is stable
under changes that keep members in their places.

The index of names keeps the classes themselves. That it agrees with the enumeration is a matter of
the names: where none is given twice it has all classes, each under its name, and otherwise a later
class takes the place of an earlier one (`classes_resolve`).
-/

namespace PlatformOverlay.Model

open Java

namespace ClassId

/-- The identifier of what lies the given way below the type. -/
def below (id : ClassId) (way : List Nat) : ClassId := { id with members := id.members ++ way }

@[simp] theorem below_nil (id : ClassId) : id.below [] = id := by simp [below]

@[simp] theorem nested_below (id : ClassId) (index : Nat) (way : List Nat) :
    (id.nested index).below way = id.below (index :: way) := by simp [below, nested]

/-- Different ways lead to different identifiers. -/
theorem below_injective (id : ClassId) : Function.Injective id.below := by
  intro way way' same
  exact List.append_cancel_left (congrArg ClassId.members same)

end ClassId

variable {file : SourceFile} {id : ClassId} {scope : Scope} {decl : TypeDecl} {c : ClassRef}
  {index : Nat} {way : List Nat} {ms : List Member}

/-! ## The ways to the types in a type -/

/-- The way goes down into one member, which is a type, and on from there. -/
theorem descend_cons :
    SourceModel.descend file id scope decl (index :: way) = some c ↔
      ∃ t, decl.members[index]? = some (.type t) ∧
        SourceModel.descend file id (scope.nested t.name) t way = some c := by
  rw [SourceModel.descend]
  rcases decl.members[index]? with _ | ⟨i | t⟩
  · simp
  · simp
  · simp

/-- The class that a way leads to has the identifier of this way. -/
theorem id_of_descend (h : SourceModel.descend file id scope decl way = some c) : c.id = id := by
  induction way generalizing scope decl with
  | nil => rw [← Option.some.inj h]
  | cons index way ih =>
    obtain ⟨t, -, h⟩ := descend_cons.1 h
    exact ih h

/-- The classes of the members are those of the types among them, each with its own index. -/
theorem mem_classesOfMembers_iff :
    c ∈ classesOfMembers file id scope index ms ↔
      ∃ n t, ms[n]? = some (.type t) ∧
        c ∈ classesOf file (id.nested (index + n)) (scope.nested t.name) t := by
  induction ms generalizing index with
  | nil => simp [classesOfMembers]
  | cons m ms ih =>
    rw [classesOfMembers, List.mem_append, ih]
    constructor
    · rintro (h | ⟨n, t, ht, h⟩)
      · cases m with
        | item i => cases h
        | type t => exact ⟨0, t, rfl, h⟩
      · exact ⟨n + 1, t, ht, by rwa [Nat.add_assoc, Nat.add_comm 1] at h⟩
    · rintro ⟨_ | n, t, ht, h⟩
      · obtain rfl := Option.some.inj ht
        exact .inl h
      · exact .inr ⟨n, t, ht, by rwa [Nat.add_assoc, Nat.add_comm 1]⟩

/-- The classes of a type are what ways below it lead to: the list and the resolution of
identifiers are two descriptions of the same thing. -/
theorem mem_classesOf_iff :
    c ∈ classesOf file id scope decl ↔
      ∃ way, SourceModel.descend file (id.below way) scope decl way = some c := by
  induction decl using TypeDecl.nestingInduction generalizing id scope with
  | step decl ih =>
    rw [classesOf_eq, List.mem_cons, mem_classesOfMembers_iff]
    constructor
    · rintro (rfl | ⟨n, t, ht, h⟩)
      · exact ⟨[], by rw [ClassId.below_nil, SourceModel.descend]⟩
      · obtain ⟨way, h⟩ := (ih t (TypeDecl.mem_nestedTypes.2 (List.mem_of_getElem? ht))).1 h
        rw [Nat.zero_add, ClassId.nested_below] at h
        exact ⟨n :: way, descend_cons.2 ⟨t, ht, h⟩⟩
    · rintro ⟨_ | ⟨n, way⟩, h⟩
      · rw [ClassId.below_nil, SourceModel.descend] at h
        exact .inl (Option.some.inj h).symm
      · obtain ⟨t, ht, h⟩ := descend_cons.1 h
        have inside := TypeDecl.mem_nestedTypes.2 (List.mem_of_getElem? ht)
        refine .inr ⟨n, t, ht, (ih t inside).2 ⟨way, ?_⟩⟩
        rwa [Nat.zero_add, ClassId.nested_below]

/-- The identifier of a class of the type lies below that of the type. -/
theorem exists_below_of_mem (h : c ∈ classesOf file id scope decl) :
    ∃ way, c.id = id.below way := by
  obtain ⟨way, h⟩ := mem_classesOf_iff.1 h
  exact ⟨way, id_of_descend h⟩

/-- The identifier of a class among the members goes on with the index of one of them. -/
theorem exists_below_of_mem_members (h : c ∈ classesOfMembers file id scope index ms) :
    ∃ n way, index ≤ n ∧ c.id = id.below (n :: way) := by
  obtain ⟨n, t, -, h⟩ := mem_classesOfMembers_iff.1 h
  obtain ⟨way, h⟩ := exists_below_of_mem h
  exact ⟨index + n, way, Nat.le_add_right _ _, by rw [h, ClassId.nested_below]⟩

/-- No identifier is used twice within a type. The ways into different members differ in their
first index. -/
theorem nodup_ids_classesOf : ((classesOf file id scope decl).map ClassRef.id).Nodup := by
  induction decl using TypeDecl.nestingInduction generalizing id scope with
  | step decl ih =>
    have members : ∀ ms index, (∀ t, .type t ∈ ms → t ∈ decl.nestedTypes) →
        ((classesOfMembers file id scope index ms).map ClassRef.id).Nodup := by
      intro ms
      induction ms with
      | nil => exact fun _ _ ↦ .nil
      | cons m ms ihms =>
        intro index inside
        have later := ihms (index + 1) fun t ht ↦ inside t (List.mem_cons_of_mem _ ht)
        rw [classesOfMembers]
        cases m with
        | item i => exact later
        | type t =>
          rw [classesOfMember, List.map_append]
          refine (ih t (inside t List.mem_cons_self)).append later ?_
          -- What lies in the first member has its index there, all else a later one.
          intro _ first behind
          obtain ⟨c, hc, rfl⟩ := List.mem_map.1 first
          obtain ⟨d, hd, same⟩ := List.mem_map.1 behind
          obtain ⟨way, hc⟩ := exists_below_of_mem hc
          obtain ⟨n, way', hn, hd⟩ := exists_below_of_mem_members hd
          rw [hc, hd, ClassId.nested_below] at same
          obtain ⟨rfl, -⟩ := List.cons.inj (id.below_injective same)
          exact absurd hn (Nat.not_succ_le_self _)
    rw [classesOf_eq, List.map_cons, List.nodup_cons]
    refine ⟨fun listed ↦ ?_, members decl.members 0 fun t ht ↦ TypeDecl.mem_nestedTypes.2 ht⟩
    obtain ⟨c, hc, same⟩ := List.mem_map.1 listed
    obtain ⟨n, way, -, hc⟩ := exists_below_of_mem_members hc
    have root : id.below (n :: way) = id.below [] := by rw [← hc, same, ClassId.below_nil]
    cases id.below_injective root

/-! ## The classes of a model -/

theorem pairwise_zipIdx {α : Type} (as : List α) : as.zipIdx.Pairwise fun a b ↦ a.2 ≠ b.2 := by
  rw [← List.pairwise_map (f := Prod.snd) (R := (· ≠ ·)), List.zipIdx_map_snd]
  exact List.nodup_range'

namespace SourceModel

variable {model : SourceModel}

/-- The classes of a model are those of its top-level types, each with the indices of its file
and type. -/
theorem mem_classes_iff :
    c ∈ model.classes ↔ ∃ n file, model.files[n]? = some file ∧
      ∃ top decl, file.unit.types[top]? = some decl ∧
        c ∈ classesOf file ⟨n, top, []⟩ (file.scope n decl) decl := by
  simp only [classes, SourceFile.classes, List.mem_flatMap, Prod.exists,
    List.mk_mem_zipIdx_iff_getElem?]
  constructor
  · rintro ⟨file, n, hf, decl, top, ht, hc⟩
    exact ⟨n, file, hf, top, decl, ht, hc⟩
  · rintro ⟨n, file, hf, top, decl, ht, hc⟩
    exact ⟨file, n, hf, decl, top, ht, hc⟩

/-- An identifier leads to the class that is listed under it. -/
theorem class?_eq_some_iff : model.class? id = some c ↔ c ∈ model.classes ∧ c.id = id := by
  have found : model.class? id = some c ↔ ∃ file, model.files[id.file]? = some file ∧
      ∃ decl, file.unit.types[id.top]? = some decl ∧
        descend file id (file.scope id.file decl) decl id.members = some c := by
    simp [class?, Option.bind_eq_some_iff]
  rw [found, mem_classes_iff]
  constructor
  · rintro ⟨file, hf, decl, ht, h⟩
    refine ⟨⟨id.file, file, hf, id.top, decl, ht, mem_classesOf_iff.2 ⟨id.members, ?_⟩⟩,
      id_of_descend h⟩
    rwa [ClassId.below, List.nil_append]
  · rintro ⟨⟨n, file, hf, top, decl, ht, hc⟩, rfl⟩
    obtain ⟨way, h⟩ := mem_classesOf_iff.1 hc
    have same := id_of_descend h
    rw [ClassId.below, List.nil_append] at same h
    rw [same]
    exact ⟨file, hf, decl, ht, h⟩

/-- The identifier of a class has the index of its file. -/
theorem file_of_mem_classes {n : Nat} (h : c ∈ file.classes n) : c.id.file = n := by
  obtain ⟨⟨decl, top⟩, -, h⟩ := List.mem_flatMap.1 h
  obtain ⟨way, h⟩ := exists_below_of_mem h
  rw [h]
  rfl

/-- No identifier is used twice within a file. -/
theorem nodup_ids_file (file : SourceFile) (n : Nat) :
    ((file.classes n).map ClassRef.id).Nodup := by
  unfold SourceFile.classes
  rw [List.map_flatMap, List.nodup_flatMap]
  refine ⟨fun _ _ ↦ nodup_ids_classesOf, (pairwise_zipIdx _).imp fun {a b} other ↦ ?_⟩
  intro _ first second
  obtain ⟨c, hc, rfl⟩ := List.mem_map.1 first
  obtain ⟨d, hd, same⟩ := List.mem_map.1 second
  obtain ⟨way, hc⟩ := exists_below_of_mem hc
  obtain ⟨way', hd⟩ := exists_below_of_mem hd
  rw [hc, hd] at same
  exact other (congrArg ClassId.top same).symm

theorem nodup_ids (model : SourceModel) : (model.classes.map ClassRef.id).Nodup := by
  unfold classes
  rw [List.map_flatMap, List.nodup_flatMap]
  refine ⟨fun a _ ↦ nodup_ids_file a.1 a.2, (pairwise_zipIdx _).imp fun {a b} other ↦ ?_⟩
  intro _ first second
  obtain ⟨c, hc, rfl⟩ := List.mem_map.1 first
  obtain ⟨d, hd, same⟩ := List.mem_map.1 second
  exact other (by rw [← file_of_mem_classes hc, ← file_of_mem_classes hd, same])

/-- The classes of a model are told apart by their identifiers, and each is the one to which its
identifier leads.  So the index of the names may keep the classes themselves; where no name is
given twice it has all of them, each under its name, and the targets are those marked as such. -/
theorem classes_resolve (model : SourceModel) :
    (model.classes.map ClassRef.id).Nodup ∧
    (∀ c ∈ model.classes, model.class? c.id = some c) ∧
    (∀ id, (model.class? id).isSome ↔ id ∈ model.classes.map ClassRef.id) ∧
    (∀ c ∈ (CommonClasses.ofModel model).all, model.class? c.id = some c) ∧
    (model.DistinctNames →
      (∀ q c, (CommonClasses.ofModel model).find? q = some c ↔
        c ∈ model.classes ∧ c.qualified = q) ∧
      (CommonClasses.ofModel model).all = model.classes ∧
      (CommonClasses.ofModel model).targets =
        model.classes.filter (·.decl.hasMark .overwriteTarget)) := by
  refine ⟨nodup_ids model, fun c hc ↦ class?_eq_some_iff.2 ⟨hc, rfl⟩, fun id ↦ ?_,
    fun c hc ↦ ?_, fun distinct ↦ ?_⟩
  · rw [Option.isSome_iff_exists, List.mem_map]
    exact exists_congr fun c ↦ class?_eq_some_iff
  · rcases CommonClasses.mem_foldl_putClass hc with none | listed
    · cases none
    · exact class?_eq_some_iff.2 ⟨listed, rfl⟩
  · exact ⟨fun q c ↦ CommonClasses.find?_eq_some_iff distinct, CommonClasses.all_eq distinct,
      CommonClasses.targets_eq distinct⟩

/-- A target in which a class stands behind an initializer block, with a class in it. -/
def layeredClass : TypeDecl :=
  { TypeDecl.bare .classType "A" with
    annotations := [⟨"OverwriteTarget", none⟩]
    members :=
      [.item ⟨none, [], .empty, .initializer ⟨"{ }", 0⟩⟩,
        .type { TypeDecl.bare .classType "B" with
          members := [.type (.bare .interfaceType "C")] }] }

/-- An instance with a class behind an initializer: its index counts the initializer. -/
theorem classes_resolve_layered :
    (ofType layeredClass).DistinctNames ∧
    (ofType layeredClass).classes.map (fun c ↦ (c.id, c.qualified)) =
      [(⟨0, 0, []⟩, "A"), (⟨0, 0, [1]⟩, "A$B"), (⟨0, 0, [1, 0]⟩, "A$B$C")] ∧
    (∀ c ∈ (ofType layeredClass).classes, (ofType layeredClass).class? c.id = some c) ∧
    ((ofType layeredClass).class? ⟨0, 0, [0]⟩).isNone ∧
    (∀ q c, (CommonClasses.ofModel (ofType layeredClass)).find? q = some c ↔
      c ∈ (ofType layeredClass).classes ∧ c.qualified = q) ∧
    (CommonClasses.ofModel (ofType layeredClass)).all = (ofType layeredClass).classes ∧
    (CommonClasses.ofModel (ofType layeredClass)).targets =
      (ofType layeredClass).classes.filter (·.decl.hasMark .overwriteTarget) := by
  obtain ⟨-, leads, -, -, index⟩ := classes_resolve (ofType layeredClass)
  have distinct : (ofType layeredClass).DistinctNames := by decide +kernel
  exact ⟨distinct, by decide +kernel, leads, rfl, index distinct⟩

end SourceModel

end PlatformOverlay.Model
