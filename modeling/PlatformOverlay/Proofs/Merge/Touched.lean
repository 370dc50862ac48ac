import PlatformOverlay.Proofs.Merge.Agreement
import PlatformOverlay.Proofs.Merge.Files
import PlatformOverlay.Proofs.Merge.Marks

/-!
# Which files a merge touches

Untouched files are copied and touched ones printed anew.  What a pass records of a file are the
top-level types with a type in them that it treats (`mem_topLevel_visitDecl`,
`Pass.mem_topLevel_run`).  A pass treats a type that was marked before the run, or one in it
(`Overlaid.exists_marked`), and sooner or later every marked type is treated: `Records` is what
passes preserve (`Records.run`).  So with distinct top-level names the touched files are those with
a marked type, and the others come back as they were (`touches_iff_marked`).

This is less than what is recorded of single classes, which depends on the way of the overwriting
pass through nested types (`PlatformOverlay.Proofs.Merge.Recorded`). A nested type that this pass
does not come to lies in one that it has recorded under the same top-level name.

Files are told apart by the names of their top-level types and not by their paths. Where two files
declare one name, a mark in the one touches the other as well; hence the condition.
-/

namespace PlatformOverlay.Merge

open Java Model

/-- The pass treats the type, whose qualified name is `q`, or one in it. -/
def Pass.TreatsWithin (pass : Pass) (q : String) (d : TypeDecl) : Prop :=
  ∃ r u, Encloses q d r u ∧ pass.treats u = true

/-- The type, whose qualified name is `q`, or one in it asks to overlay a common class. -/
def MarkedWithin (q : String) (d : TypeDecl) : Prop := ∃ r u, Encloses q d r u ∧ u.isMarked = true

/-- A pass treats a class or one of its nested types. -/
theorem Pass.treatsWithin_iff {pass : Pass} {q : String} {d : TypeDecl} :
    pass.TreatsWithin q d ↔ pass.treats d = true ∨
      ∃ t ∈ d.nestedTypes, pass.TreatsWithin (nestedName q t.name) t := by
  constructor
  · rintro ⟨r, u, hu, treats⟩
    cases hu with
    | refl => exact .inl treats
    | nested ht hu => exact .inr ⟨_, ht, r, u, hu, treats⟩
  · rintro (treats | ⟨t, ht, r, u, hu, treats⟩)
    · exact ⟨q, d, .refl, treats⟩
    · exact ⟨r, u, .nested ht hu, treats⟩

theorem markedWithin_iff {q : String} {d : TypeDecl} :
    MarkedWithin q d ↔ ∃ pass : Pass, pass.TreatsWithin q d := by
  constructor
  · rintro ⟨r, u, hu, marked⟩
    obtain ⟨pass, treats⟩ := TypeDecl.isMarked_iff.1 marked
    exact ⟨pass, r, u, hu, treats⟩
  · rintro ⟨pass, r, u, hu, treats⟩
    exact ⟨r, u, hu, TypeDecl.isMarked_iff.2 ⟨pass, treats⟩⟩

/-! ## What a pass records -/

section pass

variable {common : CommonClasses} {pass : Pass} {emit : EmitSet} {x : String}

/-- A visit records the top-level name when it treats a type at any depth. -/
theorem mem_topLevel_visitDecl {levels : Nat} {scope : Scope} {d : TypeDecl}
    (enough : Suffices (pass.visit common) levels scope d)
    (ok : (visitDecl (pass.visit common) levels scope emit d).fault = none) :
    x ∈ (visitDecl (pass.visit common) levels scope emit d).state.topLevel ↔
      x ∈ emit.topLevel ∨ (x = scope.topLevel ∧ pass.TreatsWithin scope.qualified d) := by
  refine visitDecl_induction (motive := fun scope emit d emit' _ ↦ x ∈ emit'.topLevel ↔
      x ∈ emit.topLevel ∨ (x = scope.topLevel ∧ pass.TreatsWithin scope.qualified d))
    (fun scope emit d ok emit' members visited ↦ ?_) enough ok
  have inside := visited.state_iff (K := fun emit ↦ x ∈ emit.topLevel)
    (P := fun m ↦ x = scope.topLevel ∧ ∃ t, m = .type t ∧
      pass.TreatsWithin (nestedName scope.qualified t.name) t) fun _ m _ _ _ h ↦ by
    cases h with
    | item => simp
    | type h => simpa [Scope.nested] using h
  rw [inside, Pass.treatsWithin_iff]
  rcases Pass.visit_cases ok with ⟨untreated, e⟩ | ⟨treated, c, -, -, e⟩
  · rw [e, untreated]
    refine or_congr_right ⟨?_, ?_⟩
    · rintro ⟨m, hm, top, t, rfl, h⟩
      exact ⟨top, .inr ⟨t, TypeDecl.mem_nestedTypes.2 hm, h⟩⟩
    · rintro ⟨top, h | ⟨t, ht, h⟩⟩
      · cases h
      · exact ⟨.type t, TypeDecl.mem_nestedTypes.1 ht, top, t, rfl, h⟩
  · -- The class is recorded itself, so that nothing in it adds to that.
    rw [e]
    simp only [EmitSet.record, mem_insertNew, treated, true_or, and_true]
    refine or_iff_left_of_imp ?_
    rintro ⟨m, -, top, -⟩
    exact .inr top

/-- A pass records the top-level types in which it treats something. -/
theorem Pass.mem_topLevel_run {model : SourceModel}
    (ok : (pass.run common emit model).fault = none) :
    x ∈ (pass.run common emit model).state.topLevel ↔ x ∈ emit.topLevel ∨
      ∃ file ∈ model.files, ∃ t ∈ file.unit.types, x = qualify file.package t.name ∧
        pass.TreatsWithin (qualify file.package t.name) t := by
  rw [run_eq] at ok ⊢
  refine state_visitList_iff (K := fun emit ↦ x ∈ emit.topLevel) ok fun file _ emit ok ↦ ?_
  refine state_visitList_iff (K := fun emit ↦ x ∈ emit.topLevel) ok fun t ht emit ok ↦ ?_
  exact mem_topLevel_visitDecl (pass.suffices_run common (List.mem_singleton.2 rfl) ht 0) ok

end pass

/-! ## Marks before the run -/

section marks

variable {common : CommonClasses} {passes : List Pass} {q : String} {d e : TypeDecl}

/-- What a pass treats after others was marked, or lies in a type that was. -/
theorem Overlaid.exists_marked (h : Overlaid common passes q d e) {pass : Pass}
    (treats : pass.TreatsWithin q e) : MarkedWithin q d := by
  obtain ⟨r, u, hu, treats⟩ := treats
  induction hu generalizing d with
  | @refl q e =>
    have own (other : Pass) (treats : other.treats d = true) : MarkedWithin q d :=
      ⟨q, d, .refl, TypeDecl.isMarked_iff.2 ⟨other, treats⟩⟩
    have class_mark {mark : Mark} (marked : e.hasMark mark = true) : d.hasMark mark = true := by
      rw [TypeDecl.hasMark, h.annotations] at marked
      obtain ⟨a, ha, on⟩ := List.any_eq_true.1 marked
      exact List.any_eq_true.2 ⟨a, List.mem_of_mem_filter ha, on⟩
    cases pass with
    | inheritMissingMembers => exact own .inheritMissingMembers (class_mark treats)
    | inherit => exact own .inherit (class_mark treats)
    | overwriteClass => exact own .overwriteClass (class_mark treats)
    | overwrite =>
      obtain ⟨j, hj, marked⟩ := List.any_eq_true.1 treats
      rcases h.cases_item hj with ⟨i, hi, rfl⟩ | hg
      · exact own .overwrite (List.any_eq_true.2 ⟨i, hi, hasMark_of_clearItem marked⟩)
      · cases hg with
        | item _ grafting => exact own _ grafting
  | nested ht _ ih =>
    rcases h.cases_nestedType ht with ⟨t, htd, h'⟩ | hg
    · rw [h'.name] at ih
      obtain ⟨r, u, hu, marked⟩ := ih h' treats
      exact ⟨r, u, .nested htd hu, marked⟩
    · cases hg with
      | type inherits => exact ⟨_, d, .refl, TypeDecl.isMarked_iff.2 ⟨.inherit, inherits⟩⟩

/-- A type that was to be treated at the start is treated when its pass comes, unless
overwriting has run before. -/
theorem Overlaid.treatsWithin (h : Overlaid common passes q d e) {pass : Pass} (new : pass ∉ passes)
    (marks : .overwrite ∉ passes) (treats : pass.TreatsWithin q d) : pass.TreatsWithin q e := by
  obtain ⟨r, u, hu, treats⟩ := treats
  obtain ⟨u', hu', h'⟩ := h.exists_encloses hu
  exact ⟨r, u', hu', h'.treats_overlaid new marks treats⟩

end marks

/-! ## What a run records -/

section run

variable {common : CommonClasses} {platform m : SourceModel} {done : List Pass} {emit : EmitSet}

/-- After the passes the emit set has only top-level types of the platform with a marked type in
them, and all those with a type that one of the passes treats. -/
structure Records (platform : SourceModel) (done : List Pass) (emit : EmitSet) : Prop where
  marked : ∀ x ∈ emit.topLevel, ∃ file ∈ platform.files, ∃ t ∈ file.unit.types,
    x = qualify file.package t.name ∧ MarkedWithin (qualify file.package t.name) t
  treated : ∀ file ∈ platform.files, ∀ t ∈ file.unit.types, ∀ pass ∈ done,
    pass.TreatsWithin (qualify file.package t.name) t →
      qualify file.package t.name ∈ emit.topLevel

/-- Before the first pass nothing is recorded. -/
theorem records_empty (platform : SourceModel) : Records platform [] .empty where
  marked _ hx := absurd hx List.not_mem_nil
  treated _ _ _ _ _ hp := absurd hp List.not_mem_nil

/-- The step: a pass over what the passes before have made of the platform. -/
theorem Records.run {pass : Pass} (records : Records platform done emit)
    (h : platform.Corresponds (Overlaid common done) m) (new : pass ∉ done)
    (marks : .overwrite ∉ done) (ok : (pass.run common emit m).fault = none) :
    Records platform (done ++ [pass]) (pass.run common emit m).state where
  marked x hx := by
    rcases (Pass.mem_topLevel_run ok).1 hx with hx | ⟨file', hf', t', ht', rfl, treats⟩
    · exact records.marked x hx
    · obtain ⟨file, hf, eq, types⟩ := exists_of_forall₂ h hf'
      obtain ⟨t, ht, h'⟩ := exists_of_forall₂ types ht'
      have package : file'.package = file.package := by rw [eq]; rfl
      rw [package, h'.name] at treats ⊢
      exact ⟨file, hf, t, ht, rfl, h'.exists_marked treats⟩
  treated file hf t ht other hp treats := by
    rw [Pass.mem_topLevel_run ok]
    rcases List.mem_append.1 hp with hp | hp
    · exact .inl (records.treated file hf t ht other hp treats)
    · obtain rfl := List.mem_singleton.1 hp
      obtain ⟨file', hf', package, t', ht', h'⟩ := exists_of_corresponds h hf ht
      refine .inr ⟨file', hf', t', ht', ?_⟩
      rw [package, h'.name]
      exact ⟨rfl, h'.treatsWithin new marks treats⟩

/-- The marks of items are taken away by the last pass. -/
theorem overwrite_not_mem_of_prefix_all {before : List Pass} {pass : Pass}
    (behind : before ++ [pass] <+: Pass.all) : .overwrite ∉ before := by
  obtain ⟨after, split⟩ := behind
  rw [List.append_assoc, List.singleton_append] at split
  have last : .overwrite ∈ pass :: after := by
    have := congrArg List.getLast? split
    rw [List.getLast?_append_cons] at this
    exact List.mem_of_getLast? this
  have nodup : (before ++ pass :: after).Nodup := split ▸ by decide
  exact fun hm ↦ (List.nodup_append.1 nodup).2.2 _ hm _ last rfl

/-- After all passes, what is recorded are the types with marks in them. -/
theorem records_merge (ok : (Merge.run common platform).fault = none) :
    Records platform Pass.all (Merge.run common platform).state := by
  have invariant := runPasses_induction
    (motive := fun before emit m ↦
      Records platform before emit ∧ platform.Corresponds (Overlaid common before) m)
    (fun before pass emit m behind ⟨records, h⟩ first ↦
      have new : pass ∉ before := not_mem_of_prefix_concat (by decide) behind
      ⟨records.run h new (overwrite_not_mem_of_prefix_all behind) first,
        overlaid_run new h first⟩)
    ⟨records_empty platform, .of_self .refl⟩ ok
  exact invariant.1

end run

/-! ## Touched files -/

/-- A top-level name that is declared once tells the file and the type. -/
theorem eq_of_topLevelName_eq {model : SourceModel}
    (distinct : (model.files.flatMap SourceFile.topLevelNames).Nodup) {file other : SourceFile}
    (hf : file ∈ model.files) (ho : other ∈ model.files) {t u : TypeDecl} (ht : t ∈ file.unit.types)
    (hu : u ∈ other.unit.types)
    (same : qualify file.package t.name = qualify other.package u.name) : file = other ∧ t = u := by
  have names : model.files.flatMap SourceFile.topLevelNames =
      (model.files.flatMap fun file ↦ file.unit.types.map fun t ↦ (file, t)).map
        fun place ↦ qualify place.1.package place.2.name := by
    simp only [List.map_flatMap, List.map_map]
    rfl
  rw [names] at distinct
  have place {file : SourceFile} (hf : file ∈ model.files) {t : TypeDecl}
    (ht : t ∈ file.unit.types) :
      (file, t) ∈ model.files.flatMap fun file ↦ file.unit.types.map fun t ↦ (file, t) :=
    List.mem_flatMap.2 ⟨file, hf, List.mem_map_of_mem ht⟩
  exact Prod.mk.inj (List.inj_on_of_nodup_map distinct (place hf ht) (place ho hu) same)

/-- A file is touched when the name of one of its types is recorded. -/
theorem touches_iff {emit : EmitSet} {file : SourceFile} :
    emit.touches file = true ↔ ∃ t ∈ file.unit.types, qualify file.package t.name ∈
      emit.topLevel := by
  simp [EmitSet.touches, EmitSet.containsTopLevel, SourceFile.topLevelNames]

/-- A merge keeps the top-level names of a file. -/
theorem topLevelNames_eq {common : CommonClasses} {passes : List Pass} {file file' : SourceFile}
    (eq : file' = { file with unit := { file.unit with types := file'.unit.types } })
    (types : List.Forall₂ (fun t t' ↦ Overlaid common passes (qualify file.package t.name) t t')
      file.unit.types file'.unit.types) : file'.topLevelNames = file.topLevelNames := by
  have names : file'.unit.types.map TypeDecl.name = file.unit.types.map TypeDecl.name := by
    rw [← List.forall₂_eq_eq_eq, List.forall₂_map_left_iff, List.forall₂_map_right_iff]
    exact (types.imp fun _ _ h ↦ h.name).flip
  have package : file'.package = file.package := by rw [eq]; rfl
  have qualified (file : SourceFile) :
      file.topLevelNames = (file.unit.types.map TypeDecl.name).map (qualify file.package) := by
    rw [List.map_map]
    rfl
  rw [qualified, qualified, names, package]

section touched

variable {common : CommonClasses} {platform : SourceModel}

/-- A type at any depth of a file is marked when there is one within a top-level type. -/
theorem declares_marked_iff {file : SourceFile} :
    (∃ q d, file.Declares q d ∧ d.isMarked = true) ↔
      ∃ t ∈ file.unit.types, MarkedWithin (qualify file.package t.name) t := by
  constructor
  · rintro ⟨q, d, ⟨t, ht, hd⟩, marked⟩
    exact ⟨t, ht, q, d, hd, marked⟩
  · rintro ⟨t, ht, q, d, hd, marked⟩
    exact ⟨q, d, ⟨t, ht, hd⟩, marked⟩

/-- Different top-level names make sure that a file is not touched for the types of another. -/
theorem touches_run_iff (distinct : (platform.files.flatMap SourceFile.topLevelNames).Nodup)
    (ok : (run common platform).fault = none) {file : SourceFile} (hf : file ∈ platform.files) :
    (run common platform).state.touches file = true ↔
      ∃ t ∈ file.unit.types, MarkedWithin (qualify file.package t.name) t := by
  have records := records_merge ok
  rw [touches_iff]
  refine exists_congr fun t ↦ and_congr_right fun ht ↦ ⟨fun recorded ↦ ?_, fun marked ↦ ?_⟩
  · obtain ⟨other, ho, u, hu, same, marked⟩ := records.marked _ recorded
    obtain ⟨rfl, rfl⟩ := eq_of_topLevelName_eq distinct hf ho ht hu same
    exact marked
  · obtain ⟨pass, treats⟩ := markedWithin_iff.1 marked
    exact records.treated file hf t ht pass (by cases pass <;> decide) treats

/-- Where top-level names are distinct, a merge touches the files that declare a marked type, at
any depth, and leaves all others as they were. -/
theorem touches_iff_marked (distinct : (platform.files.flatMap SourceFile.topLevelNames).Nodup)
    (ok : (run common platform).fault = none) :
    List.Forall₂ (fun file file' : SourceFile ↦
        ((run common platform).state.touches file' = true ↔
          ∃ q d, file.Declares q d ∧ d.isMarked = true) ∧
        ((run common platform).state.touches file' = false → file' = file))
      platform.files (run common platform).value.files := by
  refine ((List.forall₂_and_left _ _).2 ⟨fun _ hf ↦ hf, overlaid_merge ok⟩).imp
    fun file file' ⟨hf, eq, types⟩ ↦ ?_
  have touches :
      (run common platform).state.touches file' = (run common platform).state.touches file := by
    rw [EmitSet.touches, topLevelNames_eq eq types, ← EmitSet.touches]
  rw [touches, declares_marked_iff, ← touches_run_iff distinct ok hf]
  refine ⟨Iff.rfl, fun untouched ↦ ?_⟩
  have idle : ∀ t ∈ file.unit.types, Idle (qualify file.package t.name) t := by
    intro t ht r u hu pass
    by_contra treats
    rw [Bool.not_eq_false] at treats
    rw [(touches_run_iff distinct ok hf).2 ⟨t, ht, markedWithin_iff.2 ⟨pass, r, u, hu, treats⟩⟩]
      at untouched
    cases untouched
  have same : file'.unit.types = file.unit.types := by
    rw [← List.forall₂_eq_eq_eq]
    exact (((List.forall₂_and_left _ _).2 ⟨idle, types⟩).imp fun _ _ h ↦ h.2.eq_of_idle h.1).flip
  rw [eq, same]

theorem touches_iff_marked_pair :
    List.Forall₂ (fun file file' : SourceFile ↦
        ((run (.ofModel (.ofType commonPair)) platformFiles).state.touches file' = true ↔
          ∃ q d, file.Declares q d ∧ d.isMarked = true) ∧
        ((run (.ofModel (.ofType commonPair)) platformFiles).state.touches file' = false →
          file' = file))
      platformFiles.files (run (.ofModel (.ofType commonPair)) platformFiles).value.files :=
  touches_iff_marked (by decide +kernel) (by decide +kernel)

end touched

end PlatformOverlay.Merge
