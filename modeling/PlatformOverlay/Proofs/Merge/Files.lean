import PlatformOverlay.Proofs.Merge.Preservation
import PlatformOverlay.Proofs.Model.Independence
import Mathlib.Data.List.Perm.Basic

/-!
# Merging file by file

A run goes pass by pass over all files with one emit set and stops at the first fault.  A pass looks
neither at the number of a file nor at what the emit set holds already (`Pass.visit_atFile`,
`Pass.visit_onto`), so a run of one pass is a run over each file by itself (`Pass.run_eq`). Hence
the passes can be sorted by files instead (`fault_runPasses_files`): a model is merged exactly if
each of its files is, and the order in which the files were loaded is of no importance
(`run_file_by_file`).

Three things are said of a run in this way, each first for one pass and then for all of them:

* whether it has a fault (`Pass.fault_run_files`, `fault_runPasses_files`),
* which files it leaves (`Pass.files_run`, `files_runPasses`),
* what it records (`Pass.state_run`, `state_runPasses`). Emit sets are compared as sets
  (`EmitSet.IsUnion`), since their lists depend on the order in which classes come up.

Levels need some care: a run over a model is given those that all its files need, a run over one
file only its own. `SourceModel.visit_eq` takes the difference away, as either are enough.

## What is not claimed

A run over a model stops at the first fault, and which one this is does depend on the order of the
files.
-/

namespace PlatformOverlay.Merge

open Java Model

/-! ## Emit sets -/

/-- The names afterwards are those of both lists. -/
theorem mem_foldl_insertNew {names base : List String} {x : String} :
    x ∈ names.foldl insertNew base ↔ x ∈ base ∨ x ∈ names := by
  induction names generalizing base with
  | nil => simp
  | cons name names ih => rw [List.foldl_cons, ih, mem_insertNew, List.mem_cons, or_assoc]

theorem insertNew_foldl (base names : List String) (name : String) :
    insertNew (names.foldl insertNew base) name = (insertNew names name).foldl insertNew base := by
  by_cases h : name ∈ names
  · have there : name ∈ names.foldl insertNew base := mem_foldl_insertNew.2 (.inr h)
    rw [insertNew, if_pos (by simpa using there), insertNew, if_pos (by simpa using h)]
  · rw [insertNew.eq_1 names, if_neg (by simpa using h), List.foldl_append]
    rfl

namespace EmitSet

/-- What `emit` records on top of `base`. -/
def onto (base emit : EmitSet) : EmitSet :=
  ⟨emit.classes.foldl insertNew base.classes, emit.topLevel.foldl insertNew base.topLevel⟩

@[simp] theorem onto_empty (base : EmitSet) : base.onto .empty = base := rfl

/-- Recording on top of a base is putting what is recorded on the base. -/
theorem record_onto (base emit : EmitSet) (scope : Scope) :
    (base.onto emit).record scope = base.onto (emit.record scope) := by
  simp only [record, onto, insertNew_foldl]

/-- As sets, the names of the emit set are those of all the parts. -/
structure IsUnion (emit : EmitSet) (parts : List EmitSet) : Prop where
  classes : ∀ x, x ∈ emit.classes ↔ ∃ part ∈ parts, x ∈ part.classes
  topLevel : ∀ x, x ∈ emit.topLevel ↔ ∃ part ∈ parts, x ∈ part.topLevel

/-- An emit set has the property exactly if something in it does, as that a name is there. -/
structure Additive (K : EmitSet → Prop) : Prop where
  empty : ¬K .empty
  onto : ∀ base emit, K (base.onto emit) ↔ K base ∨ K emit

/-- Whether a name is recorded adds up over the emit sets of the files. -/
theorem additive_classes (x : String) : Additive (x ∈ ·.classes) where
  empty := List.not_mem_nil
  onto _ _ := mem_foldl_insertNew

theorem additive_topLevel (x : String) : Additive (x ∈ ·.topLevel) where
  empty := List.not_mem_nil
  onto _ _ := mem_foldl_insertNew

end EmitSet

/-! ## One pass -/

variable {common : CommonClasses}

/-- A pass does not look at the index of the file, so that files can be visited one by one. -/
theorem Pass.visit_atFile (pass : Pass) (scope : Scope) (k : Nat) (emit : EmitSet)
    (decl : TypeDecl) :
    pass.visit common { scope with file := k } emit decl = pass.visit common scope emit decl := by
  have apply (c : TypeDecl) :
      pass.apply { scope with file := k } c decl = pass.apply scope c decl := by
    cases pass <;> rfl
  simp only [visit, apply]
  rfl

/-- A pass does not look at what has been recorded: it only adds to it. -/
theorem Pass.visit_onto (pass : Pass) (base : EmitSet) (scope : Scope) (emit : EmitSet)
    (decl : TypeDecl) :
    pass.visit common scope (base.onto emit) decl =
      (pass.visit common scope emit decl).mapState base.onto := by
  unfold visit
  split
  · cases counterpart common scope.qualified with
    | error e => rfl
    | ok c =>
      cases hf : (pass.apply scope c.decl decl).fault <;>
        simp [Visited.mapState, hf, EmitSet.record_onto]
  · rfl

/-- A pass over a file by itself. -/
def Pass.runFile (common : CommonClasses) (pass : Pass) (emit : EmitSet) (file : SourceFile) :
    Visited EmitSet MergeError SourceFile :=
  file.visitAlone (pass.visit common) (levels common ⟨[file]⟩) emit

theorem Pass.runFile_onto (pass : Pass) (base emit : EmitSet) (file : SourceFile) :
    pass.runFile common (base.onto emit) file =
      (pass.runFile common emit file).mapState base.onto :=
  file.visitAlone_mapState (pass.visit_onto base) _ emit

/-- A file can be visited with an empty emit set, and what is recorded put on top. -/
theorem Pass.runFile_eq (pass : Pass) (emit : EmitSet) (file : SourceFile) :
    pass.runFile common emit file = (pass.runFile common .empty file).mapState emit.onto :=
  pass.runFile_onto emit .empty file

/-- A pass over a model is the pass over its files in turn. -/
theorem Pass.run_eq (pass : Pass) (emit : EmitSet) (model : SourceModel) :
    pass.run common emit model = (visitList (pass.runFile common) emit model.files).map .mk :=
  SourceModel.visit_eq pass.visit_atFile
    (fun _ hf _ ht ↦ pass.suffices_run common hf ht 0)
    (fun _ _ _ ht ↦ pass.suffices_run common (List.mem_singleton.2 rfl) ht 0) emit

section pass

variable {pass : Pass} {emit : EmitSet} {model : SourceModel}

/-- A pass has no fault on the model when it has none on any of its files. -/
theorem Pass.fault_run_files :
    (pass.run common emit model).fault = none ↔
      ∀ file ∈ model.files, (pass.runFile common .empty file).fault = none := by
  rw [run_eq, Visited.fault_map]
  refine fault_visitList_iff fun file _ emit ↦ ?_
  rw [runFile_eq, Visited.fault_mapState]

/-- The files afterwards are those of the passes over each file. -/
theorem Pass.files_run (ok : (pass.run common emit model).fault = none) :
    (pass.run common emit model).value.files =
      model.files.map fun file ↦ (pass.runFile common .empty file).value := by
  rw [run_eq] at ok ⊢
  have replaced := forall₂_visitList (R := fun file file' ↦
    (pass.runFile common .empty file).value = file') ok fun file _ emit _ ↦ by
      rw [runFile_eq pass emit, Visited.value_mapState]
  rw [← List.forall₂_map_left_iff, List.forall₂_eq_eq_eq] at replaced
  exact replaced.symm

/-- What a pass records was there, or the pass records it for one of the files by itself. -/
theorem Pass.state_run {K : EmitSet → Prop} (additive : EmitSet.Additive K)
    (ok : (pass.run common emit model).fault = none) :
    K (pass.run common emit model).state ↔
      K emit ∨ ∃ file ∈ model.files, K (pass.runFile common .empty file).state := by
  rw [run_eq] at ok ⊢
  refine state_visitList_iff ok fun file _ emit _ ↦ ?_
  rw [runFile_eq, Visited.state_mapState, additive.onto]

end pass

/-! ## All passes -/

/-- Run passes over a file by itself, up to the first fault. -/
def runFilePasses (common : CommonClasses) (passes : List Pass)
    (start : Visited EmitSet MergeError SourceFile) : Visited EmitSet MergeError SourceFile :=
  passes.foldl (fun r pass ↦ r.andThen (pass.runFile common)) start

theorem runFilePasses_of_fault {r : Visited EmitSet MergeError SourceFile} {error : MergeError}
    (h : r.fault = some error) (passes : List Pass) : runFilePasses common passes r = r := by
  induction passes with
  | nil => rfl
  | cons pass passes ih => rwa [runFilePasses, List.foldl_cons, Visited.andThen_of_fault h]

theorem runFilePasses_mapState (passes : List Pass) (base : EmitSet)
    (r : Visited EmitSet MergeError SourceFile) :
    runFilePasses common passes (r.mapState base.onto) =
      (runFilePasses common passes r).mapState base.onto := by
  induction passes generalizing r with
  | nil => rfl
  | cons pass passes ih =>
    rw [runFilePasses, List.foldl_cons,
      Visited.andThen_mapState (pass.runFile_onto base r.state r.value)]
    exact ih _

/-- A run over a file that no fault stops in the first pass goes on as if it started anew. -/
theorem runFilePasses_cons {pass : Pass} {passes : List Pass} {file : SourceFile}
    (ok : (pass.runFile common .empty file).fault = none) :
    runFilePasses common (pass :: passes) ⟨file, .empty, none⟩ =
      (runFilePasses common passes ⟨(pass.runFile common .empty file).value, .empty, none⟩).mapState
        (pass.runFile common .empty file).state.onto := by
  rw [← runFilePasses_mapState]
  exact congrArg (runFilePasses common passes) (Visited.eq_of_ok ok)

/-- All passes go through when the first does and the others do on its result. -/
theorem fault_runFilePasses_cons {pass : Pass} {passes : List Pass} {file : SourceFile} :
    (runFilePasses common (pass :: passes) ⟨file, .empty, none⟩).fault = none ↔
      (pass.runFile common .empty file).fault = none ∧
        (runFilePasses common passes
          ⟨(pass.runFile common .empty file).value, .empty, none⟩).fault = none := by
  cases hf : (pass.runFile common .empty file).fault with
  | none => simp [runFilePasses_cons hf]
  | some error =>
    have stopped : runFilePasses common (pass :: passes) ⟨file, .empty, none⟩ =
        pass.runFile common .empty file := runFilePasses_of_fault hf passes
    simp [stopped, hf]

section passes

variable {passes : List Pass} {emit : EmitSet} {model : SourceModel}

/-- The passes go through on a model when they do on each of its files: the order of the loops
over passes and files can be changed. -/
theorem fault_runPasses_files :
    (runPasses common passes ⟨model, emit, none⟩).fault = none ↔
      ∀ file ∈ model.files, (runFilePasses common passes ⟨file, .empty, none⟩).fault = none := by
  induction passes generalizing emit model with
  | nil => exact iff_of_true rfl fun _ _ ↦ rfl
  | cons pass passes ih =>
    simp only [fault_runFilePasses_cons, runPasses_cons]
    constructor
    · intro ok file hf
      have first := fault_runPasses ok
      rw [Visited.eq_of_ok first, ih, Pass.files_run first] at ok
      exact ⟨Pass.fault_run_files.1 first file hf, ok _ (List.mem_map_of_mem hf)⟩
    · intro each
      have first : (pass.run common emit model).fault = none :=
        Pass.fault_run_files.2 fun file hf ↦ (each file hf).1
      rw [Visited.eq_of_ok first, ih, Pass.files_run first]
      exact List.forall_mem_map.2 fun file hf ↦ (each file hf).2

/-- The files afterwards are those of the runs over each file. -/
theorem files_runPasses (ok : (runPasses common passes ⟨model, emit, none⟩).fault = none) :
    (runPasses common passes ⟨model, emit, none⟩).value.files =
      model.files.map fun file ↦ (runFilePasses common passes ⟨file, .empty, none⟩).value := by
  induction passes generalizing emit model with
  | nil => exact (List.map_id' _).symm
  | cons pass passes ih =>
    rw [runPasses_cons] at ok ⊢
    have first := fault_runPasses ok
    rw [Visited.eq_of_ok first] at ok ⊢
    rw [ih ok, Pass.files_run first, List.map_map]
    refine List.map_congr_left fun file hf ↦ ?_
    rw [runFilePasses_cons (Pass.fault_run_files.1 first file hf), Visited.value_mapState,
      Function.comp_apply]

/-- What is recorded is what was recorded at the start or is recorded in a run over some file. -/
theorem state_runPasses {K : EmitSet → Prop} (additive : EmitSet.Additive K)
    (ok : (runPasses common passes ⟨model, emit, none⟩).fault = none) :
    K (runPasses common passes ⟨model, emit, none⟩).state ↔ K emit ∨
      ∃ file ∈ model.files, K (runFilePasses common passes ⟨file, .empty, none⟩).state := by
  induction passes generalizing emit model with
  | nil =>
    refine (or_iff_left ?_).symm
    rintro ⟨_, -, h⟩
    exact additive.empty h
  | cons pass passes ih =>
    rw [runPasses_cons] at ok ⊢
    have first := fault_runPasses ok
    rw [Visited.eq_of_ok first] at ok ⊢
    rw [ih ok, Pass.state_run additive first, Pass.files_run first, or_assoc]
    simp only [List.mem_map, exists_exists_and_eq_and, ← exists_or, ← and_or_left]
    refine or_congr_right (exists_congr fun file ↦ and_congr_right fun hf ↦ ?_)
    rw [runFilePasses_cons (Pass.fault_run_files.1 first file hf), Visited.state_mapState,
      additive.onto]

end passes

/-! ## Runs -/

/-- All passes over a file by itself. -/
def runFile (common : CommonClasses) (file : SourceFile) : Visited EmitSet MergeError SourceFile :=
  runFilePasses common Pass.all ⟨file, .empty, none⟩

/-- To run over a file by itself is to run over the model of just this file. -/
theorem run_singleton (common : CommonClasses) (file : SourceFile) :
    run common ⟨[file]⟩ = (runFile common file).map fun file' ↦ ⟨[file']⟩ := by
  have passes : ∀ (passes : List Pass) (r : Visited EmitSet MergeError SourceFile),
      runPasses common passes (r.map fun file' ↦ ⟨[file']⟩) =
        (runFilePasses common passes r).map fun file' ↦ ⟨[file']⟩ := by
    intro passes
    induction passes with
    | nil => exact fun _ ↦ rfl
    | cons pass passes ih =>
      intro r
      have step : pass.run common r.state ⟨[r.value]⟩ =
          (pass.runFile common r.state r.value).map fun file' ↦ ⟨[file']⟩ := by
        rw [Pass.run_eq, visitList_singleton]
        rfl
      rw [runPasses, List.foldl_cons, Visited.map_andThen step]
      exact ih _
  exact passes Pass.all ⟨file, .empty, none⟩

section run

variable {model : SourceModel}

/-- A merge goes through when it does on each file. -/
theorem fault_run :
    (run common model).fault = none ↔ ∀ file ∈ model.files, (runFile common file).fault = none :=
  fault_runPasses_files

/-- The merged files are the merges of the files. -/
theorem files_run (ok : (run common model).fault = none) :
    (run common model).value.files = model.files.map fun file ↦ (runFile common file).value :=
  files_runPasses ok

theorem state_run {K : EmitSet → Prop} (additive : EmitSet.Additive K)
    (ok : (run common model).fault = none) :
    K (run common model).state ↔ ∃ file ∈ model.files, K (runFile common file).state :=
  (state_runPasses additive ok).trans (or_iff_right additive.empty)

/-- The emit set of a merge is the union of those of the files. -/
theorem isUnion_run (ok : (run common model).fault = none) :
    (run common model).state.IsUnion (model.files.map fun file ↦ (runFile common file).state) where
  classes x := by
    rw [state_run (EmitSet.additive_classes x) ok]
    simp only [List.mem_map, exists_exists_and_eq_and]
  topLevel x := by
    rw [state_run (EmitSet.additive_topLevel x) ok]
    simp only [List.mem_map, exists_exists_and_eq_and]

end run

section reordered

variable {model reordered : SourceModel} (perm : reordered.files.Perm model.files)
include perm

/-- The order of the files does not matter for success. -/
theorem fault_run_reordered :
    (run common reordered).fault = none ↔ (run common model).fault = none := by
  rw [fault_run, fault_run]
  exact forall_congr' fun file ↦ by rw [perm.mem_iff]

theorem files_run_reordered (ok : (run common model).fault = none) :
    (reordered.files.zip (run common reordered).value.files).Perm
      (model.files.zip (run common model).value.files) := by
  rw [files_run ok, files_run ((fault_run_reordered perm).2 ok), ← List.map_prod_left_eq_zip,
    ← List.map_prod_left_eq_zip]
  exact perm.map _

theorem state_run_reordered {K : EmitSet → Prop} (additive : EmitSet.Additive K)
    (ok : (run common model).fault = none) :
    K (run common reordered).state ↔ K (run common model).state := by
  rw [state_run additive ok, state_run additive ((fault_run_reordered perm).2 ok)]
  exact exists_congr fun file ↦ by rw [perm.mem_iff]

end reordered

/-- A merge succeeds exactly if it succeeds on every file by itself.  It then makes of each file
what the merge of this file alone makes of it, and records what these record; so the order of the
files changes nothing. -/
theorem run_file_by_file (common : CommonClasses) (platform : SourceModel) :
    ((run common platform).fault = none ↔
        ∀ file ∈ platform.files, (run common ⟨[file]⟩).fault = none) ∧
      ((run common platform).fault = none →
        List.Forall₂ (fun file file' ↦ (run common ⟨[file]⟩).value = ⟨[file']⟩)
          platform.files (run common platform).value.files ∧
        (run common platform).state.IsUnion
          (platform.files.map fun file ↦ (run common ⟨[file]⟩).state)) ∧
      ∀ reordered : SourceModel, reordered.files.Perm platform.files →
        ((run common reordered).fault = none ↔ (run common platform).fault = none) ∧
        ((run common platform).fault = none →
          (reordered.files.zip (run common reordered).value.files).Perm
            (platform.files.zip (run common platform).value.files) ∧
          (run common reordered).state.IsUnion [(run common platform).state]) := by
  simp only [run_singleton, Visited.fault_map, Visited.value_map, Visited.state_map]
  refine ⟨fault_run, fun ok ↦ ⟨?_, isUnion_run ok⟩, fun reordered perm ↦
    ⟨fault_run_reordered perm, fun ok ↦ ⟨files_run_reordered perm ok, ?_, ?_⟩⟩⟩
  · rw [files_run ok]
    exact List.forall₂_map_right_iff.2 (List.forall₂_same.2 fun _ _ ↦ rfl)
  · intro x
    rw [state_run_reordered perm (EmitSet.additive_classes x) ok]
    simp
  · intro x
    rw [state_run_reordered perm (EmitSet.additive_topLevel x) ok]
    simp

/-- A file that takes something in and one that does not. -/
def platformFiles : SourceModel :=
  ⟨(SourceModel.ofType platformPair).files ++ (SourceModel.ofType (.bare .classType "D")).files⟩

theorem run_file_by_file_pair :
    (run (.ofModel (.ofType commonPair)) platformFiles).state.IsUnion [⟨["C"], ["C"]⟩, .empty] :=
  ((run_file_by_file (.ofModel (.ofType commonPair)) platformFiles).2.1 (by decide +kernel)).2

end PlatformOverlay.Merge
