import PlatformOverlay.Proofs.Merge.Marks

/-!
# Merging twice

Over a common model without platform marks a merge leaves no type behind that a pass would treat, at
any depth: the passes have taken the marks off the types and items of the platform, and what is
grafted has none (`Overlaid.idle`).  A run over idle types changes nothing and records nothing
(`run_of_idle`), so a second merge is without effect (`run_run`).

Nothing is assumed of the platform but that its first merge goes through. In particular its marks
may stand where no pass looks for them: they stay, and the second merge does not look for them
either. If the common model had marks, a graft could bring one along for a pass that is over, and
the second merge would find it.
-/

namespace PlatformOverlay

namespace Model

open Java

variable {σ ε α : Type}

/-! ## Visits that change nothing -/

/-- A visit that changes nothing at any element changes nothing. -/
theorem visitList_of_still {f : σ → α → Visited σ ε α} {l : List α}
    (h : ∀ a ∈ l, ∀ s, f s a = ⟨a, s, none⟩) (s : σ) : visitList f s l = ⟨l, s, none⟩ := by
  induction l generalizing s with
  | nil => rfl
  | cons a l ih =>
    have head := h a List.mem_cons_self s
    rw [visitList_cons_of_ok (by rw [head]), head, ih fun b hb ↦ h b (List.mem_cons_of_mem _ hb)]
    rfl

theorem SourceModel.visit_of_still {visit : Visitor σ ε} {levels : Nat} {model : SourceModel}
    (h : ∀ file ∈ model.files, ∀ t ∈ file.unit.types, ∀ n s,
      visitDecl visit levels (file.scope n t) s t = ⟨t, s, none⟩) (s : σ) :
    model.visit visit levels s = ⟨model, s, none⟩ := by
  have files :=
    visitList_of_still (f := visitFile (visitDecl visit levels)) (l := model.files.zipIdx)
    (fun file hf s ↦ by
      rw [visitFile, visitList_of_still fun t ht s ↦
        h file.1 (List.fst_mem_of_mem_zipIdx hf) t ht file.2 s]
      rfl) s
  rw [SourceModel.visit, files, Visited.map, List.zipIdx_map_fst]

end Model

namespace Merge

open Java Model

section idle

variable {common : CommonClasses} {pass : Pass} {emit : EmitSet}

/-- A pass over a type with nothing to treat in it, at any depth, does nothing. -/
theorem visitDecl_of_idle {scope : Scope} {d : TypeDecl} (idle : Idle scope.qualified d)
    (levels : Nat) :
    visitDecl (pass.visit common) levels scope emit d = ⟨d, emit, none⟩ := by
  induction levels generalizing scope emit d with
  | zero => rfl
  | succ levels ih =>
    have own : pass.visit common scope emit d = ⟨d, emit, none⟩ := by
      rw [Pass.visit, if_neg (by simp [idle _ _ .refl pass])]
    have members :=
      visitList_of_still (f := visitMember (visitDecl (pass.visit common) levels) scope)
      (l := d.members) (fun m hm emit ↦ by
        cases m with
        | item i => rfl
        | type t => rw [visitMember, ih (idle.nested (TypeDecl.mem_nestedTypes.2 hm)), Visited.map])
            emit
    rw [visitDecl, own, Visited.andThen_of_ok rfl, members]
    cases d
    rfl

/-- No pass treats a type of the model. -/
def IdleModel (model : SourceModel) : Prop :=
  ∀ file ∈ model.files, ∀ t ∈ file.unit.types, Idle (qualify file.package t.name) t

theorem runPasses_of_idle {model : SourceModel} (idle : IdleModel model) (passes : List Pass) :
    runPasses common passes ⟨model, emit, none⟩ = ⟨model, emit, none⟩ := by
  induction passes with
  | nil => rfl
  | cons pass passes ih =>
    rw [runPasses_cons, Pass.run,
      SourceModel.visit_of_still fun file hf t ht n _ ↦ visitDecl_of_idle (idle file hf t ht) _]
    exact ih

/-- Without a class to treat a run changes nothing and records nothing. -/
theorem run_of_idle {model : SourceModel} (idle : IdleModel model) :
    run common model = ⟨model, .empty, none⟩ :=
  runPasses_of_idle idle Pass.all

end idle

variable {common platform : SourceModel} {q : String} {d e : TypeDecl}

/-- After all passes, none of them finds anything to treat in what came from the platform. -/
theorem Overlaid.not_treats (h : Overlaid (.ofModel common) Pass.all q d e) (pass : Pass) :
    pass.treats e = false := by
  have cleared {mark : Mark} (hm : mark ∈ Pass.all.filterMap Pass.classMark?) :
      e.hasMark mark = false := by
    rw [TypeDecl.hasMark, h.annotations]
    exact isAmong_clearClass_of_mem hm _
  cases pass with
  | inheritMissingMembers => exact cleared (by decide)
  | inherit => exact cleared (by decide)
  | overwriteClass => exact cleared (by decide)
  | overwrite =>
    refine TypeDecl.anyItemMarked_eq_false.2 fun j hj ↦ ?_
    obtain ⟨i, -, marks⟩ := h.cases_hasMark (List.suffix_refl _) (by decide) hj
    rw [marks]
    simp

/-- No pass has anything left to do in a class that all of them have treated, nor in what was
grafted into it, since the common model has no marks. -/
theorem Overlaid.idle (unmarked : common.Unmarked) (h : Overlaid (.ofModel common) Pass.all q d e) :
    Idle q e := by
  intro r u hu pass
  induction hu generalizing d with
  | refl => exact h.not_treats pass
  | nested ht _ ih =>
    rcases h.cases_nestedType ht with ⟨t, -, h'⟩ | hg
    · rw [h'.name] at ih
      exact ih h'
    · -- The passes after the grafting one have left the type as it is in the common class.
      obtain ⟨c, hc, ht⟩ := (hg.added unmarked).exists_type
      exact (idle_of_find? unmarked hc).nested ht _ _ ‹_› pass

theorem idle_run (unmarked : common.Unmarked) (ok : (run (.ofModel common) platform).fault = none) :
    IdleModel (run (.ofModel common) platform).value := by
  intro file' hf' t' ht'
  obtain ⟨file, -, eq, types⟩ := exists_of_forall₂ (overlaid_merge ok) hf'
  obtain ⟨t, -, h⟩ := exists_of_forall₂ types ht'
  have package : file'.package = file.package := by rw [eq]; rfl
  rw [package, h.name]
  exact h.idle unmarked

/-- A merge of what has been merged changes no file and records no class. -/
theorem run_run (unmarked : common.Unmarked) (ok : (run (.ofModel common) platform).fault = none) :
    run (.ofModel common) (run (.ofModel common) platform).value =
      ⟨(run (.ofModel common) platform).value, .empty, none⟩ :=
  run_of_idle (idle_run unmarked ok)

theorem run_run_pair :
    run (.ofModel (.ofType commonPair))
        (run (.ofModel (.ofType commonPair)) (.ofType platformPair)).value =
      ⟨(run (.ofModel (.ofType commonPair)) (.ofType platformPair)).value, .empty, none⟩ :=
  run_run (by decide +kernel) (by decide +kernel)

end Merge

end PlatformOverlay
