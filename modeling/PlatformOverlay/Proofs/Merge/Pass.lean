import PlatformOverlay.Merge.Run
import PlatformOverlay.Proofs.Merge.Graft
import PlatformOverlay.Proofs.Merge.Strip

/-!
# What a pass does at a class

`visit_cases` says it once for all passes.  The levels that a run is given reach every type
(`Pass.suffices_visit`): below a class without a common counterpart no type is added, and those
added below the others are no deeper than the common classes.

Levels count nested types that are still to be visited, so this is the place where the end of a
visit is justified: without it, grafting a type that asks for a type in it to be grafted could go on
as long as there is one. Each step down makes the qualified name longer. A name that is longer than
all names in the common model has no counterpart, and a type without one is left as it is.

The overwriting pass strips whole types at once and is described by what all of it comes to
(`visit_overwrite`), the others by one class at a time.
-/

namespace PlatformOverlay.Merge

open Java Model

theorem counterpart_eq_ok {common : CommonClasses} {q : String} {c : ClassRef} :
    counterpart common q = .ok c ↔ common.find? q = some c := by
  unfold counterpart
  cases common.find? q <;> simp

/-- The only fault is that there is no counterpart. -/
theorem counterpart_eq_error {common : CommonClasses} {q : String} {e : MergeError} :
    counterpart common q = .error e ↔ common.find? q = none ∧ e = .nothingToInherit q := by
  unfold counterpart
  cases common.find? q <;> simp [eq_comm]

namespace Pass

variable {common : CommonClasses} {pass : Pass} {scope : Scope} {emit : EmitSet} {decl : TypeDecl}

/-- What a visit without a fault does to a class: nothing, or the class has a counterpart
and is treated and recorded. -/
theorem visit_cases (h : (pass.visit common scope emit decl).fault = none) :
    (pass.treats decl = false ∧ pass.visit common scope emit decl = ⟨decl, emit, none⟩) ∨
    (pass.treats decl = true ∧ ∃ c, common.find? scope.qualified = some c ∧
      (pass.apply scope c.decl decl).fault = none ∧
      pass.visit common scope emit decl =
        ⟨(pass.apply scope c.decl decl).value, emit.record scope, none⟩) := by
  unfold visit at h ⊢
  split at h
  next treated =>
    refine .inr ⟨treated, ?_⟩
    split at h
    · simp at h
    next c hc =>
      simp only at h
      exact ⟨c, counterpart_eq_ok.1 hc, h, by simp [treated, h]⟩
  next untreated =>
    rw [Bool.not_eq_true] at untreated
    exact .inl ⟨untreated, by rw [if_neg (by simp [untreated])]⟩

/-- The faults of a visit: no counterpart, or the fault of the treatment itself. -/
theorem fault_visit {e : MergeError} :
    (pass.visit common scope emit decl).fault = some e ↔ pass.treats decl = true ∧
      ((common.find? scope.qualified = none ∧ e = .nothingToInherit scope.qualified) ∨
        ∃ c, common.find? scope.qualified = some c ∧
          (pass.apply scope c.decl decl).fault = some e) := by
  unfold visit
  split
  next treated =>
    cases hc : counterpart common scope.qualified with
    | error f =>
      obtain ⟨hn, rfl⟩ := counterpart_eq_error.1 hc
      simp [treated, hn, eq_comm]
    | ok c => simp [treated, counterpart_eq_ok.1 hc]
  next untreated => simp [untreated]

end Pass

/-! ## Overwriting -/

theorem type_mem_of_cleared {ms ms' : List Member} (h : List.Forall₂ MemberCleared ms ms')
    {t' : TypeDecl} (ht : .type t' ∈ ms') :
    ∃ t, .type t ∈ ms ∧ t'.clearOverwrites = t.clearOverwrites := by
  induction h with
  | nil => simp at ht
  | cons h _ ih =>
    rcases List.mem_cons.1 ht with rfl | ht
    · cases h with
      | type h => exact ⟨_, List.mem_cons_self, h⟩
    · obtain ⟨t, hm, e⟩ := ih ht
      exact ⟨t, List.mem_cons_of_mem _ hm, e⟩

/-- Stripping and then visiting the nested types clears the members, because a nested type that
has been stripped clears to the same as before. -/
theorem members_of_cleared {scope : Scope} {ms ms₁ ms' : List Member} {s s' : EmitSet}
    (h : List.Forall₂ MemberCleared ms ms₁)
    (h' : Threaded (MemberVisited (fun _ _ t _ t' ↦ t' = t.clearOverwrites) scope) s ms₁ s' ms') :
    ms' = ms.map TypeDecl.clearMember := by
  induction h generalizing s ms' with
  | nil =>
    cases h'
    rfl
  | cons h _ ih =>
    obtain _ | ⟨hv, h'⟩ := h'
    rw [List.map_cons, ih h']
    cases h with
    | item =>
      cases hv
      rfl
    | type h =>
      obtain _ | e := hv
      rw [e, h]
      rfl

theorem cleared_of_not_treats {decl : TypeDecl} (h : Pass.overwrite.treats decl = false) :
    List.Forall₂ MemberCleared decl.members decl.members := by
  have items : ∀ i, .item i ∈ decl.members → i.removeMark .overwrite = i := fun i hi ↦ by
    rw [Pass.treats, TypeDecl.anyItemMarked, List.any_eq_false] at h
    exact Item.removeMark_of_not_hasMark (by simpa using h i (TypeDecl.mem_items.2 hi))
  refine List.forall₂_same.2 fun m hm ↦ ?_
  cases m with
  | item i =>
    have := MemberCleared.item (i := i)
    rwa [items i hm] at this
  | type t => exact .type rfl

/-- The overwriting pass takes all marks away, whether it treats a class or not: where it
does not there are none. -/
theorem visit_overwrite {common : CommonClasses} {levels : Nat} {scope : Scope} {emit : EmitSet}
    {decl : TypeDecl} (enough : Suffices (Pass.overwrite.visit common) levels scope decl)
    (h : (visitDecl (Pass.overwrite.visit common) levels scope emit decl).fault = none) :
    (visitDecl (Pass.overwrite.visit common) levels scope emit decl).value =
      decl.clearOverwrites := by
  refine visitDecl_induction (motive := fun _ _ decl _ decl' ↦ decl' = decl.clearOverwrites)
    (fun scope emit decl ok emit' members visited ↦ ?_) enough h
  rw [TypeDecl.clearOverwrites_eq]
  rcases Pass.visit_cases ok with ⟨untreated, e⟩ | ⟨-, c, -, stripped, e⟩
  · rw [e] at visited ⊢
    rw [members_of_cleared (cleared_of_not_treats untreated) visited]
  · rw [e] at visited ⊢
    rw [members_of_cleared (members_cleared stripped) visited, Pass.apply,
      value_stripOverwrites stripped]

/-! ## Levels -/

/-- A common class is no deeper than all of them together. -/
theorem depth_le_of_find? {common : CommonClasses} {q : String} {c : ClassRef}
    (h : common.find? q = some c) : c.decl.depth ≤ common.depth :=
  (le_foldl_max (fun c : ClassRef ↦ c.decl.depth) 0).2 c (List.mem_of_find?_eq_some h)

theorem length_le_of_find? {common : CommonClasses} {q : String} {c : ClassRef}
    (h : common.find? q = some c) : q.length ≤ common.longestName := by
  have : c.qualified = q := by simpa using List.find?_some h
  rw [← this]
  exact (le_foldl_max (fun c : ClassRef ↦ c.qualified.length) 0).2 c (List.mem_of_find?_eq_some h)

/-- The nested types of a class that a pass other than the overwriting one has treated: those
that were there and some of the counterpart. -/
theorem Pass.nestedTypes_apply {pass : Pass} (class_pass : pass ≠ .overwrite) {scope : Scope}
    {common decl : TypeDecl} :
    decl.nestedTypes ⊆ (pass.apply scope common decl).value.nestedTypes ∧
      (pass.apply scope common decl).value.nestedTypes ⊆ decl.nestedTypes ++
        common.nestedTypes := by
  cases pass with
  | inheritMissingMembers =>
    have : (Pass.inheritMissingMembers.apply scope common decl).value.nestedTypes =
        decl.nestedTypes := nestedTypes_graftItems
    rw [this]
    exact ⟨List.Subset.refl _, List.subset_append_left _ _⟩
  | inherit =>
    have : (Pass.inherit.apply scope common decl).value.nestedTypes =
        (graftTypes (graftItems decl common) common).nestedTypes :=
      congrArg (List.filterMap Member.type?) members_reparent
    rw [this, nestedTypes_graftTypes, nestedTypes_graftItems]
    refine ⟨List.subset_append_left _ _, List.append_subset.2 ⟨List.subset_append_left _ _, ?_⟩⟩
    exact fun t ht ↦ List.mem_append_right _ (List.mem_of_mem_filter ht)
  | overwriteClass => exact ⟨List.Subset.refl _, List.subset_append_left _ _⟩
  | overwrite => exact absurd rfl class_pass

/-- A visit makes no type deeper that was there. -/
theorem Pass.depth_of_mem_apply {pass : Pass} {scope : Scope} {common decl t : TypeDecl}
    (h : (pass.apply scope common decl).fault = none)
    (ht : t ∈ (pass.apply scope common decl).value.nestedTypes) :
    t.depth < decl.depth ∨ t.depth < common.depth := by
  by_cases class_pass : pass = .overwrite
  · subst class_pass
    obtain ⟨u, hu, e⟩ := type_mem_of_cleared (members_cleared h) (TypeDecl.mem_nestedTypes.1 ht)
    rw [← TypeDecl.depth_clearOverwrites t, e, TypeDecl.depth_clearOverwrites]
    exact .inl (TypeDecl.depth_lt_of_mem (TypeDecl.mem_nestedTypes.2 hu))
  · rcases List.mem_append.1 ((nestedTypes_apply class_pass).2 ht) with ht | ht
    · exact .inl (TypeDecl.depth_lt_of_mem ht)
    · exact .inr (TypeDecl.depth_lt_of_mem ht)

/-- Enough levels for a visit. Each step down the grafted types makes the name longer, and a
name longer than those of the common classes has no counterpart, so that grafting ends. -/
theorem Pass.suffices_visit {common : CommonClasses} (pass : Pass) {levels : Nat} {scope : Scope}
    {decl : TypeDecl} (depth : decl.depth ≤ levels)
    (room : common.depth + common.longestName + 1 < levels + scope.qualified.length) :
    Suffices (pass.visit common) levels scope decl := by
  induction levels generalizing scope decl with
  | zero =>
    have := decl.depth_pos
    omega
  | succ levels ih =>
    intro emit ok t ht
    have longer : scope.qualified.length + 1 ≤ (scope.nested t.name).qualified.length := by
      have : "$".length = 1 := rfl
      simp only [Scope.nested, nestedName, String.length_append]
      omega
    refine ih ?_ (by omega)
    rcases visit_cases ok with ⟨-, e⟩ | ⟨-, c, hc, applied, e⟩
    · have ht : t ∈ decl.nestedTypes := by rwa [e] at ht
      have := TypeDecl.depth_lt_of_mem ht
      omega
    · rw [e] at ht
      have := depth_le_of_find? hc
      have := length_le_of_find? hc
      rcases depth_of_mem_apply applied ht with ht | ht <;> omega

/-- A run of a pass goes to every type. -/
theorem Pass.suffices_run (common : CommonClasses) (pass : Pass) {model : SourceModel}
    {file : SourceFile} (hf : file ∈ model.files) {t : TypeDecl} (ht : t ∈ file.unit.types)
    (n : Nat) : Suffices (pass.visit common) (levels common model) (file.scope n t) t := by
  have := depth_le_of_mem hf ht
  have := t.depth_pos
  refine pass.suffices_visit ?_ ?_ <;> unfold levels <;> omega

end PlatformOverlay.Merge
