import PlatformOverlay.Proofs.Merge.Touched

/-!
# Which classes a merge records

A pass records a class that it treats when its visit comes there.  The overwriting pass takes the
marks in a class away together with those in nested types that it can pair with types of the common
class, so its visit finds nothing to treat in these: `ComesTo` follows the visit with the pairing
that is under way.  What one pass records (`mem_classes_visitDecl`, `Pass.mem_classes_run`) does not
depend on the passes before (`Overlaid.recordsIn_iff`), so a run records what its passes would
record of the platform as it was (`state_runPasses_iff`, `contains_run_iff`).

The invariant of the visit is `Finds`: in the place of a type it finds this type as it was or, if
the type has been paired from outside, what the pairing has left of it. With it the induction over
the visit goes as for any other pass, and `partner` says with what each type goes on.

For the passes that are named after a mark of classes there is no pairing, so these come to every
type (`comesTo_of_class_pass`), and a class with such a mark is always recorded.

## What is not claimed

Not every class that is rewritten is recorded. A nested class whose items overwrite something is
rewritten with the class around it if that overwrites something as well, and then only the latter is
recorded (`exists_class_not_recorded`). The file is touched in either case
(`PlatformOverlay.Proofs.Merge.Touched`).
-/

namespace PlatformOverlay.Merge

open Java Model

/-- The common type with which a pass has paired a type after its visit there: that with which it
was paired from outside, or its counterpart if the overwriting pass treats it. -/
def partner (common : CommonClasses) (pass : Pass) (pair : Option TypeDecl) (q : String)
    (d : TypeDecl) : Option TypeDecl :=
  pair <|> if pass = .overwrite ∧ pass.treats d then (common.find? q).map ClassRef.decl else none

/-- The visit of a pass to the type `d` comes to the type `e` in it, with the qualified name `r`,
and finds the marks of its items there.  They are gone if `e` has been paired with a common type
from outside; `pair` is the one with which `d` has. -/
inductive ComesTo (common : CommonClasses) (pass : Pass) :
    Option TypeDecl → String → TypeDecl → String → TypeDecl → Prop
  | here {q : String} {d : TypeDecl} : ComesTo common pass none q d q d
  | nested {pair : Option TypeDecl} {q r : String} {d t e : TypeDecl} : t ∈ d.nestedTypes →
      ComesTo common pass ((partner common pass pair q d).bind (·.nestedType? t.name))
        (nestedName q t.name) t r e →
      ComesTo common pass pair q d r e

/-- The pass comes to a type of the name `x` in `d` that it treats. -/
def Pass.RecordsIn (common : CommonClasses) (pass : Pass) (pair : Option TypeDecl) (q : String)
    (d : TypeDecl) (x : String) : Prop :=
  ∃ u, ComesTo common pass pair q d x u ∧ pass.treats u = true

section comesTo

variable {common : CommonClasses} {pass : Pass} {pair : Option TypeDecl} {q r x : String}
  {d e : TypeDecl}

/-- A visit only comes to types in the class it starts at. -/
theorem ComesTo.encloses (h : ComesTo common pass pair q d r e) : Encloses q d r e := by
  induction h with
  | here => exact .refl
  | nested ht _ ih => exact .nested ht ih

/-- Only overwriting goes on with the counterpart of an enclosing type. -/
theorem partner_of_class_pass (class_pass : pass ≠ .overwrite) :
    partner common pass pair q d = pair := by
  cases pair <;> simp [partner, class_pass]

/-- A pass other than the overwriting one comes to every type. -/
theorem comesTo_of_class_pass (class_pass : pass ≠ .overwrite) (h : Encloses q d r e) :
    ComesTo common pass none q d r e := by
  induction h with
  | refl => exact .here
  | nested ht _ ih =>
    refine .nested ht ?_
    rwa [partner_of_class_pass class_pass]

/-- What a pass records in a class: the class itself, if the pass treats it and not an enclosing
one, and what it records in the nested types. -/
theorem Pass.recordsIn_iff : pass.RecordsIn common pair q d x ↔
    (pair = none ∧ x = q ∧ pass.treats d = true) ∨ ∃ t ∈ d.nestedTypes,
      pass.RecordsIn common ((partner common pass pair q d).bind (·.nestedType? t.name))
        (nestedName q t.name) t x := by
  constructor
  · rintro ⟨u, hu, treats⟩
    cases hu with
    | here => exact .inl ⟨rfl, rfl, treats⟩
    | nested ht hu => exact .inr ⟨_, ht, u, hu, treats⟩
  · rintro (⟨rfl, rfl, treats⟩ | ⟨t, ht, u, hu, treats⟩)
    · exact ⟨d, .here, treats⟩
    · exact ⟨u, .nested ht hu, treats⟩

/-- Nothing is recorded in a class without marks. -/
theorem not_recordsIn_of_idle (idle : Idle q d) : ¬pass.RecordsIn common pair q d x := by
  rintro ⟨u, hu, treats⟩
  rw [idle _ u hu.encloses pass] at treats
  cases treats

end comesTo

/-! ## What a pass records -/

section visit

variable {common : SourceModel} {pass : Pass} {x : String}

/-- What a visit finds in the place of `d₀`: this type itself or, if it has been paired with a
common type, what the pairing has left of it. -/
def Finds (pass : Pass) (q : String) (d₀ d : TypeDecl) : Option TypeDecl → Prop
  | none => d = d₀
  | some c => pass = .overwrite ∧ (stripOverwrites q c d₀).fault = none ∧
      d = (stripOverwrites q c d₀).value

/-- What is recorded on the way through a type is what the pass records of the type that was
there in the beginning. -/
abbrev RecordsFound (common : SourceModel) (pass : Pass) (x : String) (scope : Scope)
    (emit : EmitSet) (d : TypeDecl) (emit' : EmitSet) (_ : TypeDecl) : Prop :=
  ∀ pair d₀, Finds pass scope.qualified d₀ d pair → (x ∈ emit'.classes ↔
    x ∈ emit.classes ∨ pass.RecordsIn (.ofModel common) pair scope.qualified d₀ x)

theorem exists_eq_type_iff {t : TypeDecl} {P : TypeDecl → Prop} :
    (∃ u, Member.type t = .type u ∧ P u) ↔ P t := by simp

/-- The way through the types in a type that the visit found as it was. -/
theorem mem_classes_members {scope : Scope} {emit emit' : EmitSet} {d : TypeDecl}
    {ms' : List Member}
    (visited : Threaded (MemberVisited (RecordsFound common pass x) scope) emit
      d.members emit' ms') :
    x ∈ emit'.classes ↔ x ∈ emit.classes ∨ ∃ t ∈ d.nestedTypes,
      pass.RecordsIn (.ofModel common) none (nestedName scope.qualified t.name) t x := by
  rw [visited.state_iff (K := fun emit ↦ x ∈ emit.classes) (P := fun m ↦ ∃ t, m = .type t ∧
    pass.RecordsIn (.ofModel common) none (nestedName scope.qualified t.name) t x)
    fun _ m _ _ _ h ↦ by
      cases h with
      | item => simp
      | type h =>
        rw [exists_eq_type_iff]
        exact h none _ rfl]
  refine or_congr_right ⟨?_, ?_⟩
  · rintro ⟨_, hm, t, rfl, h⟩
    exact ⟨t, TypeDecl.mem_nestedTypes.2 hm, h⟩
  · rintro ⟨t, ht, h⟩
    exact ⟨_, TypeDecl.mem_nestedTypes.1 ht, t, rfl, h⟩

/-- In the types that a pass other than the overwriting one adds there is nothing to record. -/
theorem recordsIn_apply (unmarked : common.Unmarked) (class_pass : pass ≠ .overwrite)
    {scope : Scope}
    {d : TypeDecl} {c : ClassRef}
    (hc : (CommonClasses.ofModel common).find? scope.qualified = some c) :
    (∃ t ∈ (pass.apply scope c.decl d).value.nestedTypes,
        pass.RecordsIn (.ofModel common) none (nestedName scope.qualified t.name) t x) ↔
      ∃ t ∈ d.nestedTypes,
        pass.RecordsIn (.ofModel common) none (nestedName scope.qualified t.name) t x := by
  obtain ⟨kept, either⟩ : d.nestedTypes ⊆ (pass.apply scope c.decl d).value.nestedTypes ∧
      (pass.apply scope c.decl d).value.nestedTypes ⊆ d.nestedTypes ++ c.decl.nestedTypes :=
    Pass.nestedTypes_apply class_pass
  constructor
  · rintro ⟨t, ht, records⟩
    rcases List.mem_append.1 (either ht) with ht | ht
    · exact ⟨t, ht, records⟩
    · exact absurd records (not_recordsIn_of_idle ((idle_of_find? unmarked hc).nested ht))
  · rintro ⟨t, ht, records⟩
    exact ⟨t, kept ht, records⟩

/-- Members that are stripped without a fault are stripped one by one. -/
theorem value_stripMembers {q : String} {c : TypeDecl} {ms : List Member}
    (ok : (stripMembers q c ms).fault = none) :
    (stripMembers q c ms).value = ms.map (fun m ↦ (stripMember q c m).value) ∧
      ∀ m ∈ ms, (stripMember q c m).fault = none := by
  rw [stripMembers_eq_visitList] at ok ⊢
  have stripped := forall₂_visitList (R := fun m m' ↦ (stripMember q c m).value = m') ok
    fun m _ _ _ ↦ rfl
  rw [← List.forall₂_map_left_iff, List.forall₂_eq_eq_eq] at stripped
  refine ⟨stripped.symm, fun m hm ↦ ?_⟩
  obtain ⟨-, h⟩ := exists_ok_of_visitList ok hm
  exact h

/-- The way through the members of a type that has been paired with `c`. -/
theorem mem_classes_stripped {scope : Scope} {emit emit' : EmitSet} {c d₀ : TypeDecl}
    {ms' : List Member} (ok : (stripOverwrites scope.qualified c d₀).fault = none)
    (visited : Threaded (MemberVisited (RecordsFound common .overwrite x) scope) emit
      (stripOverwrites scope.qualified c d₀).value.members emit' ms') :
    x ∈ emit'.classes ↔ x ∈ emit.classes ∨ ∃ t ∈ d₀.nestedTypes,
      Pass.overwrite.RecordsIn (.ofModel common) (c.nestedType? t.name)
        (nestedName scope.qualified t.name) t x := by
  obtain ⟨value, each⟩ := value_stripMembers (fault_stripOverwrites.1 ok).2
  rw [value_stripOverwrites ok, value] at visited
  rw [visited.of_map.state_iff (K := fun emit ↦ x ∈ emit.classes) (P := fun m ↦ ∃ t, m = .type t ∧
    Pass.overwrite.RecordsIn (.ofModel common) (c.nestedType? t.name)
      (nestedName scope.qualified t.name) t x) fun _ m _ _ hm h ↦ by
      cases m with
      | item i =>
        cases h
        simp
      | type t =>
        have stripped := each _ hm
        rw [stripMember] at h stripped
        cases hc : c.nestedType? t.name with
        | none =>
          rw [hc] at h
          obtain _ | h := h
          rw [exists_eq_type_iff, hc]
          exact h none t rfl
        | some inner =>
          rw [hc] at h stripped
          obtain _ | h := h
          rw [exists_eq_type_iff, hc]
          rw [name_stripOverwrites stripped] at h
          exact h (some inner) t ⟨rfl, stripped, rfl⟩]
  refine or_congr_right ⟨?_, ?_⟩
  · rintro ⟨_, hm, t, rfl, h⟩
    exact ⟨t, TypeDecl.mem_nestedTypes.2 hm, h⟩
  · rintro ⟨t, ht, h⟩
    exact ⟨_, TypeDecl.mem_nestedTypes.1 ht, t, rfl, h⟩

/-- A visit records what its pass records in the type that was there in the beginning. -/
theorem mem_classes_visitDecl (unmarked : common.Unmarked) {levels : Nat} {scope : Scope}
    {emit : EmitSet} {d : TypeDecl}
    (enough : Suffices (pass.visit (.ofModel common)) levels scope d)
    (ok : (visitDecl (pass.visit (.ofModel common)) levels scope emit d).fault = none) :
    x ∈ (visitDecl (pass.visit (.ofModel common)) levels scope emit d).state.classes ↔
      x ∈ emit.classes ∨ pass.RecordsIn (.ofModel common) none scope.qualified d x := by
  refine visitDecl_induction (motive := RecordsFound common pass x)
    (fun scope emit d ok emit' members visited pair d₀ found ↦ ?_) enough ok none d rfl
  rw [Pass.recordsIn_iff]
  cases pair with
  | some c =>
    -- The marks have been taken from outside, so that the visit does nothing here itself.
    obtain ⟨rfl, stripped, rfl⟩ := found
    rcases Pass.visit_cases ok with ⟨-, e⟩ | ⟨treated, -⟩
    · rw [e] at visited
      rw [mem_classes_stripped stripped visited]
      simp [partner]
    · rw [not_treats_stripped stripped] at treated
      cases treated
  | none =>
    obtain rfl : d = d₀ := found
    rcases Pass.visit_cases ok with ⟨untreated, e⟩ | ⟨treated, c, hc, applied, e⟩
    · rw [e] at visited
      rw [mem_classes_members visited]
      simp [partner, untreated]
    · rw [e] at visited
      by_cases class_pass : pass = .overwrite
      · subst class_pass
        rw [mem_classes_stripped applied visited]
        simp [partner, treated, hc, EmitSet.record, or_assoc]
      · rw [mem_classes_members visited, recordsIn_apply unmarked class_pass hc]
        simp [partner_of_class_pass class_pass, treated, EmitSet.record, or_assoc]

/-- A pass records the classes that it records in each of the types of the model. -/
theorem Pass.mem_classes_run (unmarked : common.Unmarked) {emit : EmitSet} {model : SourceModel}
    (ok : (pass.run (.ofModel common) emit model).fault = none) :
    x ∈ (pass.run (.ofModel common) emit model).state.classes ↔ x ∈ emit.classes ∨
      ∃ file ∈ model.files, ∃ t ∈ file.unit.types,
        pass.RecordsIn (.ofModel common) none (qualify file.package t.name) t x := by
  rw [run_eq] at ok ⊢
  refine state_visitList_iff (K := fun emit ↦ x ∈ emit.classes) ok fun file _ emit ok ↦ ?_
  refine state_visitList_iff (K := fun emit ↦ x ∈ emit.classes) ok fun t ht emit ok ↦ ?_
  exact mem_classes_visitDecl unmarked
    (pass.suffices_run (.ofModel common) (List.mem_singleton.2 rfl) ht 0) ok

end visit

/-! ## What is recorded after other passes -/

section overlaid

variable {common : SourceModel} {passes : List Pass} {pass : Pass} {pair : Option TypeDecl}
  {q x : String} {d e : TypeDecl}

/-- What a pass to come treats, it would have treated at the start. -/
theorem Overlaid.treats_of_new (h : Overlaid (.ofModel common) passes q d e)
    (unmarked : common.Unmarked) (new : pass ∉ passes) : pass.treats e = pass.treats d := by
  by_cases class_pass : pass = .overwrite
  · subst class_pass
    exact Bool.eq_iff_iff.2 ⟨h.treats_of_treats unmarked, h.treats_overlaid new new⟩
  · exact h.treats class_pass new

/-- What the types in an overlaid type are like: as those in the type itself, or idle. -/
theorem Overlaid.exists_nestedType_iff (h : Overlaid (.ofModel common) passes q d e)
    (unmarked : common.Unmarked) {P : String → TypeDecl → Prop} (idle : ∀ r t, Idle r t → ¬P r t)
    (inside : ∀ t' ∈ e.nestedTypes, ∀ t, Overlaid (.ofModel common) passes
      (nestedName q t.name) t t' →
      (P (nestedName q t.name) t' ↔ P (nestedName q t.name) t)) :
    (∃ t' ∈ e.nestedTypes, P (nestedName q t'.name) t') ↔
      ∃ t ∈ d.nestedTypes, P (nestedName q t.name) t := by
  constructor
  · rintro ⟨t', ht', holds⟩
    rcases h.cases_nestedType ht' with ⟨t, ht, h'⟩ | hg
    · rw [h'.name] at holds
      exact ⟨t, ht, (inside t' ht' t h').1 holds⟩
    · obtain ⟨c, hc, htc⟩ := (hg.added unmarked).exists_type
      exact absurd holds (idle _ _ ((idle_of_find? unmarked hc).nested htc))
  · rintro ⟨t, ht, holds⟩
    obtain ⟨t', ht', h'⟩ := h.exists_nestedType ht
    refine ⟨t', ht', ?_⟩
    rw [h'.name]
    exact (inside t' ht' t h').2 holds

/-- A pass to come records in an overlaid type what it would have recorded in the type itself. -/
theorem Overlaid.recordsIn_iff (h : Overlaid (.ofModel common) passes q d e)
    (unmarked : common.Unmarked) (new : pass ∉ passes) :
    pass.RecordsIn (.ofModel common) pair q e x ↔ pass.RecordsIn (.ofModel common) pair q d x := by
  induction e using TypeDecl.nestingInduction generalizing pair q d with
  | step e ih =>
    have partners :
        partner (.ofModel common) pass pair q e = partner (.ofModel common) pass pair q d := by
      rw [partner, partner, h.treats_of_new unmarked new]
    rw [Pass.recordsIn_iff, Pass.recordsIn_iff, h.treats_of_new unmarked new, partners]
    refine or_congr_right (h.exists_nestedType_iff unmarked
      (P := fun r t ↦ pass.RecordsIn (.ofModel common)
        ((partner (.ofModel common) pass pair q d).bind (·.nestedType? t.name)) r t x)
      (fun _ _ idle ↦ not_recordsIn_of_idle idle) fun t' ht' t h' ↦ ?_)
    rw [h'.name]
    exact ih t' ht' h'

/-- And it treats a type in it if it would have treated one in the type itself. -/
theorem Overlaid.treatsWithin_iff (h : Overlaid (.ofModel common) passes q d e)
    (unmarked : common.Unmarked) (new : pass ∉ passes) :
    pass.TreatsWithin q e ↔ pass.TreatsWithin q d := by
  induction e using TypeDecl.nestingInduction generalizing q d with
  | step e ih =>
    rw [Pass.treatsWithin_iff, Pass.treatsWithin_iff, h.treats_of_new unmarked new]
    refine or_congr_right (h.exists_nestedType_iff unmarked (P := pass.TreatsWithin)
      (fun r t idle ⟨s, u, hu, treats⟩ ↦ ?_) fun t' ht' t h' ↦ ih t' ht' h')
    rw [idle s u hu pass] at treats
    cases treats

end overlaid

/-! ## What a run records -/

/-- If what a pass records is not affected by the passes before it, then a run of several passes
records what they would have recorded of the platform as it was. -/
theorem state_runPasses_iff {common : CommonClasses} {K : EmitSet → Prop}
    {P : Pass → String → TypeDecl → Prop}
    (run : ∀ (pass : Pass) emit m, (pass.run common emit m).fault = none →
      (K (pass.run common emit m).state ↔ K emit ∨ ∃ file ∈ m.files, ∃ t ∈ file.unit.types,
        P pass (qualify file.package t.name) t))
    (kept : ∀ passes pass q d e, Overlaid common passes q d e → pass ∉ passes →
      (P pass q e ↔ P pass q d))
    {platform : SourceModel} {passes : List Pass} (nodup : passes.Nodup) {emit : EmitSet}
    (ok : (runPasses common passes ⟨platform, emit, none⟩).fault = none) :
    K (runPasses common passes ⟨platform, emit, none⟩).state ↔ K emit ∨ ∃ pass ∈ passes,
      ∃ file ∈ platform.files, ∃ t ∈ file.unit.types, P pass (qualify file.package t.name) t := by
  refine And.right (runPasses_induction
    (motive := fun before state m ↦ platform.Corresponds (Overlaid common before) m ∧
      (K state ↔ K emit ∨ ∃ pass ∈ before, ∃ file ∈ platform.files, ∃ t ∈ file.unit.types,
        P pass (qualify file.package t.name) t))
    ?_ ⟨.of_self .refl, by simp⟩ ok)
  rintro before pass state m behind ⟨h, recorded⟩ first
  have new : pass ∉ before := not_mem_of_prefix_concat nodup behind
  have original :
      (∃ file ∈ m.files, ∃ t ∈ file.unit.types, P pass (qualify file.package t.name) t) ↔
        ∃ file ∈ platform.files, ∃ t ∈ file.unit.types, P pass (qualify file.package t.name) t := by
    constructor
    · rintro ⟨file', hf', t', ht', holds⟩
      obtain ⟨file, hf, eq, types⟩ := exists_of_forall₂ h hf'
      obtain ⟨t, ht, h'⟩ := exists_of_forall₂ types ht'
      have package : file'.package = file.package := by rw [eq]; rfl
      rw [package, h'.name] at holds
      exact ⟨file, hf, t, ht, (kept _ _ _ _ _ h' new).1 holds⟩
    · rintro ⟨file, hf, t, ht, holds⟩
      obtain ⟨file', hf', package, t', ht', h'⟩ := exists_of_corresponds h hf ht
      refine ⟨file', hf', t', ht', ?_⟩
      rw [package, h'.name]
      exact (kept _ _ _ _ _ h' new).2 holds
  refine ⟨overlaid_run new h first, ?_⟩
  rw [run pass state m first, recorded, original]
  simp only [List.mem_append, List.mem_singleton, or_and_right, exists_or, exists_eq_left, or_assoc]

section recorded

variable {common platform : SourceModel}

/-- A class mark is there when a pass other than overwriting treats the class. -/
theorem hasClassMark_iff {d : TypeDecl} : Mark.ofClass.any d.hasMark = true ↔
    ∃ pass : Pass, pass ≠ .overwrite ∧ pass.treats d = true := by
  rw [List.any_eq_true]
  constructor
  · rintro ⟨mark, hm, marked⟩
    rcases List.mem_cons.1 hm with rfl | hm
    · exact ⟨.inheritMissingMembers, by decide, marked⟩
    rcases List.mem_cons.1 hm with rfl | hm
    · exact ⟨.inherit, by decide, marked⟩
    · obtain rfl := List.mem_singleton.1 hm
      exact ⟨.overwriteClass, by decide, marked⟩
  · rintro ⟨_ | _ | _ | _, class_pass, treats⟩
    · exact ⟨.inheritMissingMembers, by decide, treats⟩
    · exact ⟨.inherit, by decide, treats⟩
    · exact ⟨.overwriteClass, by decide, treats⟩
    · exact absurd rfl class_pass

/-- A run records the classes with a class mark, and those with an overwriting item of which the
mark is still there when the overwriting pass comes to them. -/
theorem contains_run_iff (unmarked : common.Unmarked)
    (ok : (run (.ofModel common) platform).fault = none) (q : String) :
    (run (.ofModel common) platform).state.contains q = true ↔
      ∃ file ∈ platform.files, ∃ t ∈ file.unit.types, ∃ u,
        (Encloses (qualify file.package t.name) t q u ∧ Mark.ofClass.any u.hasMark = true) ∨
        (ComesTo (.ofModel common) .overwrite none (qualify file.package t.name) t q u ∧
          u.anyItemMarked .overwrite = true) := by
  have recorded := state_runPasses_iff (K := fun emit ↦ q ∈ emit.classes)
    (P := fun pass r d ↦ pass.RecordsIn (.ofModel common) none r d q)
    (fun _ _ _ ok ↦ Pass.mem_classes_run unmarked ok)
    (fun _ _ _ _ _ h new ↦ h.recordsIn_iff unmarked new) (by decide) ok
  rw [EmitSet.contains, List.contains_iff_mem]
  refine recorded.trans ((or_iff_right List.not_mem_nil).trans ⟨?_, ?_⟩)
  · rintro ⟨pass, -, file, hf, t, ht, u, hu, treats⟩
    refine ⟨file, hf, t, ht, u, ?_⟩
    by_cases class_pass : pass = .overwrite
    · subst class_pass
      exact .inr ⟨hu, treats⟩
    · exact .inl ⟨hu.encloses, hasClassMark_iff.2 ⟨pass, class_pass, treats⟩⟩
  · have each : ∀ pass : Pass, pass ∈ Pass.all := by
      intro pass
      cases pass <;> decide
    rintro ⟨file, hf, t, ht, u, ⟨hu, marked⟩ | ⟨hu, marked⟩⟩
    · obtain ⟨pass, class_pass, treats⟩ := hasClassMark_iff.1 marked
      exact ⟨pass, each pass, file, hf, t, ht, u, comesTo_of_class_pass class_pass hu, treats⟩
    · exact ⟨.overwrite, each _, file, hf, t, ht, u, hu, marked⟩

/-- A class with a field. -/
def innerClass (annotations : List Annotation) (type : String) : TypeDecl :=
  { TypeDecl.bare .classType "N" with members := [.item (fieldOf annotations type "y")] }

/-- A class with a field, and in it another such class. -/
def outerClass (annotations : List Annotation) (type : String) : TypeDecl :=
  { TypeDecl.bare .classType "C" with
    members := [.item (fieldOf annotations type "x"), .type (innerClass annotations type)] }

/-- An instance at a nested class that overwrites a field. -/
theorem contains_run_iff_nested :
    (run (.ofModel (.ofType (outerClass [] "int")))
        (.ofType (outerClass [⟨"Overwrite", none⟩] "long"))).state.contains "C$N" = true ↔
      ∃ file ∈ (SourceModel.ofType (outerClass [⟨"Overwrite", none⟩] "long")).files,
        ∃ t ∈ file.unit.types, ∃ u,
          (Encloses (qualify file.package t.name) t "C$N" u ∧ Mark.ofClass.any u.hasMark = true) ∨
          (ComesTo (.ofModel (.ofType (outerClass [] "int"))) .overwrite none
              (qualify file.package t.name) t "C$N" u ∧ u.anyItemMarked .overwrite = true) :=
  contains_run_iff (by decide +kernel) (by decide +kernel) "C$N"

/-- The nested class is rewritten with the class around it and not recorded. -/
theorem exists_class_not_recorded :
    (SourceModel.ofType (outerClass [] "int")).DistinctNames ∧
      (SourceModel.ofType (outerClass [] "int")).Unmarked ∧
      (run (.ofModel (.ofType (outerClass [] "int")))
        (.ofType (outerClass [⟨"Overwrite", none⟩] "long"))).fault = none ∧
      (∃ d, (SourceModel.ofType (outerClass [⟨"Overwrite", none⟩] "long")).Declares none "C$N" d ∧
        d.anyItemMarked .overwrite = true) ∧
      (run (.ofModel (.ofType (outerClass [] "int")))
        (.ofType (outerClass [⟨"Overwrite", none⟩] "long"))).state.contains "C$N" = false := by
  refine ⟨by decide +kernel, by decide +kernel, by decide +kernel, ?_, by decide +kernel⟩
  have inside : Encloses "C" (outerClass [⟨"Overwrite", none⟩] "long") (nestedName "C" "N")
      (innerClass [⟨"Overwrite", none⟩] "long") :=
    .of_mem (t := innerClass [⟨"Overwrite", none⟩] "long") (List.mem_singleton.2 rfl)
  have name : nestedName "C" "N" = "C$N" := by decide
  rw [name] at inside
  exact ⟨_, ⟨_, List.mem_singleton.2 rfl, rfl, _, List.mem_singleton.2 rfl, inside⟩, by decide⟩

end recorded

end PlatformOverlay.Merge
