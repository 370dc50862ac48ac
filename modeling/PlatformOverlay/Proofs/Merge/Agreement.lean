import PlatformOverlay.Proofs.Merge.Preservation

/-!
# Verification agrees with merging

Verification looks at every class of the platform once and by its qualified name; a merge goes pass
by pass over types that the passes before have changed. That both accept the same models is proved
through what they have in common: `Pass.Accepts` is what one pass needs to treat one class, and
`Ready` asks it of all passes and of all classes in a type.

Verification is `Ready`, class by class (`verify_eq_ok`). For merging there are two directions.

* A type that is ready is merged without a fault: passes leave ready types ready (`Overlaid.ready`),
  and a pass has no fault on them (`fault_visit_of_ready`).
* A merge without a fault has met ready types only: a pass without a fault accepts every type in
  what it visits (`accepts_of_visit`), and what it accepts in the place of a platform class tells
  the same about that class (`Overlaid.accepts`).

The overwriting pass is the odd one in both. It strips a class together with the nested types that
it can pair, so most of these are checked by `stripOverwrites` and no longer by the visit
(`accepts_or_enclosed_of_strip`).

Whichever of the two fails, the fault is a class without a counterpart or an item without a target,
and it names it (`NamesMissing`). The two need not name the same one: verification goes class by
class, a merge pass by pass.
-/

namespace PlatformOverlay

namespace Java.TypeDecl

open Merge

/-- A marked type is one that some pass treats. -/
theorem isMarked_iff {d : TypeDecl} : d.isMarked = true ↔ ∃ pass : Pass, pass.treats d = true := by
  rw [isMarked, Bool.or_eq_true, List.any_eq_true]
  constructor
  · rintro (⟨mark, hm, marked⟩ | marked)
    · rcases List.mem_cons.1 hm with rfl | hm
      · exact ⟨.inheritMissingMembers, marked⟩
      rcases List.mem_cons.1 hm with rfl | hm
      · exact ⟨.inherit, marked⟩
      · obtain rfl := List.mem_singleton.1 hm
        exact ⟨.overwriteClass, marked⟩
    · exact ⟨.overwrite, marked⟩
  · rintro ⟨_ | _ | _ | _, treats⟩
    · exact .inl ⟨.inheritMissingMembers, by decide, treats⟩
    · exact .inl ⟨.inherit, by decide, treats⟩
    · exact .inl ⟨.overwriteClass, by decide, treats⟩
    · exact .inr treats

/-- Which items a class declares does not depend on annotations. -/
theorem declares_congr {decl owner owner' : TypeDecl} {i i' : Item} (hi : i.content = i'.content)
    (ho : owner.components = owner'.components) :
    decl.declares owner i = decl.declares owner' i' := by
  rw [declares, declares, counterpart?, counterpart?, Item.signature?_congr hi ho]

end Java.TypeDecl

namespace Merge

open Java Model

/-- Overwriting goes through when the common class declares every item that is marked for it. -/
theorem overwriteError?_eq_none {q : String} {platform common : TypeDecl} :
    overwriteError? q platform common = none ↔
      ∀ i ∈ platform.items, i.hasMark .overwrite = true → common.declares platform i = true := by
  rw [overwriteError?, Option.map_eq_none_iff, List.find?_eq_none]
  simp

/-! ## What is asked of a class -/

/-- The pass finds what it needs to treat the class: the counterpart, and in it the targets
of overwriting items. -/
def Pass.Accepts (common : CommonClasses) (pass : Pass) (q : String) (d : TypeDecl) : Prop :=
  pass.treats d = true → ∃ c, common.find? q = some c ∧
    (pass = .overwrite → overwriteError? q d c.decl = none)

/-- Every pass finds what it needs for the class and for those in it. -/
def Ready (common : CommonClasses) (q : String) (d : TypeDecl) : Prop :=
  ∀ pass r t, Encloses q d r t → Pass.Accepts common pass r t

theorem Ready.nested {common : CommonClasses} {q : String} {d t : TypeDecl} (h : Ready common q d)
    (ht : t ∈ d.nestedTypes) : Ready common (nestedName q t.name) t :=
  fun pass r u hu ↦ h pass r u (.nested ht hu)

/-- A class without overwriting items asks nothing of its counterpart. -/
theorem overwriteError?_of_not_treats {q : String} {d c : TypeDecl}
    (h : Pass.overwrite.treats d = false) : overwriteError? q d c = none := by
  rw [overwriteError?_eq_none]
  intro i hi marked
  rw [Pass.treats, TypeDecl.anyItemMarked, List.any_eq_false] at h
  exact absurd marked (h i hi)

/-- The check of a class passes when every pass accepts it. -/
theorem verifyClass_eq_none {common : CommonClasses} {c : ClassRef} :
    verifyClass common c = none ↔ ∀ pass : Pass, pass.Accepts common c.qualified c.decl := by
  unfold verifyClass
  constructor
  · intro h pass treats
    rw [if_pos (TypeDecl.isMarked_iff.2 ⟨pass, treats⟩)] at h
    cases ht : counterpart common c.qualified with
    | error e =>
      rw [ht] at h
      cases h
    | ok target =>
      rw [ht] at h
      exact ⟨target, counterpart_eq_ok.1 ht, fun _ ↦ h⟩
  · intro h
    split
    next marked =>
      obtain ⟨pass, treats⟩ := TypeDecl.isMarked_iff.1 marked
      obtain ⟨target, ht, -⟩ := h pass treats
      rw [counterpart_eq_ok.2 ht]
      simp only
      cases treated : Pass.overwrite.treats c.decl with
      | false => exact overwriteError?_of_not_treats treated
      | true =>
        obtain ⟨target', ht', ok⟩ := h .overwrite treated
        obtain rfl := Option.some.inj (ht.symm.trans ht')
        exact ok rfl
    next => rfl

/-- The check of a model passes when all of its types are ready, at any depth. -/
theorem verify_eq_ok {common : CommonClasses} {model : SourceModel} :
    verify common model = .ok () ↔ ∀ file ∈ model.files, ∀ t ∈ file.unit.types,
      Ready common (qualify file.package t.name) t := by
  have all : verify common model = .ok () ↔ ∀ c ∈ model.classes, verifyClass common c = none := by
    rw [verify, ← List.findSome?_eq_none_iff]
    split <;> simp_all
  rw [all]
  constructor
  · intro h file hf t ht pass r u hu
    obtain ⟨c, hc, -, rfl, rfl⟩ := SourceModel.Declares.exists_mem ⟨file, hf, rfl, t, ht, hu⟩
    exact verifyClass_eq_none.1 (h c hc) pass
  · intro h c hc
    obtain ⟨file, hf, hp, t, ht, he⟩ := SourceModel.declares_of_mem hc
    rw [← hp] at he
    exact verifyClass_eq_none.2 fun pass ↦ h file hf t ht pass _ _ he

/-! ## Passes leave ready types ready -/

section ready

variable {common : SourceModel} {passes : List Pass} {q : String} {d e : TypeDecl}

theorem hasMark_of_clearItem {i : Item} {mark : Mark}
    (h : (clearItem passes i).hasMark mark = true) : i.hasMark mark = true := by
  unfold clearItem at h
  split at h
  · obtain ⟨a, ha, on⟩ := List.any_eq_true.1 h
    exact List.any_eq_true.2 ⟨a, List.mem_of_mem_filter ha, on⟩
  · exact h

/-- An overwriting item is one of the platform. -/
theorem Overlaid.cases_overwriting (h : Overlaid (.ofModel common) passes q d e)
    (unmarked : common.Unmarked) {j : Item} (hj : j ∈ e.items)
    (marked : j.hasMark .overwrite = true) :
    ∃ i ∈ d.items, i.hasMark .overwrite = true ∧ j.content = i.content := by
  rcases h.cases_item hj with ⟨i, hi, rfl⟩ | hg
  · exact ⟨i, hi, hasMark_of_clearItem marked, content_clearItem passes i⟩
  · obtain ⟨c, hc, i, hi, annotations⟩ := (hg.added unmarked).exists_item
    have := (CommonClasses.unmarked_of_find? unmarked hc .refl .overwrite (by decide)).2
    rw [TypeDecl.anyItemMarked, List.any_eq_false] at this
    rw [Item.hasMark, annotations] at marked
    exact absurd marked (this i hi)

/-- What is treated after some passes was to be treated at the start: grafts bring no marks. -/
theorem Overlaid.treats_of_treats (h : Overlaid (.ofModel common) passes q d e)
    (unmarked : common.Unmarked) {pass : Pass} (treats : pass.treats e = true) :
    pass.treats d = true := by
  have kept {mark : Mark} (hm : e.hasMark mark = true) : d.hasMark mark = true := by
    rw [TypeDecl.hasMark, h.annotations] at hm
    obtain ⟨a, ha, on⟩ := List.any_eq_true.1 hm
    exact List.any_eq_true.2 ⟨a, List.mem_of_mem_filter ha, on⟩
  cases pass with
  | inheritMissingMembers => exact kept treats
  | inherit => exact kept treats
  | overwriteClass => exact kept treats
  | overwrite =>
    obtain ⟨j, hj, marked⟩ := List.any_eq_true.1 treats
    obtain ⟨i, hi, marked, -⟩ := h.cases_overwriting unmarked hj marked
    exact List.any_eq_true.2 ⟨i, hi, marked⟩

/-- Passes leave a class ready that was ready. -/
theorem Overlaid.ready (h : Overlaid (.ofModel common) passes q d e) (unmarked : common.Unmarked)
    (ready : Ready (.ofModel common) q d) : Ready (.ofModel common) q e := by
  induction e using TypeDecl.nestingInduction generalizing q d with
  | step e ih =>
    intro pass r u hu treats
    cases hu with
    | refl =>
      obtain ⟨c, hc, ok⟩ := ready pass q d .refl (h.treats_of_treats unmarked treats)
      refine ⟨c, hc, fun hp ↦ ?_⟩
      rw [overwriteError?_eq_none]
      intro j hj marked
      obtain ⟨i, hi, marked, content⟩ := h.cases_overwriting unmarked hj marked
      rw [TypeDecl.declares_congr content h.components]
      exact overwriteError?_eq_none.1 (ok hp) i hi marked
    | @nested _ _ _ t' _ ht hu =>
      rcases h.cases_nestedType ht with ⟨t, hd, h'⟩ | hg
      · rw [h'.name] at hu
        exact ih t' ht h' (ready.nested hd) pass r u hu treats
      · obtain ⟨c, hc, htc⟩ := (hg.added unmarked).exists_type
        rw [idle_of_find? unmarked hc r u (.nested htc hu) pass] at treats
        cases treats

end ready

/-! ## Passes have no fault on ready types -/

section fault

variable {common : SourceModel} {q : String} {d : TypeDecl}

/-- The counterpart of a nested type is nested in the counterpart, which the overwriting pass
relies on when it goes down. -/
theorem find?_of_nestedType? (distinct : common.DistinctNames) {c : ClassRef}
    (hc : (CommonClasses.ofModel common).find? q = some c) {name : String} {inner : TypeDecl}
    (hi : c.decl.nestedType? name = some inner) :
    ∃ c', (CommonClasses.ofModel common).find? (nestedName q name) = some c' ∧ c'.decl = inner := by
  have hn : inner.name = name := by simpa using List.find?_some hi
  obtain ⟨c', hc', -, hd⟩ :=
    CommonClasses.find?_of_encloses distinct hc (.of_mem (List.mem_of_find?_eq_some hi))
  exact ⟨c', hn ▸ hc', hd⟩

/-- A class that is ready is stripped without a fault, all the way down. -/
theorem fault_strip_of_ready (distinct : common.DistinctNames) {c : ClassRef}
    (hc : (CommonClasses.ofModel common).find? q = some c) (ready : Ready (.ofModel common) q d) :
    (stripOverwrites q c.decl d).fault = none := by
  induction d using TypeDecl.nestingInduction generalizing q c with
  | step d ih =>
    refine fault_stripOverwrites.2 ⟨?_, ?_⟩
    · cases treated : Pass.overwrite.treats d with
      | false => exact overwriteError?_of_not_treats treated
      | true =>
        obtain ⟨c', hc', ok⟩ := ready .overwrite q d .refl treated
        obtain rfl := Option.some.inj (hc.symm.trans hc')
        exact ok rfl
    · rw [stripMembers_eq_visitList]
      refine fault_visitList fun m hm _ ↦ ?_
      cases m with
      | item i => rfl
      | type t =>
        have mem := TypeDecl.mem_nestedTypes.2 hm
        unfold stripMember
        split
        next inner hi =>
          obtain ⟨c', hc', rfl⟩ := find?_of_nestedType? distinct hc hi
          exact ih t mem hc' (ready.nested mem)
        next => rfl

/-- A nested type of the stripped class has been left alone or stripped itself. -/
theorem nestedTypes_stripped {c t' : TypeDecl} (ok : (stripOverwrites q c d).fault = none)
    (ht : t' ∈ (stripOverwrites q c d).value.nestedTypes) :
    t' ∈ d.nestedTypes ∨ ∃ t ∈ d.nestedTypes, ∃ inner,
      (stripOverwrites (nestedName q t.name) inner t).fault = none ∧
      t' = (stripOverwrites (nestedName q t.name) inner t).value := by
  obtain ⟨m, hm, h⟩ := exists_of_forall₂ (members_stripped ok) (TypeDecl.mem_nestedTypes.1 ht)
  cases h with
  | kept => exact .inl (TypeDecl.mem_nestedTypes.2 hm)
  | stripped _ hf => exact .inr ⟨_, TypeDecl.mem_nestedTypes.2 hm, _, hf, rfl⟩

/-- After stripping, nothing is left to overwrite in the class itself. -/
theorem not_treats_stripped {c : TypeDecl} (ok : (stripOverwrites q c d).fault = none) :
    Pass.overwrite.treats (stripOverwrites q c d).value = false := by
  rw [Pass.treats, TypeDecl.anyItemMarked, List.any_eq_false]
  intro i hi
  obtain ⟨m, -, h⟩ := exists_of_forall₂ (members_stripped ok) (TypeDecl.mem_items.1 hi)
  cases h
  simp [Item.hasMark, Item.removeMark]

/-- Stripping keeps the name, with which the scopes of the nested types are built. -/
theorem name_stripOverwrites {c : TypeDecl} (ok : (stripOverwrites q c d).fault = none) :
    (stripOverwrites q c d).value.name = d.name := by
  rw [value_stripOverwrites ok]

theorem ready_strip {common : CommonClasses} {c : TypeDecl} (ready : Ready common q d)
    (ok : (stripOverwrites q c d).fault = none) : Ready common q (stripOverwrites q c d).value := by
  induction d using TypeDecl.nestingInduction generalizing q c with
  | step d ih =>
    intro pass r u hu treats
    cases hu with
    | refl =>
      have class_pass : pass ≠ .overwrite := by
        rintro rfl
        rw [not_treats_stripped ok] at treats
        cases treats
      have before : pass.treats d = true := by
        rw [value_stripOverwrites ok] at treats
        cases pass <;> first | exact treats | exact absurd rfl class_pass
      obtain ⟨c', hc', -⟩ := ready pass q d .refl before
      exact ⟨c', hc', fun h ↦ absurd h class_pass⟩
    | nested ht hu =>
      rcases nestedTypes_stripped ok ht with kept | ⟨t, mem, inner, hf, rfl⟩
      · exact ready.nested kept pass r u hu treats
      · rw [name_stripOverwrites hf] at hu
        exact ih t mem (ready.nested mem) hf pass r u hu treats

/-- A pass visits a class that is ready without a fault. By induction on the levels: the class
as treated is ready again, so its nested types are. -/
theorem fault_visit_of_ready (distinct : common.DistinctNames) (unmarked : common.Unmarked)
    {pass : Pass} {levels : Nat} {scope : Scope} {emit : EmitSet}
    (ready : Ready (.ofModel common) scope.qualified d) :
    (visitDecl (pass.visit (.ofModel common)) levels scope emit d).fault = none := by
  refine fault_visitDecl (motive := fun scope d ↦ Ready (.ofModel common) scope.qualified d)
    (fun scope emit d ready ↦ ?_) ready
  have ok : (pass.visit (.ofModel common) scope emit d).fault = none := by
    cases hf : (pass.visit (.ofModel common) scope emit d).fault with
    | none => rfl
    | some error =>
      obtain ⟨treats, ⟨none, -⟩ | ⟨c, hc, hf⟩⟩ := Pass.fault_visit.1 hf
      · obtain ⟨c, hc, -⟩ := ready pass _ _ .refl treats
        rw [none] at hc
        cases hc
      · cases pass with
        | inheritMissingMembers => cases hf
        | inherit => cases hf
        | overwriteClass => cases hf
        | overwrite =>
          rw [Pass.apply, fault_strip_of_ready distinct hc ready] at hf
          cases hf
  refine ⟨ok, fun t ht ↦ ?_⟩
  rcases Pass.visit_cases ok with ⟨-, hv⟩ | ⟨-, c, hc, applied, hv⟩
  · rw [hv] at ht
    exact ready.nested ht
  · rw [hv] at ht
    by_cases class_pass : pass = .overwrite
    · subst class_pass
      exact (ready_strip ready applied).nested ht
    · rcases List.mem_append.1 ((Pass.nestedTypes_apply class_pass).2 ht) with ht | ht
      · exact ready.nested ht
      · intro other r u hu treats
        rw [idle_of_find? unmarked hc r u (.nested ht hu) other] at treats
        cases treats

end fault

/-! ## Passes without a fault accept what they visit -/

section accepts

variable {common : SourceModel} {q : String} {d e : TypeDecl}

/-- A type in a type that is stripped is checked at once, or the visit still comes to it. -/
theorem accepts_or_enclosed_of_strip (distinct : common.DistinctNames) {c : ClassRef}
    (hc : (CommonClasses.ofModel common).find? q = some c)
    (ok : (stripOverwrites q c.decl d).fault = none) {r : String} {u : TypeDecl}
    (hu : Encloses q d r u) :
    Pass.overwrite.Accepts (.ofModel common) r u ∨
      ∃ t ∈ (stripOverwrites q c.decl d).value.nestedTypes,
        Encloses (nestedName q t.name) t r u := by
  induction d using TypeDecl.nestingInduction generalizing q c with
  | step d ih =>
    cases hu with
    | refl => exact .inl fun _ ↦ ⟨c, hc, fun _ ↦ (fault_stripOverwrites.1 ok).1⟩
    | @nested _ _ _ t _ ht hu =>
      obtain ⟨m', hm', h⟩ :=
        exists_of_forall₂ (members_stripped ok).flip (TypeDecl.mem_nestedTypes.1 ht)
      cases h with
      | kept => exact .inr ⟨t, TypeDecl.mem_nestedTypes.2 hm', hu⟩
      | @stripped _ inner hi hf =>
        obtain ⟨c', hc', rfl⟩ := find?_of_nestedType? distinct hc hi
        rcases ih t ht hc' hf hu with accepted | ⟨t', ht', hu'⟩
        · exact .inl accepted
        · refine .inr ⟨_, TypeDecl.mem_nestedTypes.2 hm', ?_⟩
          rw [name_stripOverwrites hf]
          exact .nested ht' hu'

/-- A visit without a fault means that the pass accepts all types in the class, those that it
grafts included. -/
theorem accepts_of_visit (distinct : common.DistinctNames) {pass : Pass} {levels : Nat}
    {scope : Scope} {emit : EmitSet}
    (enough : Suffices (pass.visit (.ofModel common)) levels scope d)
    (ok : (visitDecl (pass.visit (.ofModel common)) levels scope emit d).fault = none) :
    ∀ r u, Encloses scope.qualified d r u → pass.Accepts (.ofModel common) r u := by
  refine visitDecl_induction (motive := fun scope _ d _ _ ↦
      ∀ r u, Encloses scope.qualified d r u → pass.Accepts (.ofModel common) r u)
    (fun scope emit d ok emit' members visited r u hu ↦ ?_) enough ok
  have inside {t : TypeDecl}
      (ht : t ∈ (pass.visit (.ofModel common) scope emit d).value.nestedTypes)
      (hu : Encloses (nestedName scope.qualified t.name) t r u) :
      pass.Accepts (.ofModel common) r u := by
    obtain ⟨_, _, _, h⟩ := visited.exists_of_mem (TypeDecl.mem_nestedTypes.1 ht)
    cases h with
    | type h => exact h r u hu
  rcases Pass.visit_cases ok with ⟨untreated, hv⟩ | ⟨-, c, hc, applied, hv⟩
  · rw [hv] at inside
    cases hu with
    | refl =>
      intro treats
      rw [untreated] at treats
      cases treats
    | nested ht hu => exact inside ht hu
  · rw [hv] at inside
    by_cases class_pass : pass = .overwrite
    · subst class_pass
      rcases accepts_or_enclosed_of_strip distinct hc applied hu with accepted | ⟨t, ht, hu⟩
      · exact accepted
      · exact inside ht hu
    · cases hu with
      | refl => exact fun _ ↦ ⟨c, hc, fun h ↦ absurd h class_pass⟩
      | nested ht hu => exact inside ((Pass.nestedTypes_apply class_pass).1 ht) hu

/-- As long as no overwrite marks are gone, a pass to come finds its marks as they were. -/
theorem Overlaid.treats_overlaid {common : CommonClasses} {passes : List Pass}
    (h : Overlaid common passes q d e) {pass : Pass} (new : pass ∉ passes)
    (marks : .overwrite ∉ passes) (treats : pass.treats d = true) : pass.treats e = true := by
  by_cases class_pass : pass = .overwrite
  · subst class_pass
    obtain ⟨i, hi, marked⟩ := List.any_eq_true.1 treats
    have same : clearItem passes i = i := if_neg marks
    exact List.any_eq_true.2 ⟨i, same ▸ h.item_mem hi, marked⟩
  · rwa [h.treats class_pass new]

/-- So a pass to come that accepts the overlaid class accepts the class itself. -/
theorem Overlaid.accepts {common : CommonClasses} {passes : List Pass}
    (h : Overlaid common passes q d e) {pass : Pass} (new : pass ∉ passes)
    (accepted : pass.Accepts common q e) : pass.Accepts common q d := by
  intro treats
  by_cases class_pass : pass = .overwrite
  · subst class_pass
    obtain ⟨c, hc, ok⟩ := accepted (h.treats_overlaid new new treats)
    refine ⟨c, hc, fun hp ↦ ?_⟩
    rw [overwriteError?_eq_none]
    intro i hi marked
    rw [← TypeDecl.declares_congr rfl h.components]
    have same : clearItem passes i = i := if_neg new
    exact overwriteError?_eq_none.1 (ok hp) i (same ▸ h.item_mem hi) marked
  · rw [← h.treats class_pass new] at treats
    obtain ⟨c, hc, -⟩ := accepted treats
    exact ⟨c, hc, fun h ↦ absurd h class_pass⟩

end accepts

/-! ## Runs -/

section run

variable {common platform : SourceModel}

/-- A type of a model has its like in a model that corresponds to it. -/
theorem exists_of_corresponds {R : String → TypeDecl → TypeDecl → Prop} {model model' : SourceModel}
    (h : model.Corresponds R model') {file : SourceFile} (hf : file ∈ model.files) {t : TypeDecl}
    (ht : t ∈ file.unit.types) :
    ∃ file' ∈ model'.files, file'.package = file.package ∧
      ∃ t' ∈ file'.unit.types, R (qualify file.package t.name) t t' := by
  obtain ⟨file', hf', e, types⟩ := exists_of_forall₂ h.flip hf
  obtain ⟨t', ht', hR⟩ := exists_of_forall₂ types.flip ht
  exact ⟨file', hf', by rw [e]; rfl, t', ht', hR⟩

/-- Each pass of a run without a fault had none on what the passes before made of the model. -/
theorem exists_run_of_runPasses {common : CommonClasses} {before after : List Pass} {pass : Pass}
    {emit : EmitSet} (nodup : (before ++ pass :: after).Nodup)
    (ok : (runPasses common (before ++ pass :: after) ⟨platform, emit, none⟩).fault = none) :
    ∃ m emit', platform.Corresponds (Overlaid common before) m ∧
      (pass.run common emit' m).fault = none := by
  rw [runPasses_append] at ok
  have first := fault_runPasses ok
  rw [Visited.eq_of_ok first, runPasses_cons] at ok
  exact ⟨_, _, overlaid_runPasses nodup.of_append_left first, fault_runPasses ok⟩

/-- Each pass of a run without a fault accepts every type of the platform. -/
theorem accepts_of_runPasses (distinct : common.DistinctNames)
    {before after : List Pass} {pass : Pass}
    (nodup : (before ++ pass :: after).Nodup) {emit : EmitSet}
    (ok : (runPasses (.ofModel common) (before ++ pass :: after) ⟨platform, emit, none⟩).fault =
      none)
    {file : SourceFile} (hf : file ∈ platform.files) {t : TypeDecl} (ht : t ∈ file.unit.types)
    {r : String} {u : TypeDecl} (hu : Encloses (qualify file.package t.name) t r u) :
    pass.Accepts (.ofModel common) r u := by
  have new : pass ∉ before := fun hm ↦
    (List.nodup_append.1 nodup).2.2 pass hm pass List.mem_cons_self rfl
  obtain ⟨m, emit, corresponds, first⟩ := exists_run_of_runPasses nodup ok
  obtain ⟨file', hf', hp, t', ht', h⟩ := exists_of_corresponds corresponds hf ht
  obtain ⟨n, emit', visited⟩ := SourceModel.exists_ok_of_visit first hf' ht'
  obtain ⟨u', hu', hou⟩ := h.exists_encloses hu
  refine hou.accepts new (accepts_of_visit distinct
    (Pass.suffices_run _ pass hf' ht' n) visited r u' ?_)
  rw [← h.name] at hu'
  rw [← hp] at hu'
  exact hu'

/-- Passes in any order run without a fault over a model that is ready. -/
theorem fault_runPasses_of_ready (distinct : common.DistinctNames) (unmarked : common.Unmarked)
    {passes : List Pass} (nodup : passes.Nodup) {emit : EmitSet}
    (ready : ∀ file ∈ platform.files, ∀ t ∈ file.unit.types,
      Ready (.ofModel common) (qualify file.package t.name) t) :
    (runPasses (.ofModel common) passes ⟨platform, emit, none⟩).fault = none := by
  induction passes using List.reverseRecOn with
  | nil => rfl
  | append_singleton passes pass ih =>
    have before := ih nodup.of_append_left
    have overlaid := overlaid_runPasses nodup.of_append_left before
    rw [runPasses_concat before]
    refine SourceModel.fault_visit fun file' hf' t' ht' n s ↦
      fault_visit_of_ready distinct unmarked ?_
    obtain ⟨file, hf, e, types⟩ := exists_of_forall₂ overlaid hf'
    obtain ⟨t, ht, ho⟩ := exists_of_forall₂ types ht'
    have := ho.ready unmarked (ready file hf t ht)
    rw [← ho.name] at this
    rw [e]
    exact this

/-- In whatever order all passes have run, without a fault they have accepted every type. -/
theorem ready_of_runPasses (distinct : common.DistinctNames) {order : List Pass}
    (all : order.Perm Pass.all) {emit : EmitSet}
    (ok : (runPasses (.ofModel common) order ⟨platform, emit, none⟩).fault = none)
    {file : SourceFile} (hf : file ∈ platform.files) {t : TypeDecl} (ht : t ∈ file.unit.types) :
    Ready (.ofModel common) (qualify file.package t.name) t := by
  intro pass r u hu
  have mem : pass ∈ order := all.mem_iff.2 (by cases pass <;> decide)
  obtain ⟨before, after, rfl⟩ := List.append_of_mem mem
  exact accepts_of_runPasses distinct (all.nodup_iff.2 (by decide)) ok hf ht hu

end run

/-! ## Faults -/

section names

variable {common : SourceModel} {error : MergeError}

/-- The fault names what is missing: a common class, or, in a common class that is there, the
match of an item marked as overwriting. -/
def NamesMissing (common : CommonClasses) : MergeError → Prop
  | .nothingToInherit q => common.find? q = none
  | .noTarget q kind item => ∃ c, common.find? q = some c ∧ ∃ d : TypeDecl, ∃ i ∈ d.items,
      i.hasMark .overwrite = true ∧ c.decl.declares d i = false ∧
      kind = i.kindName ∧ item = i.describe (Text.afterLast '.' q) d

/-- The fault names an item that the common class does not declare. -/
theorem namesMissing_of_overwriteError? {common : CommonClasses} {q : String} {c : ClassRef}
    (hc : common.find? q = some c) {d : TypeDecl} (h : overwriteError? q d c.decl = some error) :
    NamesMissing common error := by
  obtain ⟨i, hi, rfl⟩ := Option.map_eq_some_iff.1 h
  have bad := List.find?_some hi
  rw [Bool.and_eq_true, Bool.not_eq_true'] at bad
  exact ⟨c, hc, d, i, List.mem_of_find?_eq_some hi, bad.1, bad.2, rfl, rfl⟩

/-- A fault of stripping, from a class or from a type nested in it, names an overwritten item
that the counterpart lacks. -/
theorem namesMissing_of_strip (distinct : common.DistinctNames) {q : String} {c : ClassRef}
    (hc : (CommonClasses.ofModel common).find? q = some c) {d : TypeDecl}
    (h : (stripOverwrites q c.decl d).fault = some error) :
    NamesMissing (.ofModel common) error := by
  induction d using TypeDecl.nestingInduction generalizing q c with
  | step d ih =>
    rw [stripOverwrites_eq] at h
    split at h
    next other ho =>
      obtain rfl := Option.some.inj h
      exact namesMissing_of_overwriteError? hc ho
    next =>
      rw [Visited.fault_map, stripMembers_eq_visitList] at h
      obtain ⟨m, hm, -, h⟩ := exists_fault_of_visitList h
      cases m with
      | item i => cases h
      | type t =>
        rw [stripMember] at h
        split at h
        next inner hi =>
          obtain ⟨c', hc', rfl⟩ := find?_of_nestedType? distinct hc hi
          exact ih t (TypeDecl.mem_nestedTypes.2 hm) hc' h
        next => cases h

/-- Every fault of a run names what is missing. -/
theorem namesMissing_of_runPasses (distinct : common.DistinctNames) {passes : List Pass}
    {emit : EmitSet} {m : SourceModel}
    (h : (runPasses (.ofModel common) passes ⟨m, emit, none⟩).fault = some error) :
    NamesMissing (.ofModel common) error := by
  induction passes generalizing emit m with
  | nil => cases h
  | cons pass passes ih =>
    rw [runPasses_cons] at h
    cases hf : (pass.run (.ofModel common) emit m).fault with
    | none =>
      rw [Visited.eq_of_ok hf] at h
      exact ih h
    | some other =>
      rw [runPasses_of_fault hf, hf] at h
      obtain rfl := Option.some.inj h
      obtain ⟨scope, emit', d, hd⟩ := SourceModel.exists_fault_of_visit hf
      obtain ⟨-, ⟨none, rfl⟩ | ⟨c, hc, applied⟩⟩ := Pass.fault_visit.1 hd
      · exact none
      · cases pass with
        | inheritMissingMembers => cases applied
        | inherit => cases applied
        | overwriteClass => cases applied
        | overwrite => exact namesMissing_of_strip distinct hc applied

theorem namesMissing_of_verify {common : CommonClasses} {platform : SourceModel}
    (h : verify common platform = .error error) : NamesMissing common error := by
  rw [verify] at h
  split at h
  next other hf =>
    obtain rfl := Except.error.inj h
    obtain ⟨c, -, hc⟩ := List.exists_of_findSome?_eq_some hf
    unfold verifyClass at hc
    split at hc
    next =>
      cases ht : counterpart common c.qualified with
      | error e =>
        rw [ht] at hc
        obtain rfl := Option.some.inj hc
        obtain ⟨none, rfl⟩ := counterpart_eq_error.1 ht
        exact none
      | ok target =>
        rw [ht] at hc
        exact namesMissing_of_overwriteError? (counterpart_eq_ok.1 ht) hc
    next => cases hc
  next => cases h

end names

/-- Checking the marks without merging accepts the same models as merging, and whatever
either of them reports is a missing common class or a missing target. -/
theorem verify_agrees_with_run {common : SourceModel} (platform : SourceModel)
    (distinct : common.DistinctNames) (unmarked : common.Unmarked) :
    (verify (.ofModel common) platform = .ok () ↔
      (run (.ofModel common) platform).fault = none) ∧
    ∀ error, verify (.ofModel common) platform = .error error ∨
      (run (.ofModel common) platform).fault = some error →
      NamesMissing (.ofModel common) error := by
  refine ⟨⟨fun ok ↦ ?_, fun ok ↦ ?_⟩, ?_⟩
  · exact fault_runPasses_of_ready distinct unmarked (by decide)
      (verify_eq_ok.1 ok)
  · exact verify_eq_ok.2 fun file hf t ht ↦ ready_of_runPasses distinct (.refl _) ok hf ht
  · rintro error (failed | failed)
    · exact namesMissing_of_verify failed
    · exact namesMissing_of_runPasses distinct failed

/-- The platform class with a field that overwrites nothing. -/
def strayPair : TypeDecl :=
  { platformPair with members := [.item (fieldOf [⟨"Overwrite", none⟩] "long" "z")] }

theorem verify_agrees_with_run_pair :
    let common := CommonClasses.ofModel (.ofType commonPair)
    verify common (.ofType platformPair) = .ok () ∧
      (run common (.ofType platformPair)).fault = none ∧
      verify common (.ofType strayPair) ≠ .ok () ∧
      (run common (.ofType strayPair)).fault ≠ none ∧
      ∀ error, verify common (.ofType strayPair) = .error error ∨
        (run common (.ofType strayPair)).fault = some error → NamesMissing common error := by
  intro common
  have accepted := @verify_agrees_with_run (.ofType commonPair) (.ofType platformPair)
    (by decide +kernel) (by decide +kernel)
  obtain ⟨rejected, errors⟩ := @verify_agrees_with_run (.ofType commonPair)
    (.ofType strayPair) (by decide +kernel) (by decide +kernel)
  have merges : (run common (.ofType platformPair)).fault = none := by decide +kernel
  have stops : (run common (.ofType strayPair)).fault ≠ none := by decide +kernel
  exact ⟨accepted.1.2 merges, merges, fun ok ↦ stops (rejected.1 ok), stops, errors⟩

end Merge

end PlatformOverlay
