import PlatformOverlay.Check.Report
import Mathlib.Data.List.Basic

/-!
# What a report holds

Sections stand in the order of their kinds, so that a kind has one section at most and adding a
member reaches just the list of its kind and class (`members_add`).  The report of a list of
findings therefore holds each of them in its place, in the order of the list (`members_ofFindings`).
No section and no class in one is empty, so that a class stands under a kind just if it has members
there (`members_ne_nil_iff`).

Both are invariants of adding one member. They are put into predicates on the report, `Sorted` for
the sections and `Filled` for the lists in them, and carried through a list of findings together
(`sorted_filled_addFindings`). What the report looks like from outside, its kinds, classes and
texts, is said in `PlatformOverlay.Proofs.Check.Grouping`.
-/

namespace PlatformOverlay.Check

/-- A member that was found wanting in a class, and the kind of what it lacks. -/
structure Finding where
  kind : ReportKind
  className : String
  member : String
deriving DecidableEq, Repr

/-! ## Classes -/

/-- A member is put behind those of its class. -/
theorem members_addToClasses (className member other : String) (cs : List ClassFindings) :
    (((addToClasses className member cs).find? (·.className = other)).map
      ClassFindings.members).getD [] =
    ((cs.find? (·.className = other)).map ClassFindings.members).getD [] ++
      if className = other then [member] else [] := by
  induction cs with
  | nil => by_cases h : className = other <;> simp [addToClasses, h]
  | cons c cs ih =>
    rw [addToClasses]
    split
    next hc =>
      by_cases h : className = other
      · simp [hc, h]
      · simp [hc, h]
    next hc =>
      by_cases h : c.className = other
      · have : ¬className = other := fun e ↦ hc (h.trans e.symm)
        simp [h, this]
      · rw [List.find?_cons_of_neg (by simpa using h), List.find?_cons_of_neg (by simpa using h)]
        exact ih

/-! ## Sections -/

namespace Report

/-- The sections stand in the order of their kinds, one for each. -/
def Sorted (report : Report) : Prop :=
  report.sections.Pairwise fun s t ↦ s.kind.rank < t.kind.rank

theorem kind_of_mem_addToSections {kind : ReportKind} {className member : String}
    {ss : List Section} {s : Section} (h : s ∈ addToSections kind className member ss) :
    s.kind = kind ∨ ∃ t ∈ ss, t.kind = s.kind := by
  induction ss with
  | nil =>
    obtain rfl := List.mem_singleton.1 h
    exact .inl rfl
  | cons t ss ih =>
    rw [addToSections] at h
    split at h
    next ht =>
      rcases List.mem_cons.1 h with rfl | h
      · exact .inl ht
      · exact .inr ⟨s, List.mem_cons_of_mem _ h, rfl⟩
    split at h
    · rcases List.mem_cons.1 h with rfl | h
      · exact .inl rfl
      · exact .inr ⟨s, h, rfl⟩
    · rcases List.mem_cons.1 h with rfl | h
      · exact .inr ⟨s, List.mem_cons_self, rfl⟩
      · rcases ih h with h | ⟨u, hu, h⟩
        · exact .inl h
        · exact .inr ⟨u, List.mem_cons_of_mem _ hu, h⟩

theorem sorted_empty : Sorted .empty := .nil

/-- A new section is put in its place, so the report stays sorted. -/
theorem Sorted.add {report : Report} (h : report.Sorted) (kind : ReportKind)
    (className member : String) : (report.add kind className member).Sorted := by
  obtain ⟨ss⟩ := report
  unfold Sorted Report.add at *
  simp only at h ⊢
  induction ss with
  | nil => simp [addToSections]
  | cons s ss ih =>
    obtain ⟨first, rest⟩ := List.pairwise_cons.1 h
    rw [addToSections]
    split
    next hs => exact List.pairwise_cons.2 ⟨first, rest⟩
    next hs =>
      split
      next before =>
        refine List.pairwise_cons.2 ⟨fun t ht ↦ ?_, h⟩
        rcases List.mem_cons.1 ht with rfl | ht
        · exact before
        · exact Nat.lt_trans before (first t ht)
      next behind =>
        refine List.pairwise_cons.2 ⟨fun t ht ↦ ?_, ih rest⟩
        rcases kind_of_mem_addToSections ht with e | ⟨u, hu, e⟩
        · have : s.kind.rank ≠ kind.rank := fun e ↦ hs (ReportKind.rank_injective e)
          rw [e]
          omega
        · rw [← e]
          exact first u hu

/-- The findings of a kind after one more: sections of other kinds do not change. -/
theorem findings_add {report : Report} (h : report.Sorted) (kind other : ReportKind)
    (className member : String) : (report.add kind className member).findings other =
      if kind = other then addToClasses className member (report.findings other)
      else report.findings other := by
  obtain ⟨ss⟩ := report
  unfold Sorted at h
  unfold Report.findings Report.add
  simp only at h ⊢
  induction ss with
  | nil => by_cases e : kind = other <;> simp [addToSections, addToClasses, e]
  | cons s ss ih =>
    obtain ⟨first, rest⟩ := List.pairwise_cons.1 h
    rw [addToSections]
    split
    next hs => by_cases e : kind = other <;> simp [hs, e]
    next hs =>
      split
      next before =>
        have absent : (s :: ss).find? (·.kind = kind) = none := by
          rw [List.find?_eq_none]
          intro t ht e
          have e : t.kind = kind := of_decide_eq_true e
          rcases List.mem_cons.1 ht with rfl | ht
          · exact hs e
          · have := first t ht
            rw [e] at this
            omega
        by_cases e : kind = other
        · subst e
          rw [if_pos rfl, List.find?_cons_of_pos (by simp), absent]
          rfl
        · rw [if_neg e, List.find?_cons_of_neg (by simpa using e)]
      next behind =>
        by_cases e : s.kind = other
        · have : ¬kind = other := fun h ↦ hs (e.trans h.symm)
          simp [e, this]
        · rw [List.find?_cons_of_neg (by simpa using e), List.find?_cons_of_neg (by simpa using e)]
          exact ih rest

/-- The members of a class after one more finding. -/
theorem members_add {report : Report} (h : report.Sorted) (kind other : ReportKind)
    (className member otherClass : String) :
    (report.add kind className member).members other otherClass =
      report.members other otherClass ++
        if kind = other ∧ className = otherClass then [member] else [] := by
  unfold members
  rw [findings_add h]
  by_cases e : kind = other
  · rw [if_pos e, members_addToClasses]
    simp [e]
  · simp [e]

/-! ## Lists of findings -/

def addFindings (report : Report) (fs : List Finding) : Report :=
  fs.foldl (fun r f ↦ r.add f.kind f.className f.member) report

theorem addFindings_append (report : Report) (fs gs : List Finding) :
    report.addFindings (fs ++ gs) = (report.addFindings fs).addFindings gs := List.foldl_append

/-- Members that are added together are findings of one kind about one class. -/
theorem addAll_eq (report : Report) (kind : ReportKind) (className : String) (ms : List String) :
    report.addAll kind className ms = report.addFindings (ms.map (⟨kind, className, ·⟩)) := by
  rw [addFindings, List.foldl_map]
  rfl

/-- The members of a class are those of the findings about it, in their order. -/
theorem members_addFindings {report : Report} (h : report.Sorted) (fs : List Finding)
    (kind : ReportKind) (className : String) :
    (report.addFindings fs).members kind className = report.members kind className ++
      (fs.filter fun f ↦ f.kind = kind ∧ f.className = className).map Finding.member := by
  induction fs generalizing report with
  | nil => simp [addFindings]
  | cons f fs ih =>
    have step : report.addFindings (f :: fs) =
        (report.add f.kind f.className f.member).addFindings fs := rfl
    rw [step, ih (h.add _ _ _), members_add h]
    by_cases e : f.kind = kind ∧ f.className = className <;> simp [e]

/-- The report of findings that came up one after another. -/
def ofFindings (fs : List Finding) : Report := Report.empty.addFindings fs

theorem members_ofFindings (fs : List Finding) (kind : ReportKind) (className : String) :
    (ofFindings fs).members kind className =
      (fs.filter fun f ↦ f.kind = kind ∧ f.className = className).map Finding.member :=
  members_addFindings sorted_empty fs kind className

/-- A report has a member when it was found. -/
theorem mem_members_ofFindings {fs : List Finding} {kind : ReportKind} {className member : String} :
    member ∈ (ofFindings fs).members kind className ↔ ⟨kind, className, member⟩ ∈ fs := by
  rw [members_ofFindings, List.mem_map]
  constructor
  · rintro ⟨f, hf, rfl⟩
    obtain ⟨mem, e⟩ := List.mem_filter.1 hf
    obtain ⟨rfl, rfl⟩ := of_decide_eq_true e
    exact mem
  · exact fun h ↦ ⟨_, List.mem_filter.2 ⟨h, by simp⟩, rfl⟩

/-! ## No empty entries -/

/-- Every section has a class and every class in it a member. -/
def Filled (report : Report) : Prop :=
  ∀ s ∈ report.sections, s.classes ≠ [] ∧ ∀ c ∈ s.classes, c.members ≠ []

theorem members_ne_nil_addToClasses {className member : String} {cs : List ClassFindings}
    (h : ∀ c ∈ cs, c.members ≠ []) : ∀ c ∈ addToClasses className member cs, c.members ≠ [] := by
  induction cs with
  | nil => simp [addToClasses]
  | cons d cs ih =>
    obtain ⟨first, rest⟩ := List.forall_mem_cons.1 h
    rw [addToClasses]
    split
    · exact List.forall_mem_cons.2 ⟨by simp, rest⟩
    · exact List.forall_mem_cons.2 ⟨first, ih rest⟩

theorem addToClasses_ne_nil (className member : String) (cs : List ClassFindings) :
    addToClasses className member cs ≠ [] := by
  cases cs with
  | nil => simp [addToClasses]
  | cons c cs =>
    rw [addToClasses]
    split <;> simp

theorem filled_empty : Filled .empty := fun _ h ↦ absurd h List.not_mem_nil

theorem Filled.add {report : Report} (h : report.Filled) (kind : ReportKind)
    (className member : String) : (report.add kind className member).Filled := by
  obtain ⟨ss⟩ := report
  have new : ([⟨className, [member]⟩] : List ClassFindings) ≠ [] ∧
      ∀ c ∈ ([⟨className, [member]⟩] : List ClassFindings), c.members ≠ [] := by simp
  unfold Filled Report.add at *
  simp only at h ⊢
  induction ss with
  | nil => exact List.forall_mem_cons.2 ⟨new, by simp⟩
  | cons s ss ih =>
    obtain ⟨first, rest⟩ := List.forall_mem_cons.1 h
    rw [addToSections]
    split
    · exact List.forall_mem_cons.2
        ⟨⟨addToClasses_ne_nil _ _ _, members_ne_nil_addToClasses first.2⟩, rest⟩
    split
    · exact List.forall_mem_cons.2 ⟨new, h⟩
    · exact List.forall_mem_cons.2 ⟨first, ih rest⟩

/-- A report stays sorted and filled whatever findings are added. -/
theorem sorted_filled_addFindings {report : Report} (h : report.Sorted ∧ report.Filled)
    (fs : List Finding) :
    (report.addFindings fs).Sorted ∧ (report.addFindings fs).Filled := by
  induction fs generalizing report with
  | nil => exact h
  | cons f fs ih => exact ih ⟨h.1.add _ _ _, h.2.add _ _ _⟩

theorem sorted_ofFindings (fs : List Finding) : (ofFindings fs).Sorted :=
  (sorted_filled_addFindings ⟨sorted_empty, filled_empty⟩ fs).1

theorem filled_ofFindings (fs : List Finding) : (ofFindings fs).Filled :=
  (sorted_filled_addFindings ⟨sorted_empty, filled_empty⟩ fs).2

/-- In a sorted report, a section is found by its kind. -/
theorem findings_of_mem {report : Report} (h : report.Sorted) {s : Section}
    (hs : s ∈ report.sections) : report.findings s.kind = s.classes := by
  obtain ⟨before, after, e⟩ := List.append_of_mem hs
  have earlier : ∀ t ∈ before, ¬t.kind = s.kind := fun t ht same ↦ by
    rw [Sorted, e] at h
    have := (List.pairwise_append.1 h).2.2 t ht s List.mem_cons_self
    rw [same] at this
    omega
  rw [findings, e, List.find?_append, List.find?_eq_none.2 (by simpa using earlier)]
  simp

/-- There is an entry for a class when it has members. -/
theorem members_ne_nil_iff {report : Report} (h : report.Filled) {kind : ReportKind}
    {className : String} :
    report.members kind className ≠ [] ↔ className ∈ report.classes kind := by
  rw [classes, List.mem_map, members]
  have full : ∀ c ∈ report.findings kind, c.members ≠ [] := by
    intro c hc
    rw [findings] at hc
    cases hs : report.sections.find? (·.kind = kind) with
    | none => simp [hs] at hc
    | some s =>
      rw [hs] at hc
      exact (h s (List.mem_of_find?_eq_some hs)).2 c hc
  cases hc : (report.findings kind).find? (·.className = className) with
  | none =>
    rw [List.find?_eq_none] at hc
    simp only [Option.map_none, Option.getD_none, ne_eq, not_true_eq_false, false_iff]
    rintro ⟨c, mem, e⟩
    exact hc c mem (decide_eq_true e)
  | some c =>
    have mem := List.mem_of_find?_eq_some hc
    have name : c.className = className := by simpa using List.find?_some hc
    simp only [Option.map_some, Option.getD_some]
    exact ⟨fun _ ↦ ⟨c, mem, name⟩, fun _ ↦ full c mem⟩

theorem classes_ne_nil {report : Report} (sorted : report.Sorted) (h : report.Filled)
    {kind : ReportKind} (hk : kind ∈ report.kinds) : report.classes kind ≠ [] := by
  obtain ⟨s, hs, rfl⟩ := List.mem_map.1 hk
  rw [classes, findings_of_mem sorted hs]
  exact fun none ↦ (h s hs).1 (List.map_eq_nil_iff.1 none)

/-- A report is empty when no class has members in it. -/
theorem isEmpty_iff {report : Report} (sorted : report.Sorted) (h : report.Filled) :
    report.isEmpty = true ↔ ∀ kind className, report.members kind className = [] := by
  constructor
  · intro empty kind className
    rw [isEmpty, List.isEmpty_iff] at empty
    simp [members, findings, empty]
  · intro none
    rw [isEmpty, List.isEmpty_iff, List.eq_nil_iff_forall_not_mem]
    intro s hs
    obtain ⟨c, hc⟩ := List.exists_mem_of_ne_nil _ (h s hs).1
    have listed : c.className ∈ report.classes s.kind := by
      rw [classes, findings_of_mem sorted hs]
      exact List.mem_map_of_mem hc
    exact (members_ne_nil_iff h).2 listed (none s.kind c.className)

end Report

end PlatformOverlay.Check
