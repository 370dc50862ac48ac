import Mathlib.Data.List.Induction
import PlatformOverlay.Proofs.Check.Report

/-!
# Reports group what they are given

A report of findings holds them without loss, in two orders: its sections stand in the order of
their kinds, and the classes of a section in the order in which they came up. All that there is to
see of a report is read off the list of its findings:

| in the report | in the list | lemma |
| --- | --- | --- |
| its kinds | those that occur, ascending | `mem_kinds_ofFindings` |
| the classes of a kind | those that occur with it, by first use | `classes_ofFindings` |
| the members of a class | those with this kind and class, in order | `members_ofFindings` |
| its size | the number of findings | `size_ofFindings` |
| its texts | a header for each class, its members below | `render_ofFindings` |

The proofs go through the list from its end, since the last finding is the one that was added last;
classes in the order of their first use are `List.eraseDups` of all the names that occur.
`report_groups_findings` holds for every list of findings. In particular it does not ask for the
order in which validation comes up with them.
-/

namespace PlatformOverlay.Check

/-! ## Adding to classes -/

/-- A class that is new is put behind the others. -/
theorem classNames_addToClasses (className member : String) (cs : List ClassFindings) :
    (addToClasses className member cs).map ClassFindings.className =
      if className ∈ cs.map ClassFindings.className then cs.map ClassFindings.className
      else cs.map ClassFindings.className ++ [className] := by
  induction cs with
  | nil => rfl
  | cons c cs ih =>
    rw [addToClasses]
    by_cases same : c.className = className
    · simp [same]
    · have other : className ≠ c.className := Ne.symm same
      rw [if_neg same, List.map_cons, ih]
      simp only [List.map_cons, List.mem_cons, other, false_or]
      split <;> rfl

theorem length_flatMap_addToClasses (className member : String) (cs : List ClassFindings) :
    ((addToClasses className member cs).flatMap ClassFindings.members).length =
      (cs.flatMap ClassFindings.members).length + 1 := by
  induction cs with
  | nil => rfl
  | cons c cs ih =>
    rw [addToClasses]
    split
    · simp only [List.flatMap_cons, List.length_append, List.length_singleton]
      omega
    · simp only [List.flatMap_cons, List.length_append, ih]
      omega

/-! ## Lists without repetitions -/

/-- An element at the end is kept if it is new. -/
theorem eraseDups_concat {α : Type} [BEq α] [LawfulBEq α] (as : List α) (a : α) :
    (as ++ [a]).eraseDups = if a ∈ as then as.eraseDups else as.eraseDups ++ [a] := by
  rw [List.eraseDups_append]
  by_cases h : a ∈ as <;> simp [List.removeAll, List.eraseDups_cons, h]

theorem nodup_eraseDups {α : Type} [BEq α] [LawfulBEq α] (as : List α) :
    as.eraseDups.Nodup := by
  induction as using List.reverseRecOn with
  | nil => exact .nil
  | append_singleton as a ih =>
    rw [eraseDups_concat]
    split
    next => exact ih
    next new =>
      refine List.nodup_append.2 ⟨ih, List.pairwise_singleton _ a, fun b hb c hc ↦ ?_⟩
      rw [List.mem_singleton.1 hc]
      exact fun e ↦ new (e ▸ List.mem_eraseDups.1 hb)

/-! ## Classes -/

namespace Report

theorem ofFindings_concat (fs : List Finding) (f : Finding) :
    ofFindings (fs ++ [f]) = (ofFindings fs).add f.kind f.className f.member :=
  addFindings_append _ fs [f]

/-- A finding adds its class to its section, if it is not there yet, and changes no other
section. -/
theorem classes_add {report : Report} (sorted : report.Sorted) (kind other : ReportKind)
    (className member : String) : (report.add kind className member).classes other =
      if kind = other ∧ className ∉ report.classes other then report.classes other ++ [className]
      else report.classes other := by
  have names : (report.findings other).map ClassFindings.className = report.classes other := rfl
  rw [classes, findings_add sorted]
  by_cases same : kind = other
  · rw [if_pos same, classNames_addToClasses, names]
    by_cases known : className ∈ report.classes other
    · rw [if_pos known, if_neg (fun h ↦ h.2 known)]
    · rw [if_neg known, if_pos ⟨same, known⟩]
  · rw [if_neg same, if_neg (fun h ↦ same h.1), names]

/-- The classes of a kind stand in the order in which they were first used with it. -/
theorem classes_ofFindings (fs : List Finding) (kind : ReportKind) :
    (ofFindings fs).classes kind =
      ((fs.filter (·.kind = kind)).map Finding.className).eraseDups := by
  induction fs using List.reverseRecOn with
  | nil => rfl
  | append_singleton fs f ih =>
    rw [ofFindings_concat, classes_add (sorted_ofFindings fs), ih, List.filter_append]
    by_cases same : f.kind = kind
    · rw [List.filter_cons_of_pos (by simpa using same), List.filter_nil, List.map_append,
        List.map_singleton, eraseDups_concat]
      simp only [List.mem_eraseDups, same, true_and, ite_not]
    · rw [if_neg (fun h ↦ same h.1), List.filter_cons_of_neg (by simpa using same),
        List.filter_nil, List.append_nil]

theorem nodup_classes (fs : List Finding) (kind : ReportKind) :
    ((ofFindings fs).classes kind).Nodup := by
  rw [classes_ofFindings]
  exact nodup_eraseDups _

/-! ## Kinds -/

/-- There is a section for a kind when something is found of this kind. -/
theorem mem_kinds_iff {report : Report} (sorted : report.Sorted) (filled : report.Filled)
    {kind : ReportKind} :
    kind ∈ report.kinds ↔ ∃ className, report.members kind className ≠ [] := by
  constructor
  · intro h
    obtain ⟨className, listed⟩ := List.exists_mem_of_ne_nil _ (classes_ne_nil sorted filled h)
    exact ⟨className, (members_ne_nil_iff filled).2 listed⟩
  · rintro ⟨className, some⟩
    have listed := (members_ne_nil_iff filled).1 some
    rw [classes, findings] at listed
    cases hs : report.sections.find? (·.kind = kind) with
    | none => simp [hs] at listed
    | some s =>
      have e : s.kind = kind := by simpa using List.find?_some hs
      exact List.mem_map.2 ⟨s, List.mem_of_find?_eq_some hs, e⟩

/-- The sections are those of the kinds that occur. -/
theorem mem_kinds_ofFindings {fs : List Finding} {kind : ReportKind} :
    kind ∈ (ofFindings fs).kinds ↔ ∃ f ∈ fs, f.kind = kind := by
  rw [mem_kinds_iff (sorted_ofFindings fs) (filled_ofFindings fs)]
  simp only [members_ofFindings, ne_eq, List.map_eq_nil_iff, List.filter_eq_nil_iff]
  constructor
  · rintro ⟨className, some⟩
    push Not at some
    obtain ⟨f, hf, e⟩ := some
    exact ⟨f, hf, (of_decide_eq_true e).1⟩
  · rintro ⟨f, hf, rfl⟩
    exact ⟨f.className, fun none ↦ none f hf (by simp)⟩

/-- Sections stand in the order of their kinds. -/
theorem pairwise_kinds {report : Report} (sorted : report.Sorted) :
    report.kinds.Pairwise fun k l ↦ k.rank < l.rank := List.pairwise_map.2 sorted

/-! ## Numbers of findings -/

theorem foldl_add_length {α β : Type} (f : α → List β) (as : List α) (n : Nat) :
    as.foldl (fun n a ↦ n + (f a).length) n = n + (as.flatMap f).length := by
  induction as generalizing n with
  | nil => rfl
  | cons a as ih =>
    rw [List.foldl_cons, ih, List.flatMap_cons, List.length_append, Nat.add_assoc]

/-- The size is the number of members in all entries. -/
theorem size_eq (report : Report) : report.size =
    (report.sections.flatMap fun s ↦ s.classes.flatMap ClassFindings.members).length := by
  simp only [size, foldl_add_length, Nat.zero_add]

/-- A finding makes the report larger by one, wherever it goes. -/
theorem size_add (report : Report) (kind : ReportKind) (className member : String) :
    (report.add kind className member).size = report.size + 1 := by
  rw [size_eq, size_eq, add]
  generalize report.sections = ss
  dsimp only
  induction ss with
  | nil => rfl
  | cons s ss ih =>
    rw [addToSections]
    split
    · simp only [List.flatMap_cons, List.length_append, length_flatMap_addToClasses]
      omega
    split
    · rw [List.flatMap_cons, List.length_append, Nat.add_comm]
      rfl
    · simp only [List.flatMap_cons, List.length_append, ih]
      omega

/-- The size of a report is the number of findings it was made of. -/
theorem size_ofFindings (fs : List Finding) : (ofFindings fs).size = fs.length := by
  induction fs using List.reverseRecOn with
  | nil => rfl
  | append_singleton fs f ih =>
    rw [ofFindings_concat, size_add, ih, List.length_append, List.length_singleton]

/-- A report is empty when nothing has been found. -/
theorem isEmpty_ofFindings (fs : List Finding) : (ofFindings fs).isEmpty = true ↔ fs = [] := by
  constructor
  · intro none
    rw [isEmpty_iff (sorted_ofFindings fs) (filled_ofFindings fs)] at none
    refine List.eq_nil_iff_forall_not_mem.2 fun f hf ↦ ?_
    have recorded := mem_members_ofFindings.2 hf
    rw [none] at recorded
    cases recorded
  · rintro rfl
    rfl

/-! ## Texts -/

/-- The entry of a class in a section is found by its kind and name. -/
theorem members_of_mem {report : Report} (sorted : report.Sorted) {s : Section}
    (hs : s ∈ report.sections) (distinct : (report.classes s.kind).Nodup) {c : ClassFindings}
    (hc : c ∈ s.classes) : report.members s.kind c.className = c.members := by
  rw [classes, findings_of_mem sorted hs] at distinct
  rw [members, findings_of_mem sorted hs]
  obtain ⟨before, after, e⟩ := List.append_of_mem hc
  have earlier : ∀ d ∈ before, ¬d.className = c.className := fun d hd same ↦ by
    rw [e, List.map_append] at distinct
    exact (List.nodup_append.1 distinct).2.2 _ (List.mem_map_of_mem hd) _ List.mem_cons_self same
  rw [e, List.find?_append, List.find?_eq_none.2 (by simpa using earlier)]
  simp

end Report

/-- A class in the text of a section: an empty line, a header line and a line for each member. -/
def classText (kind : ReportKind) (project className : String) (members : List String) : String :=
  "\n" ++ (kind.header ++ " in '" ++ project ++ "' @ " ++ className) ++ "\n" ++
    String.join (members.map fun member ↦ " * " ++ member ++ "\n")

/-- Lines that are joined and ended are all ended. -/
theorem intercalate_append_lineFeed {lines : List String} (ne : lines ≠ []) :
    "\n".intercalate lines ++ "\n" = String.join (lines.map (· ++ "\n")) := by
  induction lines with
  | nil => exact absurd rfl ne
  | cons line lines ih =>
    cases lines with
    | nil => simp
    | cons next lines =>
      rw [String.intercalate_cons_cons, List.map_cons, String.join_cons, ← ih (by simp)]
      simp only [String.append_assoc]

theorem join_lines (kind : ReportKind) (project : String) (c : ClassFindings) :
    String.join (("" :: c.lines kind project).map (· ++ "\n")) =
      classText kind project c.className c.members := by
  rw [ClassFindings.lines, classText, List.map_cons, List.map_cons, List.map_map, String.join_cons,
    String.join_cons, String.empty_append]
  simp only [String.append_assoc]
  rfl

/-- The text of a section is that of its entries. -/
theorem render_append_lineFeed {s : Section} (ne : s.classes ≠ []) (project : String) :
    s.render project ++ "\n" = String.join
      (s.classes.map fun c ↦ classText s.kind project c.className c.members) := by
  rw [Section.render, intercalate_append_lineFeed]
  · generalize s.classes = cs
    induction cs with
    | nil => rfl
    | cons c cs ih =>
      rw [List.flatMap_cons, List.map_append, String.join_append, ih, join_lines, List.map_cons,
        String.join_cons]
  · obtain ⟨c, hc⟩ := List.exists_mem_of_ne_nil _ ne
    exact List.ne_nil_of_mem (List.mem_flatMap.2 ⟨c, hc, List.mem_cons_self⟩)

namespace Report

/-- There is one text for each kind.  With a line feed put behind it, it is the texts of the
classes of that kind. -/
theorem render_ofFindings (fs : List Finding) (project : String) :
    ((ofFindings fs).render project).map (· ++ "\n") =
      (ofFindings fs).kinds.map fun kind ↦
        String.join (((ofFindings fs).classes kind).map fun className ↦
          classText kind project className ((ofFindings fs).members kind className)) := by
  rw [render, kinds, List.map_map, List.map_map]
  refine List.map_congr_left fun s hs ↦ ?_
  have sorted := sorted_ofFindings fs
  rw [Function.comp_apply, Function.comp_apply,
    render_append_lineFeed (filled_ofFindings fs s hs).1, classes, findings_of_mem sorted hs,
    List.map_map]
  refine congrArg String.join (List.map_congr_left fun c hc ↦ ?_)
  rw [Function.comp_apply, members_of_mem sorted hs (nodup_classes fs s.kind) hc]

/-- A report groups its findings and loses none, whatever their order: the kinds that occur,
ascending, for each kind its classes in the order of their first use, and for each class under a
kind its members in their order.  It has as many members as there are findings, and no section
or class without any. -/
theorem report_groups_findings (fs : List Finding) :
    let report := ofFindings fs
    (report.kinds.Pairwise (fun k l ↦ k.rank < l.rank) ∧
      ∀ kind, kind ∈ report.kinds ↔ ∃ f ∈ fs, f.kind = kind) ∧
    (∀ kind, report.classes kind =
      ((fs.filter (·.kind = kind)).map Finding.className).eraseDups) ∧
    (∀ kind className, report.members kind className =
      (fs.filter fun f ↦ f.kind = kind ∧ f.className = className).map Finding.member) ∧
    report.size = fs.length ∧
    (report.isEmpty = true ↔ fs = []) ∧
    report.Filled ∧
    ∀ project, (report.render project).map (· ++ "\n") = report.kinds.map fun kind ↦
      String.join ((report.classes kind).map fun className ↦
        classText kind project className (report.members kind className)) :=
  ⟨⟨pairwise_kinds (sorted_ofFindings fs), fun _ ↦ mem_kinds_ofFindings⟩, classes_ofFindings fs,
    members_ofFindings fs, size_ofFindings fs, isEmpty_ofFindings fs, filled_ofFindings fs,
    render_ofFindings fs⟩

example : (ofFindings [⟨.unreachableMembers, "a.C", "K"⟩, ⟨.missingMembers, "a.D", "K"⟩,
      ⟨.missingMembers, "a.C", "m()"⟩, ⟨.missingMembers, "a.D", "n(int)"⟩]).render "forge" =
    ["\nMissing members in 'forge' @ a.D\n * K\n * n(int)\n" ++
      "\nMissing members in 'forge' @ a.C\n * m()",
      "\nUnreachable members in 'forge' @ a.C\n * K"] := by
  decide +kernel

end Report

end PlatformOverlay.Check
