import PlatformOverlay.Proofs.Check.Validate

/-!
# A validation reports exactly what is wrong

`offences` says what is wrong with a platform class item by item of its common counterpart, in terms
of signatures, access and staticness alone.  Where the qualified names of the common model are
pairwise distinct, the report of a validation holds just these, class by class in model order, and
the targets that no platform class overwrites (`validate_reports_exactly`).

Of the members of a common class, each section lists those to which one thing has happened:

| section | items | because |
| --- | --- | --- |
| missing members | of the common class | public, no constant, and not declared (`IsMissing`) |
| unreachable members | of the common class | a public constant, and declared again (`IsHidden`) |
| more restrictive access | of the platform class | the first match of an item, less accessible |
| access kind mismatch | of the platform class | the first match of an item, one of them static |
| missing overwrites | none | a target is a class, and has one entry with its own name |

What a match is (`SameMember`) is said by signatures only, so an initializer matches nothing.

The checks are written in another way, by look-ups and lists of overrides; `violations_eq` says that
they come to the same for one class. What is left is the way of the findings into the report, where
different names keep the classes apart (`members_validate_of_mem`, `members_validate_of_not_mem`).
-/

namespace PlatformOverlay.Check

open Java Model

/-! ## What is wrong with a class -/

/-- The items of two classes are the same member: they have the same signature. -/
def SameMember (platform common : TypeDecl) (i j : Item) : Prop :=
  ∃ signature, i.signature? common = some signature ∧ j.signature? platform = some signature

/-- The test that the check makes: a signature on the common side, and the same one on the
other. -/
theorem sameMember_iff {platform common : TypeDecl} {i j : Item} :
    SameMember platform common i j ↔
      (i.signature? common).isSome ∧ j.signature? platform = i.signature? common := by
  unfold SameMember
  cases i.signature? common <;> simp

instance (platform common : TypeDecl) (i j : Item) : Decidable (SameMember platform common i j) :=
  decidable_of_iff _ sameMember_iff.symm

/-- A field, method or constructor, which is to say no initializer, that is public and no constant,
and that the platform class does not declare. -/
def IsMissing (platform common : TypeDecl) (i : Item) : Prop :=
  i.isInitializer = false ∧ i.access common = .pub ∧ ¬i.isPublicConstant common ∧
    ∀ j ∈ platform.items, ¬SameMember platform common i j

/-- A public constant that the platform class declares again. -/
def IsHidden (platform common : TypeDecl) (i : Item) : Prop :=
  i.isPublicConstant common ∧ ∃ j ∈ platform.items, SameMember platform common i j

instance (platform common : TypeDecl) (i : Item) : Decidable (IsMissing platform common i) :=
  inferInstanceAs (Decidable (_ ∧ _))

instance (platform common : TypeDecl) (i : Item) : Decidable (IsHidden platform common i) :=
  inferInstanceAs (Decidable (_ ∧ _))

/-- The items of the platform class that are the members of the common class but for which
`bad` holds, in the order of the latter. -/
def matchedItems (bad : Item → Item → Prop) [∀ i j, Decidable (bad i j)]
    (platform common : TypeDecl) : List Item :=
  common.items.filterMap fun i ↦
    (platform.items.find? (SameMember platform common i ·)).filter fun j ↦ bad i j

/-- The descriptors of what is wrong with a platform class. -/
def offences (platform common : ClassRef) : ReportKind → List String
  | .missingMembers =>
      (common.decl.items.filter fun i ↦ IsMissing platform.decl common.decl i).map
        (·.describe common.relative common.decl)
  | .unreachableMembers =>
      (common.decl.items.filter fun i ↦ IsHidden platform.decl common.decl i).map
        (·.describe common.relative common.decl)
  | .moreRestrictiveAccess =>
      (matchedItems (fun i j ↦ j.access platform.decl < i.access common.decl)
        platform.decl common.decl).map (·.describe platform.relative platform.decl)
  | .accessKindMismatch =>
      (matchedItems (fun i j ↦ j.isStatic platform.decl ≠ i.isStatic common.decl)
        platform.decl common.decl).map (·.describe platform.relative platform.decl)
  | .missingOverwrites => []

/-! ## The checks find it -/

section offences

variable {platform common : TypeDecl} {i : Item}

/-- The counterpart of an item is the first item of the platform class that is the same member. -/
theorem counterpart?_eq_find? :
    platform.counterpart? common i = platform.items.find? (SameMember platform common i ·) := by
  rw [TypeDecl.counterpart?]
  cases hs : i.signature? common with
  | none =>
    symm
    rw [Option.bind_none, List.find?_eq_none]
    intro j _ same
    have := (sameMember_iff.1 (of_decide_eq_true same)).1
    simp [hs] at this
  | some signature =>
    rw [Option.bind_some, TypeDecl.itemWith?]
    congr 1
    funext j
    simp [sameMember_iff, hs]

/-- An item is declared when some item of the platform class is the same member. -/
theorem declares_iff :
    platform.declares common i = true ↔ ∃ j ∈ platform.items, SameMember platform common i j := by
  rw [TypeDecl.declares, counterpart?_eq_find?, List.find?_isSome]
  simp

/-- The test that the check makes: structural items are those that are no initializers. -/
theorem isMissing_iff : IsMissing platform common i ↔
    (i.isStructural common && i.access common = .pub && !i.isPublicConstant common) = true ∧
      (!platform.declares common i) = true := by
  have declared : (!platform.declares common i) = true ↔
      ∀ j ∈ platform.items, ¬SameMember platform common i j := by
    rw [Bool.not_eq_true', ← Bool.not_eq_true, declares_iff]
    simp only [not_exists, not_and]
  rw [IsMissing, declared, ← @Item.isSome_signature? i common, Item.isStructural]
  simp only [Bool.and_eq_true, decide_eq_true_eq, Bool.not_eq_true', Bool.not_eq_true, and_assoc]

/-- The items that override a member badly are the matched ones, in the order of the common
class. -/
theorem map_child_overrides (bad : TypeDecl → TypeDecl → Override → Bool) :
    ((overrides platform common).filter (bad platform common)).map Override.child =
      matchedItems (fun i j ↦ bad platform common ⟨i, j⟩) platform common := by
  unfold overrides matchedItems TypeDecl.structuralItems
  rw [List.filterMap_filter, List.filter_filterMap, List.map_filterMap]
  refine List.filterMap_congr fun i _ ↦ ?_
  rw [counterpart?_eq_find?]
  cases hf : platform.items.find? (SameMember platform common i ·) with
  | none => simp
  | some j =>
    have same : SameMember platform common i j := by simpa using List.find?_some hf
    have structural : i.isStructural common = true := (sameMember_iff.1 same).1
    by_cases h : bad platform common ⟨i, j⟩ <;> simp [structural, h, Option.filter]

end offences

/-- What the check finds wrong with a class is what the specification says. -/
theorem violations_eq (platform common : ClassRef) (kind : ReportKind) :
    violations platform common kind = offences platform common kind := by
  have overridden (bad : TypeDecl → TypeDecl → Override → Bool) :
      badOverrides bad platform common =
        (matchedItems (fun i j ↦ bad platform.decl common.decl ⟨i, j⟩) platform.decl
          common.decl).map (·.describe platform.relative platform.decl) := by
    rw [← map_child_overrides, List.map_map]
    rfl
  cases kind with
  | missingMembers =>
    refine congrArg (List.map _) ?_
    rw [TypeDecl.publicItems, List.filter_filter]
    refine List.filter_congr fun i _ ↦ ?_
    rw [Bool.eq_iff_iff, decide_eq_true_iff, isMissing_iff, Bool.and_eq_true, and_comm]
  | unreachableMembers =>
    refine congrArg (List.map _) ?_
    rw [TypeDecl.publicConstants, List.filter_filter]
    refine List.filter_congr fun i _ ↦ ?_
    rw [Bool.eq_iff_iff, decide_eq_true_iff, Bool.and_eq_true, declares_iff, and_comm, IsHidden]
  | moreRestrictiveAccess =>
    refine (overridden Override.restricts).trans ?_
    simp [offences, Override.restricts]
  | accessKindMismatch =>
    refine (overridden Override.changesKind).trans ?_
    simp [offences, Override.changesKind]
  | missingOverwrites => rfl

/-! ## The report -/

/-- The findings about a class have its own name. -/
theorem member_classFindings (common : CommonClasses) (c : ClassRef) (kind : ReportKind)
    (q : String) :
    ((classFindings common c).filter fun f ↦ f.kind = kind ∧ f.className = q).map Finding.member =
      if c.qualified = q then ((common.find? q).map (violations c · kind)).getD [] else [] := by
  unfold classFindings
  by_cases hq : c.qualified = q
  · subst hq
    rw [if_pos rfl]
    cases common.find? c.qualified with
    | none => rfl
    | some parent =>
      cases kind <;>
        simp [ReportKind.all, List.filter_map, Function.comp_def, violations]
  · rw [if_neg hq]
    cases common.find? c.qualified with
    | none => rfl
    | some parent =>
      rw [List.map_eq_nil_iff, List.filter_eq_nil_iff]
      intro f hf
      obtain ⟨k, -, hf⟩ := List.mem_flatMap.1 hf
      obtain ⟨member, -, rfl⟩ := List.mem_map.1 hf
      simp [hq]

theorem flatMap_ite {α β : Type} (p : α → Bool) (f : α → List β) (as : List α) :
    (as.flatMap fun a ↦ if p a then f a else []) = (as.filter p).flatMap f := by
  induction as with
  | nil => rfl
  | cons a as ih => by_cases h : p a <;> simp [h, ih]

/-- What is reported for the classes of one name, in the order in which they are declared. -/
theorem members_validate (common : CommonClasses) (model : SourceModel) (kind : ReportKind)
    (q : String) : (validate common model).members kind q =
      ((model.classes.filter (·.qualified = q)).flatMap fun c ↦
        ((common.find? q).map (violations c · kind)).getD []) ++
      ((targetFindings common (model.classes.map ClassRef.qualified)).filter
        fun f ↦ f.kind = kind ∧ f.className = q).map Finding.member := by
  rw [validate_eq, Report.members_ofFindings, List.filter_append, List.map_append,
    List.filter_flatMap, List.map_flatMap, ← flatMap_ite]
  simp only [member_classFindings, decide_eq_true_eq]

/-- With different names, a class is the only one of its name. -/
theorem filter_qualified {classes : List ClassRef}
    (distinct : (classes.map ClassRef.qualified).Nodup)
    {c : ClassRef} (hc : c ∈ classes) : classes.filter (·.qualified = c.qualified) = [c] := by
  obtain ⟨before, after, rfl⟩ := List.append_of_mem hc
  rw [List.map_append, List.map_cons, List.nodup_append, List.nodup_cons] at distinct
  have front : before.filter (·.qualified = c.qualified) = [] := by
    rw [List.filter_eq_nil_iff]
    intro d hd same
    exact distinct.2.2 _ (List.mem_map_of_mem hd) _ List.mem_cons_self (of_decide_eq_true same)
  have behind : after.filter (·.qualified = c.qualified) = [] := by
    rw [List.filter_eq_nil_iff]
    intro d hd same
    exact distinct.2.1.1 (of_decide_eq_true same ▸ List.mem_map_of_mem hd)
  simp [front, behind]

/-- The report says of every class what is wrong with it and of every target whether it is
missing; it says nothing else and has no empty entries. -/
structure ReportsExactly (common platform : SourceModel) (report : Report) : Prop where
  checks : ∀ parent ∈ common.classes, ∀ kind, kind ≠ .missingOverwrites →
    report.members kind parent.qualified =
      (platform.classes.filter (·.qualified = parent.qualified)).flatMap (offences · parent kind)
  targets : ∀ target ∈ common.classes, report.members .missingOverwrites target.qualified =
    if target.decl.hasMark .overwriteTarget ∧
        ∀ c ∈ platform.classes, c.qualified ≠ target.qualified
    then [target.relative] else []
  nothing_else : ∀ kind q, (∀ c ∈ common.classes, c.qualified ≠ q) → report.members kind q = []
  no_empty_entry : ∀ kind q, q ∈ report.classes kind ↔ report.members kind q ≠ []
  no_empty_section : ∀ kind ∈ report.kinds, report.classes kind ≠ []
  isEmpty_iff : report.isEmpty = true ↔ ∀ parent ∈ common.classes,
    (∀ c ∈ platform.classes, c.qualified = parent.qualified → ∀ kind, offences c parent kind = []) ∧
    (parent.decl.hasMark .overwriteTarget → ∃ c ∈ platform.classes, c.qualified = parent.qualified)

section validate

variable {common platform : SourceModel}

/-- The entry for a common class lists what is wrong with the platform classes of its name. -/
theorem members_validate_of_mem (distinct : common.DistinctNames) {parent : ClassRef}
    (hp : parent ∈ common.classes) {kind : ReportKind} (hk : kind ≠ .missingOverwrites) :
    (validate (.ofModel common) platform).members kind parent.qualified =
      (platform.classes.filter (·.qualified = parent.qualified)).flatMap
        (offences · parent kind) := by
  have targets :
      ((targetFindings (.ofModel common) (platform.classes.map ClassRef.qualified)).filter
        fun f ↦ f.kind = kind ∧ f.className = parent.qualified) = [] := by
    rw [List.filter_eq_nil_iff]
    intro f hf
    obtain ⟨target, -, rfl⟩ := List.mem_map.1 hf
    simp [hk.symm]
  rw [members_validate, targets, CommonClasses.find?_of_mem distinct hp]
  simp [violations_eq]

/-- The entry for a target has its name, if no platform class has it. -/
theorem missingOverwrites_validate (distinct : common.DistinctNames) {target : ClassRef}
    (ht : target ∈ common.classes) :
    (validate (.ofModel common) platform).members .missingOverwrites target.qualified =
      if target.decl.hasMark .overwriteTarget ∧
          ∀ c ∈ platform.classes, c.qualified ≠ target.qualified
      then [target.relative] else [] := by
  have classes : ((platform.classes.filter (·.qualified = target.qualified)).flatMap fun c ↦
      (((CommonClasses.ofModel common).find? target.qualified).map
        (violations c · .missingOverwrites)).getD []) = [] := by
    rw [CommonClasses.find?_of_mem distinct ht]
    simp [violations]
  have one (p : ClassRef → Bool) :
      (common.classes.filter fun c ↦ decide (c.qualified = target.qualified) && p c) =
        [target].filter p := by
    rw [← filter_qualified distinct ht, List.filter_filter]
    simp only [Bool.and_comm]
  rw [members_validate, classes, targetFindings, CommonClasses.targets_eq distinct,
    List.filter_filter,
    List.filter_map, List.filter_filter]
  simp only [Function.comp_def, true_and]
  rw [one, List.nil_append]
  by_cases missing : target.decl.hasMark .overwriteTarget ∧
      ∀ c ∈ platform.classes, c.qualified ≠ target.qualified
  · rw [if_pos missing, List.filter_cons_of_pos (by simpa [and_comm, imp_not_comm] using missing)]
    rfl
  · rw [if_neg missing, List.filter_cons_of_neg (by simpa [and_comm, imp_not_comm] using missing)]
    rfl

/-- There are no entries for names that no common class has. -/
theorem members_validate_of_not_mem {kind : ReportKind} {q : String}
    (hq : ∀ c ∈ common.classes, c.qualified ≠ q) :
    (validate (.ofModel common) platform).members kind q = [] := by
  have none : (CommonClasses.ofModel common).find? q = none := by
    cases hf : (CommonClasses.ofModel common).find? q with
    | none => rfl
    | some c =>
      obtain ⟨hc, e⟩ := CommonClasses.mem_of_find? hf
      exact absurd e (hq c hc)
  rw [List.eq_nil_iff_forall_not_mem]
  intro member hm
  rcases mem_members_validate.1 hm with ⟨c, -, -, parent, hp, -⟩ | ⟨-, -, target, ht, e, -⟩
  · rw [none] at hp
    cases hp
  · obtain ⟨name, -, hn⟩ := List.mem_filterMap.1 ht
    obtain ⟨hc, -⟩ := CommonClasses.mem_of_find? hn
    exact hq target hc e

/-- The report of a validation holds exactly what is wrong with the platform classes: nothing
is missed and nothing is made up. -/
theorem validate_reports_exactly (distinct : common.DistinctNames) :
    ReportsExactly common platform (validate (.ofModel common) platform) := by
  have sorted : (validate (.ofModel common) platform).Sorted := by
    rw [validate_eq]
    exact Report.sorted_ofFindings _
  have filled : (validate (.ofModel common) platform).Filled := by
    rw [validate_eq]
    exact Report.filled_ofFindings _
  refine ⟨fun parent hp kind hk ↦ members_validate_of_mem distinct hp hk,
    fun target ht ↦ missingOverwrites_validate distinct ht,
    fun kind q hq ↦ members_validate_of_not_mem hq,
    fun kind q ↦ (Report.members_ne_nil_iff filled).symm,
    fun kind ↦ Report.classes_ne_nil sorted filled, ?_⟩
  rw [Report.isEmpty_iff sorted filled]
  constructor
  · intro empty parent hp
    refine ⟨fun c hc same kind ↦ ?_, fun marked ↦ ?_⟩
    · by_cases hk : kind = .missingOverwrites
      · rw [hk]
        rfl
      have := empty kind parent.qualified
      rw [members_validate_of_mem distinct hp hk, List.flatMap_eq_nil_iff] at this
      exact this c (List.mem_filter.2 ⟨hc, decide_eq_true same⟩)
    · by_contra absent
      have := empty .missingOverwrites parent.qualified
      rw [missingOverwrites_validate distinct hp, if_pos ⟨marked, by simpa using absent⟩] at this
      cases this
  · intro fine kind q
    by_cases known : ∃ parent ∈ common.classes, parent.qualified = q
    · obtain ⟨parent, hp, rfl⟩ := known
      by_cases hk : kind = .missingOverwrites
      · subst hk
        rw [missingOverwrites_validate distinct hp, if_neg]
        rintro ⟨marked, absent⟩
        obtain ⟨c, hc, same⟩ := (fine parent hp).2 marked
        exact absent c hc same
      · rw [members_validate_of_mem distinct hp hk, List.flatMap_eq_nil_iff]
        intro c hc
        obtain ⟨hc, same⟩ := List.mem_filter.1 hc
        exact (fine parent hp).1 c hc (of_decide_eq_true same) kind
    · exact members_validate_of_not_mem fun c hc e ↦ known ⟨c, hc, e⟩

/-- A method without parameters and body. -/
def methodOf (modifiers : List Modifier) (name : String) : Item :=
  ⟨none, [], .ofList modifiers, .method ⟨none, "void", name, [], none, none, none⟩⟩

/-- A common class with two public methods, one of which the platform class narrows and the
other it does not declare. -/
def narrowedCommon : TypeDecl :=
  { TypeDecl.bare .classType "C" with
    members := [.item (methodOf [.pub] "f"), .item (methodOf [.pub] "g")] }

def narrowingPlatform : TypeDecl :=
  { TypeDecl.bare .classType "C" with members := [.item (methodOf [.prot, .static] "f")] }

/-- The report about them: the one method is missing, the other one is narrowed and has become
static. -/
def narrowingReport : Report :=
  ⟨[⟨.missingMembers, [⟨"C", ["g()"]⟩]⟩, ⟨.moreRestrictiveAccess, [⟨"C", ["f()"]⟩]⟩,
    ⟨.accessKindMismatch, [⟨"C", ["f()"]⟩]⟩]⟩

theorem validate_reports_exactly_narrowed :
    (SourceModel.ofType narrowedCommon).DistinctNames ∧
      validate (.ofModel (.ofType narrowedCommon)) (.ofType narrowingPlatform) = narrowingReport ∧
      ReportsExactly (.ofType narrowedCommon) (.ofType narrowingPlatform) narrowingReport := by
  have distinct : (SourceModel.ofType narrowedCommon).DistinctNames := by decide +kernel
  have content : validate (.ofModel (.ofType narrowedCommon)) (.ofType narrowingPlatform) =
      narrowingReport := by decide +kernel
  exact ⟨distinct, content, content ▸ validate_reports_exactly distinct⟩

end validate

end PlatformOverlay.Check
