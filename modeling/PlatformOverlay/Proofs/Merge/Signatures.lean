import PlatformOverlay.Proofs.Check.Exactness
import PlatformOverlay.Proofs.Merge.Preservation

/-!
# Grafting unites signatures

A class that takes in what it lacks of its counterpart has the signatures of both, each once
(`signatures_graftItems`), and lacks nothing any more, so that grafting again does nothing
(`graftItems_graftItems`).  A signature depends on the class that declares the member in one way: a
compact constructor takes the components of its record.  So a compact constructor that is grafted
has to find the same components there (`CompactAgree`); into a record with others it comes with
another signature, and the class still lacks the one it had (`exists_signature_lost`).

Grafting is followed to the end of the visit. Two passes graft items and do so in the same way
(`apply_of_grafts`), and what the visit goes on to do with nested types leaves the items of the
class alone (`visitDecl_of_grafts`). So `inherits_union_of_signatures` speaks of what a class is
when the pass is through with it, and of what validation has to say about it then.

Only fields, methods and constructors have a signature. Initializers are grafted by whether they are
static (`Lacks`) and do not count here.
-/

namespace PlatformOverlay

namespace Java

/-- Is the item a constructor that takes the components of its record? -/
def Item.isCompact (item : Item) : Bool :=
  match item.content with
  | .constructor c => c.compact
  | .field _ | .method _ | .initializer _ => false

namespace TypeDecl

/-- The signatures of the fields, methods and constructors, in declaration order. -/
def signatures (decl : TypeDecl) : List Signature := decl.items.filterMap (·.signature? decl)

theorem mem_signatures {decl : TypeDecl} {s : Signature} :
    s ∈ decl.signatures ↔ ∃ i ∈ decl.items, i.signature? decl = some s := List.mem_filterMap

/-- Signatures depend on the items and on the record components. -/
theorem signatures_congr {d e : TypeDecl} (items : e.items = d.items)
    (components : e.components = d.components) : e.signatures = d.signatures := by
  rw [signatures, signatures, items]
  exact List.filterMap_congr fun i _ ↦ Item.signature?_congr rfl components

end TypeDecl

end Java

namespace Merge

open Java Model

/-- A compact constructor that the platform class lacks would have the same erased parameters
there as in the common class. -/
def CompactAgree (platform common : TypeDecl) : Prop :=
  ∀ i ∈ common.items, i.isCompact = true → Lacks platform common i →
    eraseParams none platform.components = eraseParams none common.components

section graft

variable {platform common : TypeDecl} {i : Item}

/-- A compact constructor has the signature of the components. -/
theorem signature?_of_isCompact (compact : i.isCompact = true) (owner : TypeDecl) :
    i.signature? owner = some (.constructor (eraseParams none owner.components)) := by
  unfold Item.isCompact at compact
  split at compact
  next c hc => simp [Item.signature?, hc, compact]
  all_goals cases compact

/-- Only the signature of a compact constructor depends on its owner. -/
theorem signature?_of_components
    (h : i.isCompact = true →
      eraseParams none platform.components = eraseParams none common.components) :
    i.signature? platform = i.signature? common := by
  cases compact : i.isCompact with
  | true =>
    rw [signature?_of_isCompact compact, signature?_of_isCompact compact, h compact]
  | false =>
    rw [Item.isCompact] at compact
    rw [Item.signature?, Item.signature?]
    split <;> simp_all

/-- A lacking item has the same signature in both classes: only that of a compact constructor
could differ. -/
theorem CompactAgree.signature? (agree : CompactAgree platform common) (hi : i ∈ common.items)
    (lacking : Lacks platform common i) : i.signature? platform = i.signature? common :=
  signature?_of_components fun compact ↦ agree i hi compact lacking

/-! ## The items after grafting -/

/-- The items afterwards are those of the class and the renamed missing ones, apart from their
order. -/
theorem items_graftItems : (graftItems platform common).items.Perm
    (platform.items ++ (missingItems platform common).map (renameConstructor platform.name)) := by
  obtain ⟨missing, hm⟩ : ∃ missing, missing = missingItems platform common := ⟨_, rfl⟩
  obtain ⟨front, behind, parts, inserted, -, -⟩ :=
    insertFields_eq ((missing.filter Item.isField).map .item) platform.members
  have fields : (missing.filter Item.isField).map (renameConstructor platform.name) =
      missing.filter Item.isField :=
    (List.map_congr_left fun i hi ↦
      renameConstructor_of_isField _ i (List.mem_filter.1 hi).2).trans (List.map_id _)
  have own : platform.items = front.filterMap Member.item? ++ behind.filterMap Member.item? := by
    rw [TypeDecl.items, parts, List.filterMap_append]
  have grafted : (graftItems platform common).items = front.filterMap Member.item? ++
      missing.filter Item.isField ++ behind.filterMap Member.item? ++
        (missing.filter fun i ↦ !i.isField).map (renameConstructor platform.name) := by
    simp [TypeDecl.items, graftItems, ← hm, inserted, List.filterMap_map, Function.comp_def]
  have both := (List.filter_append_perm Item.isField missing).map (renameConstructor platform.name)
  rw [List.map_append, fields] at both
  rw [grafted, own, ← hm]
  refine List.Perm.trans ?_ (both.append_left _)
  simp only [List.append_assoc]
  refine List.Perm.append_left _ ?_
  rw [← List.append_assoc, ← List.append_assoc]
  exact List.perm_append_comm.append_right _

@[simp] theorem components_graftItems :
    (graftItems platform common).components = platform.components := rfl

/-- What the class has after grafting: its own signatures and those of what it lacked. -/
theorem signatures_graftItems (agree : CompactAgree platform common) :
    (graftItems platform common).signatures.Perm
      (platform.signatures ++ (missingItems platform common).filterMap (·.signature? common)) := by
  have grafted : (graftItems platform common).signatures.Perm
      ((platform.items ++ (missingItems platform common).map
        (renameConstructor platform.name)).filterMap
        (·.signature? platform)) := items_graftItems.filterMap _
  rw [List.filterMap_append, List.filterMap_map] at grafted
  have moved : (missingItems platform common).filterMap
      ((·.signature? platform) ∘ renameConstructor platform.name) =
        (missingItems platform common).filterMap (·.signature? common) :=
    List.filterMap_congr fun i hi ↦ by
      obtain ⟨hc, lacking⟩ := mem_missingItems.1 hi
      rw [Function.comp_apply, signature?_renameConstructor, agree.signature? hc lacking]
  rw [moved] at grafted
  exact grafted

/-- No signature is repeated, since a missing item has a signature that no other has. -/
theorem nodup_signatures_graftItems (agree : CompactAgree platform common)
    (own : platform.signatures.Nodup) (other : common.signatures.Nodup) :
    (graftItems platform common).signatures.Nodup := by
  refine (signatures_graftItems agree).nodup_iff.2 (List.nodup_append.2 ⟨own, ?_, ?_⟩)
  · exact other.sublist (List.filter_sublist.filterMap _)
  · rintro s hs _ hs' rfl
    obtain ⟨i, hi, is_s⟩ := List.mem_filterMap.1 hs'
    obtain ⟨j, hj, js⟩ := TypeDecl.mem_signatures.1 hs
    have lacking := (mem_missingItems.1 hi).2
    simp only [Lacks, is_s] at lacking
    exact lacking j hj js

/-- The signatures afterwards are those of both classes. -/
theorem mem_signatures_graftItems (agree : CompactAgree platform common) {s : Signature} :
    s ∈ (graftItems platform common).signatures ↔
      s ∈ platform.signatures ∨ s ∈ common.signatures := by
  rw [(signatures_graftItems agree).mem_iff, List.mem_append]
  refine or_congr_right' fun new ↦ ?_
  simp only [List.mem_filterMap, mem_missingItems, TypeDecl.mem_signatures, and_assoc]
  refine exists_congr fun i ↦ and_congr_right fun _ ↦ and_iff_right_of_imp fun is_s ↦ ?_
  simp only [Lacks, is_s]
  exact fun j hj js ↦ new (TypeDecl.mem_signatures.2 ⟨j, hj, js⟩)

/-! ## Nothing is lacking after grafting -/

theorem renamed_mem_graftItems (hi : i ∈ common.items) (lacking : Lacks platform common i) :
    renameConstructor platform.name i ∈ (graftItems platform common).items :=
  items_graftItems.mem_iff.2 (List.mem_append_right _
    (List.mem_map_of_mem (mem_missingItems.2 ⟨hi, lacking⟩)))

theorem mem_graftItems (hi : i ∈ platform.items) : i ∈ (graftItems platform common).items :=
  items_graftItems.mem_iff.2 (List.mem_append_left _ hi)

theorem not_lacks_graftItems (agree : CompactAgree platform common) (hi : i ∈ common.items) :
    ¬Lacks (graftItems platform common) common i := by
  intro lacks_still
  have lacking : Lacks platform common i :=
    lacks_still.of_items rfl fun j hj ↦ ⟨j, mem_graftItems hj, rfl, rfl⟩
  have there := renamed_mem_graftItems hi lacking
  have signature : (renameConstructor platform.name i).signature? (graftItems platform common) =
      i.signature? common := by
    rw [← agree.signature? hi lacking, signature?_renameConstructor]
    exact Item.signature?_congr rfl rfl
  unfold Lacks at lacks_still
  cases hs : i.signature? common with
  | none =>
    rw [hs] at lacks_still signature
    exact lacks_still _ there (Item.signature?_eq_none.1 signature)
      (congrArg Modifiers.isStatic (modifiers_renameConstructor platform.name i))
  | some s =>
    rw [hs] at lacks_still signature
    exact lacks_still _ there signature

/-- Where nothing is missing, nothing is grafted. -/
theorem graftItems_of_missingItems (h : missingItems platform common = []) :
    graftItems platform common = platform := by
  have unchanged : insertFields [] platform.members = platform.members := by
    obtain ⟨front, behind, parts, inserted, -, -⟩ := insertFields_eq [] platform.members
    rw [inserted, List.append_nil, ← parts]
  cases platform
  simp [graftItems, h, unchanged]

theorem missingItems_eq_nil {e : TypeDecl} (h : ∀ i ∈ common.items, ¬Lacks e common i) :
    missingItems e common = [] :=
  List.eq_nil_iff_forall_not_mem.2 fun i hi ↦
    h i (mem_missingItems.1 hi).1 (mem_missingItems.1 hi).2

/-- Grafting the same class again does nothing. -/
theorem graftItems_graftItems (agree : CompactAgree platform common) :
    graftItems (graftItems platform common) common = graftItems platform common :=
  graftItems_of_missingItems (missingItems_eq_nil fun _ hi ↦ not_lacks_graftItems agree hi)

end graft

/-! ## A pass that grafts -/

section pass

variable {common : CommonClasses} {pass : Pass} {scope : Scope} {emit : EmitSet} {d : TypeDecl}
  {c : ClassRef}

/-- Both passes that graft items leave the same items and components. -/
theorem apply_of_grafts (grafts : pass.grafts = true) (scope : Scope) (d other : TypeDecl) :
    (pass.apply scope other d).value.items = (graftItems d other).items ∧
      (pass.apply scope other d).value.components = d.components := by
  cases pass with
  | inheritMissingMembers => exact ⟨rfl, rfl⟩
  | inherit =>
    obtain ⟨_, _, _, _, eq⟩ := reparent_eq (graftTypes (graftItems d other) other) other
    have value : (Pass.inherit.apply scope other d).value =
        (reparent (graftTypes (graftItems d other) other) other).removeMark .inherit := rfl
    rw [value, eq]
    refine ⟨?_, rfl⟩
    simp [TypeDecl.items, TypeDecl.removeMark, graftTypes, List.filterMap_map, Function.comp_def]
  | overwriteClass => cases grafts
  | overwrite => cases grafts

/-- Visiting the members visits nested types, so that items stay as they are. -/
theorem items_visitList_member {f : Visitor EmitSet MergeError} {ms : List Member} :
    (visitList (visitMember f scope) emit ms).value.filterMap Member.item? =
      ms.filterMap Member.item? := by
  induction ms generalizing emit with
  | nil => rfl
  | cons m ms ih =>
    have head : (visitMember f scope emit m).value.item? = m.item? := by cases m <;> rfl
    rw [visitList]
    cases (visitMember f scope emit m).fault with
    | none => simp only [Visited.value_map, List.filterMap_cons, head, ih]
    | some e => simp only [List.filterMap_cons, head]

/-- The visit of the types in a class leaves the items of the class alone. -/
theorem visitDecl_of_grafts (grafts : pass.grafts = true) (treats : pass.treats d = true)
    (hc : common.find? scope.qualified = some c) (levels : Nat) :
    (visitDecl (pass.visit common) (levels + 1) scope emit d).value.items =
        (graftItems d c.decl).items ∧
      (visitDecl (pass.visit common) (levels + 1) scope emit d).value.components =
        d.components := by
  have ok : (pass.apply scope c.decl d).fault = none := by
    cases pass with
    | inheritMissingMembers => rfl
    | inherit => rfl
    | overwriteClass => cases grafts
    | overwrite => cases grafts
  have visit : pass.visit common scope emit d =
      ⟨(pass.apply scope c.decl d).value, emit.record scope, none⟩ := by
    simp [Pass.visit, treats, counterpart_eq_ok.2 hc, ok]
  obtain ⟨items, components⟩ := apply_of_grafts grafts scope d c.decl
  rw [visitDecl, visit, Visited.andThen_of_ok rfl]
  exact ⟨items_visitList_member.trans items, components⟩

open Check in
/-- A class that declares all items of its counterpart has no entry in the section for missing
members. -/
theorem members_validate_eq_nil {e : TypeDecl} (hc : common.find? scope.qualified = some c)
    (declared : ∀ i ∈ c.decl.structuralItems, e.declares c.decl i = true) {merged : SourceModel}
    (only : ∀ k ∈ merged.classes, k.qualified = scope.qualified → k.decl = e) :
    (validate common merged).members .missingMembers scope.qualified = [] := by
  rw [members_validate, List.append_eq_nil_iff, List.flatMap_eq_nil_iff]
  constructor
  · intro k hk
    obtain ⟨hk, same⟩ := List.mem_filter.1 hk
    have public_declared : ∀ i ∈ c.decl.publicItems, k.decl.declares c.decl i = true := by
      intro i hi
      rw [only k hk (of_decide_eq_true same)]
      obtain ⟨hi, structural⟩ := List.mem_filter.1 hi
      simp only [Bool.and_eq_true] at structural
      exact declared i (List.mem_filter.2 ⟨hi, structural.1.1⟩)
    rw [hc]
    simp only [Option.map_some, Option.getD_some, violations, missingMembers,
      List.map_eq_nil_iff, List.filter_eq_nil_iff]
    intro i hi
    simp [public_declared i hi]
  · rw [List.map_eq_nil_iff, List.filter_eq_nil_iff]
    intro f hf
    obtain ⟨target, -, rfl⟩ := List.mem_map.1 hf
    simp

/-- Where compact constructors find the components they had, a class that takes in what it lacks
comes to have the signatures of both classes, each once.  Every member of the common class then
has a match, validation reports none of them as missing, and there is nothing left to graft. -/
theorem inherits_union_of_signatures (grafts : pass.grafts = true) (treats : pass.treats d = true)
    (hc : common.find? scope.qualified = some c) (own : d.signatures.Nodup)
    (other : c.decl.signatures.Nodup) (agree : CompactAgree d c.decl) (levels : Nat) {e : TypeDecl}
    (he : e = (visitDecl (pass.visit common) (levels + 1) scope emit d).value) :
    e.signatures.Nodup ∧
      (∀ s, s ∈ e.signatures ↔ s ∈ d.signatures ∨ s ∈ c.decl.signatures) ∧
      (∀ i ∈ c.decl.structuralItems, e.declares c.decl i = true) ∧
      (∀ merged : SourceModel, (∀ k ∈ merged.classes, k.qualified = scope.qualified → k.decl = e) →
        (Check.validate common merged).members .missingMembers scope.qualified = []) ∧
      graftItems e c.decl = e := by
  obtain ⟨items, components⟩ :
    e.items = (graftItems d c.decl).items ∧ e.components = d.components := by
    rw [he]
    exact visitDecl_of_grafts grafts treats hc levels
  have signatures : e.signatures = (graftItems d c.decl).signatures :=
    TypeDecl.signatures_congr items components
  have union : ∀ s, s ∈ e.signatures ↔ s ∈ d.signatures ∨ s ∈ c.decl.signatures := fun s ↦ by
    rw [signatures, mem_signatures_graftItems agree]
  have declared : ∀ i ∈ c.decl.structuralItems, e.declares c.decl i = true := by
    intro i hi
    obtain ⟨hi, structural⟩ := List.mem_filter.1 hi
    obtain ⟨s, hs⟩ := Option.isSome_iff_exists.1 structural
    obtain ⟨j, hj, same⟩ := TypeDecl.mem_signatures.1
      ((union s).2 (.inr (TypeDecl.mem_signatures.2 ⟨i, hi, hs⟩)))
    exact Check.declares_iff.2 ⟨j, hj, s, hs, same⟩
  refine ⟨?_, union, declared, fun merged only ↦ members_validate_eq_nil hc declared only, ?_⟩
  · rw [signatures]
    exact nodup_signatures_graftItems agree own other
  · refine graftItems_of_missingItems (missingItems_eq_nil fun i hi lacks_still ↦ ?_)
    refine not_lacks_graftItems agree hi (lacks_still.of_items components.symm fun j hj ↦ ?_)
    exact ⟨j, items ▸ hj, rfl, rfl⟩

end pass

section counterexample

/-- A record with a compact constructor. -/
def compactCommon : TypeDecl :=
  { TypeDecl.bare .recordType "R" with
    components := [⟨none, "int", false, "a"⟩]
    members := [.item ⟨none, [], .ofList [.pub],
      .constructor ⟨none, "R", [], true, none, ⟨"{ }", 0⟩⟩⟩] }

/-- The record with another component. -/
def compactPlatform : TypeDecl :=
  { TypeDecl.bare .recordType "R" with
    annotations := [⟨"InheritMissingMembers", none⟩]
    components := [⟨none, "long", false, "a"⟩] }

/-- The compact constructor comes with the components of the platform record, so that the class
has not the signature that it lacked, and validation goes on to report it. -/
theorem exists_signature_lost :
    compactPlatform.signatures.Nodup ∧ compactCommon.signatures.Nodup ∧
      .constructor ["int"] ∈ compactCommon.signatures ∧
      (Pass.inheritMissingMembers.visit (.ofModel (.ofType compactCommon)) (.top 0 none "R") .empty
        compactPlatform).fault = none ∧
      .constructor ["int"] ∉ (Pass.inheritMissingMembers.visit (.ofModel (.ofType compactCommon))
        (.top 0 none "R") .empty compactPlatform).value.signatures ∧
      (Check.validate (.ofModel (.ofType compactCommon))
        (run (.ofModel (.ofType compactCommon)) (.ofType compactPlatform)).value).members
          .missingMembers "R" = ["R(int)"] := by
  decide +kernel

/-- The record with another name for its component. -/
def renamedPlatform : TypeDecl :=
  { compactPlatform with components := [⟨none, "int", false, "b"⟩] }

theorem inherits_union_of_signatures_record :
    let e := (visitDecl (Pass.inheritMissingMembers.visit (.ofModel (.ofType compactCommon))) 1
      (.top 0 none "R") .empty renamedPlatform).value
    e.signatures.Nodup ∧ .constructor ["int"] ∈ e.signatures ∧ graftItems e compactCommon = e := by
  have found :
    (CommonClasses.ofModel (.ofType compactCommon)).find? (Scope.top 0 none "R").qualified =
      some ⟨⟨0, 0, []⟩, .top 0 none "R", compactCommon,
        (SourceModel.ofType compactCommon).files[0]⟩ := rfl
  have grafts : Pass.inheritMissingMembers.grafts = true := rfl
  have treats : Pass.inheritMissingMembers.treats renamedPlatform = true := by decide +kernel
  have agree : CompactAgree renamedPlatform compactCommon := fun _ _ _ _ ↦ by decide +kernel
  obtain ⟨nodup, union, -, -, idle⟩ := inherits_union_of_signatures grafts treats found
    (by decide +kernel) (by decide +kernel) agree 0 rfl
  exact ⟨nodup, (union _).2 (.inr (by decide +kernel)), idle⟩

end counterexample

end Merge

end PlatformOverlay
