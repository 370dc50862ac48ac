import PlatformOverlay.Merge.Pass
import PlatformOverlay.Proofs.Model.Visit

/-!
# Taking overwrite marks away

The overwriting pass takes the marks of a class away together with those in nested types before the
visit reaches them, so what it leaves to the visit is neither the old type nor the new one.  Both
have the same `clearOverwrites`, and that is also what the whole visit makes of a type
(`visit_overwrite`).

Stripping has two results. Its fault is that of the class or of a nested type that it pairs
(`fault_stripOverwrites`), found by going through the members as any visit does
(`stripMembers_eq_visitList`). Its value is described member by member in two steps: what happens to
a member in any case (`MemberStripped`), and what this means once the visit is through with the
nested types that had no counterpart (`MemberCleared`).
-/

namespace PlatformOverlay

namespace Java

namespace Item

@[simp] theorem removeMark_removeMark (item : Item) (mark : Mark) :
    (item.removeMark mark).removeMark mark = item.removeMark mark := by
  simp [removeMark, Mark.removeFrom]

/-- Nothing is taken off an item without the mark. -/
theorem removeMark_of_not_hasMark {item : Item} {mark : Mark} (h : item.hasMark mark = false) :
    item.removeMark mark = item := by
  have kept : mark.removeFrom item.annotations = item.annotations := by
    rw [Mark.removeFrom, List.filter_eq_self]
    intro a ha
    rw [hasMark, Mark.isAmong, List.any_eq_false] at h
    simpa using h a ha
  rw [removeMark, kept]

end Item

namespace TypeDecl

mutual

/-- The type with the overwrite marks of all items in it taken away. -/
def clearOverwrites : TypeDecl → TypeDecl
  | ⟨doc, annotations, modifiers, kind, name, typeParams, components, extending, implementing,
      permitting, enumConstants, members⟩ =>
    ⟨doc, annotations, modifiers, kind, name, typeParams, components, extending, implementing,
      permitting, enumConstants, clearMembers members⟩

def clearMembers : List Member → List Member
  | [] => []
  | m :: ms => clearMember m :: clearMembers ms

def clearMember : Member → Member
  | .item i => .item (i.removeMark .overwrite)
  | .type t => .type (clearOverwrites t)

end

theorem clearMembers_eq_map (ms : List Member) : clearMembers ms = ms.map clearMember := by
  induction ms with
  | nil => rfl
  | cons m ms ih => rw [clearMembers, ih, List.map_cons]

theorem clearOverwrites_eq (decl : TypeDecl) :
    decl.clearOverwrites = { decl with members := decl.members.map clearMember } := by
  cases decl
  rw [clearOverwrites, clearMembers_eq_map]

@[simp] theorem clearMember_item (i : Item) :
    clearMember (.item i) = .item (i.removeMark .overwrite) := rfl

@[simp] theorem clearMember_type (t : TypeDecl) :
    clearMember (.type t) = .type t.clearOverwrites := rfl

/-- Clearing keeps the depth, so that a visit that suffices still does. -/
theorem depth_clearOverwrites (decl : TypeDecl) : decl.clearOverwrites.depth = decl.depth := by
  induction decl using nestingInduction with
  | step decl ih =>
    have members : ∀ ms : List Member, (∀ t, .type t ∈ ms → t.clearOverwrites.depth = t.depth) →
        membersDepth (ms.map clearMember) = membersDepth ms := by
      intro ms
      induction ms with
      | nil => exact fun _ ↦ rfl
      | cons m ms ihm =>
        intro h
        have hm : memberDepth (clearMember m) = memberDepth m := by
          cases m with
          | item i => rfl
          | type t => exact h t List.mem_cons_self
        rw [List.map_cons, membersDepth, membersDepth, hm,
          ihm fun t ht ↦ h t (List.mem_cons_of_mem _ ht)]
    rw [depth_eq, depth_eq, clearOverwrites_eq]
    exact congrArg (· + 1) (members _ fun t ht ↦ ih t (mem_nestedTypes.2 ht))

end TypeDecl

end Java

namespace Merge

open Java Model
open TypeDecl (clearMember)

/-- Stripping the members is a visit, so that the lemmas about visits apply to it. -/
theorem stripMembers_eq_visitList (q : String) (common : TypeDecl) (ms : List Member) :
    stripMembers q common ms = visitList (fun _ m ↦ stripMember q common m) () ms := by
  induction ms with
  | nil => rfl
  | cons m ms ih =>
    rw [stripMembers, visitList, ih]
    cases (stripMember q common m).fault <;> rfl

variable {q : String} {common platform : TypeDecl}

/-- A class is stripped when its overwriting items have their targets and its members are
stripped. -/
theorem fault_stripOverwrites :
    (stripOverwrites q common platform).fault = none ↔ overwriteError? q platform common = none ∧
      (stripMembers q common platform.members).fault = none := by
  rw [stripOverwrites_eq]
  cases overwriteError? q platform common <;> simp

theorem value_stripOverwrites (h : (stripOverwrites q common platform).fault = none) :
    (stripOverwrites q common platform).value =
      { platform with members := (stripMembers q common platform.members).value } := by
  rw [stripOverwrites_eq, (fault_stripOverwrites.1 h).1]
  rfl

/-- What stripping makes of a member: a nested type is left to the visit unless the common
type has one of its name. -/
inductive MemberStripped (q : String) (common : TypeDecl) : Member → Member → Prop
  | item {i : Item} : MemberStripped q common (.item i) (.item (i.removeMark .overwrite))
  | kept {t : TypeDecl} : MemberStripped q common (.type t) (.type t)
  | stripped {t inner : TypeDecl} : common.nestedType? t.name = some inner →
      (stripOverwrites (nestedName q t.name) inner t).fault = none →
      MemberStripped q common (.type t)
        (.type (stripOverwrites (nestedName q t.name) inner t).value)

theorem members_stripped (h : (stripOverwrites q common platform).fault = none) :
    List.Forall₂ (MemberStripped q common) platform.members
      (stripOverwrites q common platform).value.members := by
  have hm := (fault_stripOverwrites.1 h).2
  rw [value_stripOverwrites h]
  rw [stripMembers_eq_visitList] at hm ⊢
  refine forall₂_visitList hm fun m mem _ hf ↦ ?_
  cases m with
  | item i => exact .item
  | type t =>
    unfold stripMember at hf ⊢
    split at hf
    next inner hi => exact .stripped hi hf
    next => exact .kept

/-- The members are the same but for overwrite marks, and the items have none any more. -/
inductive MemberCleared : Member → Member → Prop
  | item {i : Item} : MemberCleared (.item i) (.item (i.removeMark .overwrite))
  | type {t t' : TypeDecl} : t'.clearOverwrites = t.clearOverwrites →
      MemberCleared (.type t) (.type t')

/-- Members that were cleared in part are cleared to the same. -/
theorem map_clearMember {ms ms' : List Member} (h : List.Forall₂ MemberCleared ms ms') :
    ms'.map clearMember = ms.map clearMember := by
  induction h with
  | nil => rfl
  | cons h _ ih =>
    rw [List.map_cons, List.map_cons, ih]
    cases h with
    | item => simp
    | type h => simp [h]

/-- A member of the stripped class has been cleared, or it is a nested type that has been
cleared in part: its own nested types without a counterpart are left alone. -/
theorem members_cleared (h : (stripOverwrites q common platform).fault = none) :
    List.Forall₂ MemberCleared platform.members
      (stripOverwrites q common platform).value.members := by
  induction platform using TypeDecl.nestingInduction generalizing q common with
  | step platform ih =>
    have located := (List.forall₂_and_left _ _).2 ⟨fun _ hm ↦ hm, members_stripped h⟩
    refine located.imp fun m m' ⟨mem, hm⟩ ↦ ?_
    cases hm with
    | item => exact .item
    | kept => exact .type rfl
    | @stripped t inner hi hf =>
      refine .type ?_
      have := map_clearMember (ih t (TypeDecl.mem_nestedTypes.2 mem) hf)
      rw [TypeDecl.clearOverwrites_eq, TypeDecl.clearOverwrites_eq t, this,
        value_stripOverwrites hf]

end Merge

end PlatformOverlay
