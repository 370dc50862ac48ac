import Mathlib.Data.List.Induction
import PlatformOverlay.Proofs.Merge.Pass

/-!
# What passes make of a type

`Overlaid common passes q d e` says what the passes make of the platform type `d`, whose qualified
name is `q`: the members of `d` are there in order, marks are taken away, and what is put behind
them, or as a field between them, is grafted.  A nested type that is grafted is visited by the pass
that grafts it and by the passes after it, and so is overlaid itself by these. The relation is
carried from class to class by a visit (`advances`) and from pass to pass by a run
(`runPasses_induction`, `overlaid_runPasses`).

Most of what is said of merged models comes from here, without another look at the passes. What one
more pass does to the members of a type:

| member before the pass | after it |
| --- | --- |
| an item of the platform | the same item, for the overwriting pass without its mark |
| a type of the platform | overlaid with one pass more (`Advances.nested`) |
| a graft of a pass before | a graft still (`Grafted.advance`) |
| none | a graft of this pass, visited by it too (`Grafts.grafted`) |

The last row is why the relation is an inductive one: a type that is grafted is put there before the
visit goes on to the nested types, and what it is afterwards has come out of a merge of its own,
with the passes from this one on.

The lemmas read the relation in both directions: what becomes of something in the platform
(`exists_nestedType`, `item_mem`), and where something comes from (`cases_item`,
`cases_nestedType`).
-/

namespace PlatformOverlay.Merge

open Java Model

namespace Pass

/-- The mark that the pass takes off a class. -/
def classMark? : Pass → Option Mark
  | .inheritMissingMembers => some .inheritMissingMembers
  | .inherit => some .inherit
  | .overwriteClass => some .overwriteClass
  | .overwrite => none

theorem classMark?_injective {a b : Pass} {mark : Mark} (ha : a.classMark? = some mark)
    (hb : b.classMark? = some mark) : a = b := by
  have := ha.trans hb.symm
  cases a <;> cases b <;> first | rfl | exact absurd this (by decide)

/-- Does the pass graft items? -/
def grafts : Pass → Bool
  | .inheritMissingMembers | .inherit => true
  | .overwriteClass | .overwrite => false

end Pass

/-- The annotations of a class after the passes. -/
def clearClass (passes : List Pass) (annotations : List Annotation) : List Annotation :=
  annotations.filter fun a ↦ !(passes.filterMap Pass.classMark?).any (·.isOn a)

/-- An item after the passes. -/
def clearItem (passes : List Pass) (item : Item) : Item :=
  if .overwrite ∈ passes then item.removeMark .overwrite else item

/-- A class with what the passes adopt for it from its counterpart. -/
def adopt (common : CommonClasses) (passes : List Pass) (q : String) (decl : TypeDecl) : TypeDecl :=
  if .inherit ∈ passes ∧ decl.hasMark .inherit then
    (common.find? q).elim decl fun c ↦ reparent decl c.decl
  else decl

mutual

inductive Overlaid (common : CommonClasses) : List Pass → String → TypeDecl → TypeDecl → Prop
  | mk {passes : List Pass} {q : String} {d : TypeDecl} {members : List Member} :
      OverlaidMembers common passes q d d.members members →
      Overlaid common passes q d { adopt common passes q d with
        annotations := clearClass passes d.annotations, members }

/-- The members of the type and what becomes of them. -/
inductive OverlaidMembers (common : CommonClasses) :
    List Pass → String → TypeDecl → List Member → List Member → Prop
  | rest {passes : List Pass} {q : String} {d : TypeDecl} {ms' : List Member} :
      (∀ m ∈ ms', Grafted common passes q d m) → OverlaidMembers common passes q d [] ms'
  | item {passes : List Pass} {q : String} {d : TypeDecl} {i : Item} {ms ms' : List Member} :
      OverlaidMembers common passes q d ms ms' →
      OverlaidMembers common passes q d (.item i :: ms) (.item (clearItem passes i) :: ms')
  | type {passes : List Pass} {q : String} {d t t' : TypeDecl} {ms ms' : List Member} :
      Overlaid common passes (nestedName q t.name) t t' →
      OverlaidMembers common passes q d ms ms' →
      OverlaidMembers common passes q d (.type t :: ms) (.type t' :: ms')
  | field {passes : List Pass} {q : String} {d : TypeDecl} {m : Member} {ms ms' : List Member} :
      Grafted common passes q d m → isFieldMember m → OverlaidMembers common passes q d ms ms' →
      OverlaidMembers common passes q d ms (m :: ms')

/-- The member was grafted into the type by one of the passes. -/
inductive Grafted (common : CommonClasses) : List Pass → String → TypeDecl → Member → Prop
  | item {before after : List Pass} {pass : Pass} {q : String} {d : TypeDecl} {c : ClassRef}
      {i : Item} : pass.grafts → pass.treats d → common.find? q = some c → i ∈ c.decl.items →
      Lacks d c.decl i → Grafted common (before ++ pass :: after) q d
        (.item (clearItem after (renameConstructor d.name i)))
  | type {before after : List Pass} {q : String} {d t t' : TypeDecl} {c : ClassRef} :
      d.hasMark .inherit → common.find? q = some c → t ∈ c.decl.nestedTypes →
      d.nestedType? t.name = none →
      Overlaid common (.inherit :: after) (nestedName q t.name) t t' →
      Grafted common (before ++ .inherit :: after) q d (.type t')

end

/-! ## Marks -/

@[simp] theorem clearItem_nil (item : Item) : clearItem [] item = item := by simp [clearItem]

/-- One more pass takes the mark off items if it is overwriting. -/
theorem clearItem_append (passes : List Pass) (pass : Pass) (item : Item) :
    clearItem (passes ++ [pass]) item =
      if pass = .overwrite then item.removeMark .overwrite else clearItem passes item := by
  unfold clearItem
  split <;> split <;> simp_all [eq_comm]

@[simp] theorem content_clearItem (passes : List Pass) (item : Item) :
    (clearItem passes item).content = item.content := by
  unfold clearItem
  split <;> rfl

@[simp] theorem modifiers_clearItem (passes : List Pass) (item : Item) :
    (clearItem passes item).modifiers = item.modifiers := by
  unfold clearItem
  split <;> rfl

@[simp] theorem clearClass_nil (annotations : List Annotation) :
    clearClass [] annotations = annotations := by
  simp [clearClass]

/-- One more pass takes its mark off the class. -/
theorem clearClass_append (passes : List Pass) (pass : Pass) (annotations : List Annotation) :
    clearClass (passes ++ [pass]) annotations =
      pass.classMark?.elim (clearClass passes annotations)
        (·.removeFrom (clearClass passes annotations)) := by
  cases pass <;> simp [clearClass, Pass.classMark?, Mark.removeFrom, List.filter_filter,
    Bool.and_comm]

/-- A mark that none of the passes takes off is there or not as before. -/
theorem isAmong_clearClass {passes : List Pass} {mark : Mark}
    (h : mark ∉ passes.filterMap Pass.classMark?) (annotations : List Annotation) :
    mark.isAmong (clearClass passes annotations) = mark.isAmong annotations := by
  have kept : ∀ a, mark.isOn a → (passes.filterMap Pass.classMark?).any (·.isOn a) = false := by
    intro a ha
    rw [List.any_eq_false]
    intro other mem on
    have : mark.simpleName = other.simpleName :=
      (of_decide_eq_true ha).symm.trans (of_decide_eq_true on)
    exact h (Mark.simpleName_injective this ▸ mem)
  rw [Bool.eq_iff_iff, Mark.isAmong, Mark.isAmong, List.any_eq_true, List.any_eq_true]
  constructor
  · rintro ⟨a, ha, on⟩
    exact ⟨a, List.mem_of_mem_filter ha, on⟩
  · rintro ⟨a, ha, on⟩
    exact ⟨a, List.mem_filter.2 ⟨ha, by simp [kept a on]⟩, on⟩

/-! ## What stays -/

/-- What is adopted concerns type parameters, supertypes and constants only. -/
theorem adopt_eq (common : CommonClasses) (passes : List Pass) (q : String) (d : TypeDecl) :
    ∃ typeParams extending implementing enumConstants, adopt common passes q d =
      { d with typeParams, extending, implementing, enumConstants } := by
  have same : ∃ typeParams extending implementing enumConstants,
      d = { d with typeParams, extending, implementing, enumConstants } :=
    ⟨d.typeParams, d.extending, d.implementing, d.enumConstants, by cases d; rfl⟩
  unfold adopt
  split
  · cases common.find? q with
    | none => exact same
    | some c => exact reparent_eq d c.decl
  · exact same

/-- One more pass makes a difference to what is adopted only if it inherits. -/
theorem adopt_append (common : CommonClasses) (passes : List Pass) (pass : Pass) (q : String)
    (d : TypeDecl) : adopt common (passes ++ [pass]) q d =
      if pass = .inherit ∧ d.hasMark .inherit then
        (common.find? q).elim d fun c ↦ reparent d c.decl
      else adopt common passes q d := by
  unfold adopt
  by_cases h : d.hasMark .inherit <;> cases pass <;> simp [h]

/-- A pass that does not treat the class finds none of its marks there. -/
theorem clearClass_append_of_not_treats {passes : List Pass} {pass : Pass} {d : TypeDecl}
    (h : pass.treats d = false) :
    clearClass (passes ++ [pass]) d.annotations = clearClass passes d.annotations := by
  have unmarked {mark : Mark} (hm : d.hasMark mark = false) :
      mark.removeFrom (clearClass passes d.annotations) = clearClass passes d.annotations := by
    rw [Mark.removeFrom, List.filter_eq_self]
    intro a ha
    rw [TypeDecl.hasMark, Mark.isAmong, List.any_eq_false] at hm
    simpa using hm a (List.mem_of_mem_filter ha)
  rw [clearClass_append]
  cases pass with
  | inheritMissingMembers => exact unmarked h
  | inherit => exact unmarked h
  | overwriteClass => exact unmarked h
  | overwrite => rfl

variable {common : CommonClasses} {passes : List Pass} {q : String} {d e : TypeDecl}

namespace Overlaid

theorem members (h : Overlaid common passes q d e) :
    OverlaidMembers common passes q d d.members e.members := by
  cases h with
  | mk h => exact h

theorem annotations (h : Overlaid common passes q d e) :
    e.annotations = clearClass passes d.annotations := by
  cases h
  rfl

/-- Apart from what is adopted, its annotations and its members, an overlaid class is the one of
the platform. -/
theorem eq_with (h : Overlaid common passes q d e) :
    ∃ typeParams extending implementing enumConstants, e =
      { d with
        typeParams, extending, implementing, enumConstants
        annotations := e.annotations, members := e.members } := by
  cases h
  obtain ⟨typeParams, extending, implementing, enumConstants, h⟩ := adopt_eq common passes q d
  exact ⟨typeParams, extending, implementing, enumConstants, by rw [h]⟩

theorem eq (h : Overlaid common passes q d e) : e =
    { adopt common passes q d with
      annotations := clearClass passes d.annotations, members := e.members } := by
  cases h
  rfl

theorem name (h : Overlaid common passes q d e) : e.name = d.name := by
  obtain ⟨_, _, _, _, h⟩ := h.eq_with
  rw [h]

theorem components (h : Overlaid common passes q d e) : e.components = d.components := by
  obtain ⟨_, _, _, _, h⟩ := h.eq_with
  rw [h]

end Overlaid

/-- What becomes of one member. -/
inductive MemberOverlaid (common : CommonClasses) (passes : List Pass) (q : String) :
    Member → Member → Prop
  | item {i : Item} : MemberOverlaid common passes q (.item i) (.item (clearItem passes i))
  | type {t t' : TypeDecl} : Overlaid common passes (nestedName q t.name) t t' →
      MemberOverlaid common passes q (.type t) (.type t')

namespace OverlaidMembers

/-- The first member afterwards comes from the first one before or is grafted. -/
theorem cons_cases {m' : Member} {ms ms' : List Member}
    (h : OverlaidMembers common passes q d ms (m' :: ms')) :
    (∃ m rest, ms = m :: rest ∧ MemberOverlaid common passes q m m' ∧
      OverlaidMembers common passes q d rest ms') ∨
    (Grafted common passes q d m' ∧ OverlaidMembers common passes q d ms ms') := by
  cases h with
  | item h => exact .inl ⟨_, _, rfl, .item, h⟩
  | type ht h => exact .inl ⟨_, _, rfl, .type ht, h⟩
  | field hg _ h => exact .inr ⟨hg, h⟩
  | rest hg =>
    exact .inr ⟨hg _ List.mem_cons_self, .rest fun m hm ↦ hg m (List.mem_cons_of_mem _ hm)⟩

theorem exists_of_mem {m : Member} {ms ms' : List Member}
    (h : OverlaidMembers common passes q d ms ms') (hm : m ∈ ms) :
    ∃ m' ∈ ms', MemberOverlaid common passes q m m' := by
  induction ms' generalizing ms with
  | nil =>
    cases h
    simp at hm
  | cons m' ms' ih =>
    rcases h.cons_cases with ⟨n, rest, rfl, hn, h⟩ | ⟨-, h⟩
    · rcases List.mem_cons.1 hm with rfl | hm
      · exact ⟨m', List.mem_cons_self, hn⟩
      · obtain ⟨n', hn', hmn⟩ := ih h hm
        exact ⟨n', List.mem_cons_of_mem _ hn', hmn⟩
    · obtain ⟨n', hn', hmn⟩ := ih h hm
      exact ⟨n', List.mem_cons_of_mem _ hn', hmn⟩

/-- Every member afterwards comes from the platform or is grafted. -/
theorem cases_of_mem {m' : Member} {ms ms' : List Member}
    (h : OverlaidMembers common passes q d ms ms') (hm : m' ∈ ms') :
    (∃ m ∈ ms, MemberOverlaid common passes q m m') ∨ Grafted common passes q d m' := by
  induction ms' generalizing ms with
  | nil => simp at hm
  | cons n' ms' ih =>
    rcases h.cons_cases with ⟨n, rest, rfl, hn, h⟩ | ⟨hg, h⟩
    · rcases List.mem_cons.1 hm with rfl | hm
      · exact .inl ⟨n, List.mem_cons_self, hn⟩
      · rcases ih h hm with ⟨k, hk, hkm⟩ | hg
        · exact .inl ⟨k, List.mem_cons_of_mem _ hk, hkm⟩
        · exact .inr hg
    · rcases List.mem_cons.1 hm with rfl | hm
      · exact .inr hg
      · exact ih h hm

end OverlaidMembers

namespace Overlaid

theorem exists_nestedType (h : Overlaid common passes q d e) {t : TypeDecl}
    (ht : t ∈ d.nestedTypes) :
    ∃ t' ∈ e.nestedTypes, Overlaid common passes (nestedName q t.name) t t' := by
  obtain ⟨m', hm', h⟩ := h.members.exists_of_mem (TypeDecl.mem_nestedTypes.1 ht)
  cases h with
  | type h => exact ⟨_, TypeDecl.mem_nestedTypes.2 hm', h⟩

theorem item_mem (h : Overlaid common passes q d e) {i : Item} (hi : i ∈ d.items) :
    clearItem passes i ∈ e.items := by
  obtain ⟨m', hm', h⟩ := h.members.exists_of_mem (TypeDecl.mem_items.1 hi)
  cases h with
  | item => exact TypeDecl.mem_items.2 hm'

/-- An item afterwards is one of the platform, or a graft. -/
theorem cases_item (h : Overlaid common passes q d e) {j : Item} (hj : j ∈ e.items) :
    (∃ i ∈ d.items, j = clearItem passes i) ∨ Grafted common passes q d (.item j) := by
  rcases h.members.cases_of_mem (TypeDecl.mem_items.1 hj) with ⟨m, hm, h⟩ | hg
  · cases h with
    | item => exact .inl ⟨_, TypeDecl.mem_items.2 hm, rfl⟩
  · exact .inr hg

/-- A nested type afterwards is one of the platform, overlaid, or a graft. -/
theorem cases_nestedType (h : Overlaid common passes q d e) {t' : TypeDecl}
    (ht : t' ∈ e.nestedTypes) :
    (∃ t ∈ d.nestedTypes, Overlaid common passes (nestedName q t.name) t t') ∨
      Grafted common passes q d (.type t') := by
  rcases h.members.cases_of_mem (TypeDecl.mem_nestedTypes.1 ht) with ⟨m, hm, h⟩ | hg
  · cases h with
    | type h => exact .inl ⟨_, TypeDecl.mem_nestedTypes.2 hm, h⟩
  · exact .inr hg

/-- The types in a type stay where they are. -/
theorem exists_encloses (h : Overlaid common passes q d e) {r : String} {t : TypeDecl}
    (ht : Encloses q d r t) :
    ∃ t', Encloses q e r t' ∧ Overlaid common passes r t t' := by
  induction ht generalizing e with
  | refl => exact ⟨e, .refl, h⟩
  | nested hu _ ih =>
    obtain ⟨u', hu', h'⟩ := h.exists_nestedType hu
    obtain ⟨t', ht', htt'⟩ := ih h'
    rw [← h'.name] at ht'
    exact ⟨t', .nested hu' ht', htt'⟩

/-- What the type lacks after the passes it lacked before. -/
theorem lacks (h : Overlaid common passes q d e) {other : TypeDecl} {i : Item}
    (hl : Lacks e other i) : Lacks d other i :=
  hl.of_items h.components.symm fun j hj ↦
    ⟨clearItem passes j, h.item_mem hj, content_clearItem passes j, modifiers_clearItem passes j⟩

/-- A name that is free afterwards was free before. -/
theorem nestedType?_eq_none (h : Overlaid common passes q d e) {name : String}
    (hn : e.nestedType? name = none) : d.nestedType? name = none := by
  rw [TypeDecl.nestedType?, List.find?_eq_none] at hn ⊢
  intro t ht
  obtain ⟨t', ht', h'⟩ := h.exists_nestedType ht
  rw [← h'.name]
  exact hn t' ht'

/-- What a later pass would graft would have been lacking at the start. -/
theorem isGraftOf (h : Overlaid common passes q d e) {other : TypeDecl} {m : Member}
    (hm : IsGraftOf e other m) : IsGraftOf d other m := by
  obtain ⟨i, hi, lacking, rfl⟩ := hm
  exact ⟨i, hi, h.lacks lacking, by rw [h.name]⟩

theorem isTypeGraftOf (h : Overlaid common passes q d e) {other : TypeDecl} {m : Member}
    (hm : IsTypeGraftOf e other m) : IsTypeGraftOf d other m := by
  obtain ⟨t, ht, new, rfl⟩ := hm
  exact ⟨t, ht, h.nestedType?_eq_none new, rfl⟩

end Overlaid

/-! ## One pass -/

/-- The pass grafts the member into the type. -/
def Grafts (common : CommonClasses) (pass : Pass) (q : String) (d : TypeDecl) (m : Member) : Prop :=
  pass.treats d = true ∧ ∃ c, common.find? q = some c ∧
    ((pass.grafts ∧ IsGraftOf d c.decl m) ∨ (pass = .inherit ∧ IsTypeGraftOf d c.decl m))

/-- The pass makes of a type that the passes before have overlaid one that it has overlaid
with them. -/
def Advances (common : CommonClasses) (pass : Pass) (scope : Scope) (e e' : TypeDecl) : Prop :=
  ∀ done d, pass ∉ done → Overlaid common done scope.qualified d e →
    Overlaid common (done ++ [pass]) scope.qualified d e'

/-- A pass to come that treats classes finds their marks as they were. -/
theorem Pass.treats_of_annotations (h : e.annotations = clearClass passes d.annotations)
    {pass : Pass}
    (class_pass : pass ≠ .overwrite) (new : pass ∉ passes) : pass.treats e = pass.treats d := by
  have kept {mark : Mark} (hm : pass.classMark? = some mark) : e.hasMark mark = d.hasMark mark := by
    rw [TypeDecl.hasMark, h, isAmong_clearClass]
    · rfl
    · intro hmem
      obtain ⟨other, mem, ho⟩ := List.mem_filterMap.1 hmem
      exact new (Pass.classMark?_injective ho hm ▸ mem)
  cases pass with
  | inheritMissingMembers => exact kept rfl
  | inherit => exact kept rfl
  | overwriteClass => exact kept rfl
  | overwrite => exact absurd rfl class_pass

/-- A pass to come treats an overlaid class if it would have treated it at the start. -/
theorem Overlaid.treats (h : Overlaid common passes q d e) {pass : Pass}
    (class_pass : pass ≠ .overwrite)
    (new : pass ∉ passes) : pass.treats e = pass.treats d :=
  Pass.treats_of_annotations h.annotations class_pass new

/-- The first part of a step: what the pass makes of the class itself. -/
theorem Overlaid.visit_class {pass : Pass} (class_pass : pass ≠ .overwrite) (new : pass ∉ passes)
    {scope : Scope} {emit : EmitSet} (h : Overlaid common passes scope.qualified d e)
    (ok : (pass.visit common scope emit e).fault = none) :
    ∃ members,
      Grown (Grafts common pass scope.qualified d) (isFieldMember ·) e.members members ∧
      (pass.visit common scope emit e).value =
        { adopt common (passes ++ [pass]) scope.qualified d with
          annotations := clearClass (passes ++ [pass]) d.annotations, members } := by
  have treats := h.treats class_pass new
  rcases Pass.visit_cases ok with ⟨untreated, hv⟩ | ⟨treated, c, hc, applied, hv⟩
  · rw [hv]
    rw [untreated] at treats
    refine ⟨e.members, .refl _, ?_⟩
    have not_adopting : ¬(pass = .inherit ∧ d.hasMark .inherit = true) := by
      rintro ⟨rfl, marked⟩
      exact absurd (marked.symm.trans treats.symm) (by decide)
    rw [adopt_append, if_neg not_adopting, clearClass_append_of_not_treats treats.symm]
    exact h.eq
  · rw [hv]
    rw [treated] at treats
    cases pass with
    | inheritMissingMembers =>
      refine ⟨_, (grown_graftItems e c.decl).mono fun m hm ↦
        ⟨treats.symm, c, hc, .inl ⟨rfl, h.isGraftOf hm⟩⟩, ?_⟩
      rw [adopt_append, if_neg (by simp), clearClass_append]
      obtain ⟨h⟩ := h
      rfl
    | inherit =>
      have grafted := grown_graftItems e c.decl
      have nested := grown_graftTypes (graftItems e c.decl) c.decl
      refine ⟨_, (grafted.mono fun m hm ↦ ⟨treats.symm, c, hc, .inl ⟨rfl, h.isGraftOf hm⟩⟩).trans
        -- What is lacking for grafting types is asked of the class with its new items; these are no
        -- types.
        (nested.mono fun m hm ↦ ⟨treats.symm, c, hc, .inr ⟨rfl, h.isTypeGraftOf ?_⟩⟩), ?_⟩
      · obtain ⟨t, ht, none, rfl⟩ := hm
        exact ⟨t, ht, by rwa [TypeDecl.nestedType?, nestedTypes_graftItems] at none, rfl⟩
      · have adopting : Pass.inherit = .inherit ∧ d.hasMark .inherit = true := ⟨rfl, treats.symm⟩
        have own : adopt common passes scope.qualified d = d := if_neg fun h ↦ new h.1
        rw [adopt_append, if_pos adopting, hc, clearClass_append, Option.elim_some]
        obtain ⟨h⟩ := h
        simp only [own]
        exact congrArg (·.removeMark .inherit) (reparent_with d c.decl _ _)
    | overwriteClass =>
      refine ⟨e.members, .refl _, ?_⟩
      rw [adopt_append, if_neg (by simp), clearClass_append]
      obtain ⟨h⟩ := h
      rfl
    | overwrite => exact absurd rfl class_pass

/-- Before the first pass every class is overlaid with itself. -/
protected theorem Overlaid.refl (q : String) (d : TypeDecl) : Overlaid common [] q d d := by
  induction d using TypeDecl.nestingInduction generalizing q with
  | step d ih =>
    have members : ∀ ms : List Member, (∀ t, .type t ∈ ms → t ∈ d.nestedTypes) →
        OverlaidMembers common [] q d ms ms := by
      intro ms
      induction ms with
      | nil => exact fun _ ↦ .rest (by simp)
      | cons m ms ihm =>
        intro h
        have rest := ihm fun t ht ↦ h t (List.mem_cons_of_mem _ ht)
        cases m with
        | item i => simpa using OverlaidMembers.item (i := i) rest
        | type t => exact .type (ih t (h t List.mem_cons_self) _) rest
    have := Overlaid.mk (members d.members fun t ht ↦ TypeDecl.mem_nestedTypes.2 ht)
    have own : adopt common [] q d = d := if_neg (by simp)
    rw [own, clearClass_nil] at this
    cases d
    exact this

section step

variable {pass : Pass} {scope : Scope} {emit emit' : EmitSet}

/-- What the visit of the class goes on to do with a member. -/
abbrev MemberAdvances (common : CommonClasses) (pass : Pass) (scope : Scope) :
    EmitSet → Member → EmitSet → Member → Prop :=
  MemberVisited (fun scope _ e _ e' ↦ Advances common pass scope e e') scope

theorem Advances.nested {t t' t'' : TypeDecl}
    (h : Advances common pass (scope.nested t'.name) t' t'')
    (new : pass ∉ passes) (ht : Overlaid common passes (nestedName scope.qualified t.name) t t') :
    Overlaid common (passes ++ [pass]) (nestedName scope.qualified t.name) t t'' := by
  have := h passes t new
  rw [ht.name] at this
  exact this ht

/-- A graft of an earlier pass is one still, after the pass has visited it. -/
theorem Grafted.advance (class_pass : pass ≠ .overwrite) (new : pass ∉ passes) {m m' : Member}
    (h : Grafted common passes scope.qualified d m)
    (visited : MemberAdvances common pass scope emit m emit' m') :
    Grafted common (passes ++ [pass]) scope.qualified d m' := by
  cases h with
  | @item before after g _ _ c i grafts treats hc hi lacking =>
    cases visited
    rw [List.append_assoc, List.cons_append]
    have same : clearItem after (renameConstructor d.name i) =
        clearItem (after ++ [pass]) (renameConstructor d.name i) := by
      rw [clearItem_append, if_neg class_pass]
    rw [same]
    exact .item grafts treats hc hi lacking
  | @type before after _ _ t t' c marked hc ht none h =>
    obtain _ | visited := visited
    rw [List.append_assoc, List.cons_append]
    exact .type marked hc ht none
      (visited.nested (fun hm ↦ new (List.mem_append_right _ hm)) h)

/-- A graft of the pass itself is visited too, with the class it was put into. -/
theorem Grafts.grafted {m m' : Member} (h : Grafts common pass scope.qualified d m)
    (visited : MemberAdvances common pass scope emit m emit' m') :
    Grafted common (passes ++ [pass]) scope.qualified d m' := by
  obtain ⟨treats, c, hc, ⟨grafts, i, hi, lacking, rfl⟩ | ⟨rfl, t, ht, none, rfl⟩⟩ := h
  · cases visited
    rw [← clearItem_nil (renameConstructor d.name i)]
    exact .item grafts treats hc hi lacking
  · obtain _ | visited := visited
    exact .type treats hc ht none (visited [] t (by simp) (.refl _ t))

theorem OverlaidMembers.all_grafted {ms' : List Member}
    (h : OverlaidMembers common passes q d [] ms') : ∀ m ∈ ms', Grafted common passes q d m := by
  intro m hm
  rcases h.cases_of_mem hm with ⟨n, hn, -⟩ | hg
  · simp at hn
  · exact hg

theorem MemberAdvances.isFieldMember_eq {m m' : Member}
    (h : MemberAdvances common pass scope emit m emit' m') :
    isFieldMember m' = isFieldMember m := by
  cases h <;> rfl

/-- The members after the pass, along those before it: each is kept and visited, and grafts
stand only where `Grown` lets them. -/
theorem OverlaidMembers.advance (class_pass : pass ≠ .overwrite) (new : pass ∉ passes)
    {ms es between es' : List Member}
    (grown : Grown (Grafts common pass scope.qualified d) (isFieldMember ·) es between)
    (h : OverlaidMembers common passes scope.qualified d ms es)
    (visited : Threaded (MemberAdvances common pass scope) emit between emit' es') :
    OverlaidMembers common (passes ++ [pass]) scope.qualified d ms es' := by
  induction grown generalizing ms es' emit with
  | rest hb =>
    cases h
    refine .rest fun m' hm ↦ ?_
    obtain ⟨m, hm, _, _, hv⟩ := visited.exists_left_of_mem hm
    exact (hb m hm).grafted hv
  | add hp hq _ ih =>
    obtain _ | ⟨hv, visited⟩ := visited
    exact .field (hp.grafted hv) (MemberAdvances.isFieldMember_eq hv ▸ hq) (ih h visited)
  | keep _ ih =>
    obtain _ | ⟨hv, visited⟩ := visited
    cases h with
    | @item _ _ _ i _ _ h =>
      cases hv
      have same : clearItem passes i = clearItem (passes ++ [pass]) i := by
        rw [clearItem_append, if_neg class_pass]
      rw [same]
      exact .item (ih h visited)
    | @type _ _ _ t t' _ _ ht h =>
      obtain _ | hv := hv
      exact .type (hv.nested new ht) (ih h visited)
    | field hg hf h =>
      exact .field (hg.advance class_pass new hv) (MemberAdvances.isFieldMember_eq hv ▸ hf)
        (ih h visited)
    | rest hg =>
      have later := ih (.rest fun m hm ↦ hg m (List.mem_cons_of_mem _ hm)) visited
      refine .rest fun m hm ↦ ?_
      rcases List.mem_cons.1 hm with rfl | hm
      · exact (hg _ List.mem_cons_self).advance class_pass new hv
      · exact later.all_grafted m hm

end step

theorem removeMark_clearItem (passes : List Pass) (item : Item) :
    (clearItem passes item).removeMark .overwrite = clearItem (passes ++ [.overwrite]) item := by
  rw [clearItem_append, if_pos rfl]
  unfold clearItem
  split
  · exact Item.removeMark_removeMark item .overwrite
  · rfl

/-- Overwriting only takes marks off items, at any depth. -/
theorem Overlaid.clearOverwrites (h : Overlaid common passes q d e) :
    Overlaid common (passes ++ [.overwrite]) q d e.clearOverwrites := by
  induction e using TypeDecl.nestingInduction generalizing passes q d with
  | step e ih =>
    have graft : ∀ m ∈ e.members, Grafted common passes q d m →
        Grafted common (passes ++ [.overwrite]) q d (TypeDecl.clearMember m) := by
      intro m hm hg
      cases hg with
      | item grafts treats hc hi lacking =>
        rw [TypeDecl.clearMember_item, removeMark_clearItem, List.append_assoc, List.cons_append]
        exact .item grafts treats hc hi lacking
      | type marked hc ht none h =>
        rw [TypeDecl.clearMember_type, List.append_assoc, List.cons_append]
        exact .type marked hc ht none (ih _ (TypeDecl.mem_nestedTypes.2 hm) h)
    have members : ∀ es : List Member, (∀ m ∈ es, m ∈ e.members) → ∀ ms,
        OverlaidMembers common passes q d ms es →
        OverlaidMembers common (passes ++ [.overwrite]) q d ms (es.map TypeDecl.clearMember) := by
      intro es
      induction es with
      | nil =>
        intro _ ms h
        cases h
        exact .rest (by simp)
      | cons m es ihm =>
        intro hes ms h
        have rest := ihm fun m hm ↦ hes m (List.mem_cons_of_mem _ hm)
        have first := hes m List.mem_cons_self
        cases h with
        | item h =>
          rw [List.map_cons, TypeDecl.clearMember_item, removeMark_clearItem]
          exact .item (rest _ h)
        | type ht h => exact .type (ih _ (TypeDecl.mem_nestedTypes.2 first) ht) (rest _ h)
        | field hg hf h =>
          refine .field (graft m first hg) ?_ (rest _ h)
          cases m with
          | item i => exact hf
          | type t => cases hf
        | rest hg =>
          refine .rest fun m' hm ↦ ?_
          obtain ⟨n, hn, rfl⟩ := List.mem_map.1 hm
          exact graft n (hes n hn) (hg n hn)
    have := Overlaid.mk (members e.members (fun _ hm ↦ hm) _ h.members)
    rw [adopt_append, if_neg (by simp), clearClass_append] at this
    rw [TypeDecl.clearOverwrites_eq]
    obtain ⟨h⟩ := h
    exact this

/-- The step of the simulation: a visit that goes to every type overlays every type. -/
theorem advances {pass : Pass} {levels : Nat} {scope : Scope} {emit : EmitSet}
    (enough : Suffices (pass.visit common) levels scope e)
    (ok : (visitDecl (pass.visit common) levels scope emit e).fault = none) :
    Advances common pass scope e (visitDecl (pass.visit common) levels scope emit e).value := by
  by_cases class_pass : pass = .overwrite
  · subst class_pass
    rw [visit_overwrite enough ok]
    exact fun done d _ h ↦ h.clearOverwrites
  · refine visitDecl_induction (motive := fun scope _ e _ e' ↦ Advances common pass scope e e')
      (fun scope emit e ok emit' members visited done d new h ↦ ?_) enough ok
    obtain ⟨grown, interleaved, value⟩ := h.visit_class class_pass new ok
    rw [value] at visited ⊢
    exact .mk (h.members.advance class_pass new interleaved visited)

/-! ## All passes -/

/-- A pass over an overlaid model leaves it overlaid with one pass more. -/
theorem overlaid_run {pass : Pass} {emit : EmitSet} {model m : SourceModel} (new : pass ∉ passes)
    (h : model.Corresponds (Overlaid common passes) m)
    (ok : (pass.run common emit m).fault = none) :
    model.Corresponds (Overlaid common (passes ++ [pass])) (pass.run common emit m).value := by
  have step := SourceModel.corresponds_visit (R := fun q e e' ↦
    ∀ d, Overlaid common passes q d e → Overlaid common (passes ++ [pass]) q d e') ok
    fun file hf t ht n s ok d ↦ advances (Pass.suffices_run common pass hf ht n) ok passes d new
  exact h.comp step (fun _ _ _ h ↦ h.name) fun _ _ _ _ h h' ↦ h' _ h

theorem runPasses_of_fault {r : Visited EmitSet MergeError SourceModel} {error : MergeError}
    (h : r.fault = some error) (passes : List Pass) : runPasses common passes r = r := by
  induction passes with
  | nil => rfl
  | cons pass passes ih =>
    have stopped : (r.andThen fun emit model ↦ pass.run common emit model) = r := by
      rw [Visited.andThen, h]
    rwa [runPasses, List.foldl_cons, stopped]

theorem runPasses_cons {pass : Pass} {emit : EmitSet} {m : SourceModel} :
    runPasses common (pass :: passes) ⟨m, emit, none⟩ =
      runPasses common passes (pass.run common emit m) := rfl

/-- A pass of a run without a fault had none. -/
theorem fault_runPasses {r : Visited EmitSet MergeError SourceModel}
    (h : (runPasses common passes r).fault = none) : r.fault = none := by
  cases hr : r.fault with
  | none => rfl
  | some error => rw [runPasses_of_fault hr, hr] at h; exact h

/-- Passes are run one part after the other. -/
theorem runPasses_append (before after : List Pass) (r : Visited EmitSet MergeError SourceModel) :
    runPasses common (before ++ after) r = runPasses common after (runPasses common before r) :=
  List.foldl_append

/-- The last pass runs on what the others have left. -/
theorem runPasses_concat {pass : Pass} {r : Visited EmitSet MergeError SourceModel}
    (ok : (runPasses common passes r).fault = none) :
    runPasses common (passes ++ [pass]) r =
      pass.run common (runPasses common passes r).state (runPasses common passes r).value := by
  rw [runPasses_append]
  exact Visited.andThen_of_ok ok

/-- The invariant rule for a run without a fault: what holds of the passes behind, of the emit set
and of the model is kept by each pass of the run. -/
theorem runPasses_induction {motive : List Pass → EmitSet → SourceModel → Prop}
    (step : ∀ before pass emit m, before ++ [pass] <+: passes → motive before emit m →
      (pass.run common emit m).fault = none →
      motive (before ++ [pass]) (pass.run common emit m).state (pass.run common emit m).value)
    {emit : EmitSet} {m : SourceModel} (start : motive [] emit m)
    (ok : (runPasses common passes ⟨m, emit, none⟩).fault = none) :
    motive passes (runPasses common passes ⟨m, emit, none⟩).state
      (runPasses common passes ⟨m, emit, none⟩).value := by
  induction passes using List.reverseRecOn with
  | nil => exact start
  | append_singleton passes pass ih =>
    have first : (runPasses common passes ⟨m, emit, none⟩).fault = none := by
      rw [runPasses_append] at ok
      exact fault_runPasses ok
    have before := ih (fun before pass emit m behind ↦
      step before pass emit m (behind.trans (List.prefix_append _ _))) first
    rw [runPasses_concat first] at ok ⊢
    exact step passes pass _ _ (List.prefix_refl _) before ok

/-- A pass of passes that are all different is not among those before it. -/
theorem not_mem_of_prefix_concat {before : List Pass} {pass : Pass} (nodup : passes.Nodup)
    (behind : before ++ [pass] <+: passes) : pass ∉ before := fun hm ↦
  (List.nodup_append.1 (nodup.sublist behind.sublist)).2.2 pass hm pass
    (List.mem_singleton_self _) rfl

/-- After passes that are run once each, a model is overlaid with them. By induction on the
passes from the back. -/
theorem overlaid_runPasses (nodup : passes.Nodup) {emit : EmitSet} {model : SourceModel}
    (ok : (runPasses common passes ⟨model, emit, none⟩).fault = none) :
    model.Corresponds (Overlaid common passes)
      (runPasses common passes ⟨model, emit, none⟩).value :=
  runPasses_induction (motive := fun before _ m ↦ model.Corresponds (Overlaid common before) m)
    (fun _ _ _ _ behind h first ↦ overlaid_run (not_mem_of_prefix_concat nodup behind) h first)
    (.of_self .refl) ok

/-- The merged model is the platform model, overlaid with all passes. -/
theorem overlaid_merge {model : SourceModel} (ok : (Merge.run common model).fault = none) :
    model.Corresponds (Overlaid common Pass.all) (Merge.run common model).value :=
  overlaid_runPasses (by decide) ok

end PlatformOverlay.Merge
