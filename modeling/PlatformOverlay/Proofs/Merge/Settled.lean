import PlatformOverlay.Proofs.Merge.Idempotence
import PlatformOverlay.Proofs.Merge.Signatures

/-!
# What passes settle a type to

Over a common model without platform marks the result of passes can be written down without their
order: `settle` asks only which passes there have been.  Grafting goes well with it since what is
lacking is not affected by marks (`graft_mapMembers`), nor by what another pass has grafted already
where that had the same signatures (`graftItems_graft`); so one more pass makes of a settled type
the type that it settles with the others (`settle_visitDecl`, `settled_runPasses`).

This says more than `Overlaid` does, which leaves open how many grafts there are and where they
stand, and it asks for more: with marks in the common model a graft would be treated by some passes
and not by others, and with other record components it would be grafted again (`Agrees`).

The members of a settled type are those of the type with its grafts (`graft`), each settled by
itself (`settle_eq_map`). Grafting is asked about the type as it was and happens to the type as it
is, so most of the lemmas say that it does not see what becomes of the members:

* `graft_mapMembers` and `fixesGrafts_settleMember`, since grafts have no marks to settle;
* `members_graftItems_congr` and `members_graftTypes_congr`, since grafting looks at members and
  components alone;
* `graft_append`, for the passes that graft nothing.
-/

namespace PlatformOverlay

namespace Model

variable {σ α β : Type}

/-- A visit whose outcome is a function of the element is a map. -/
theorem Threaded.eq_map {R : σ → α → σ → β → Prop} {g : α → β} {s s' : σ}
    {as : List α} {bs : List β}
    (h : Threaded R s as s' bs) (hR : ∀ s a s' b, a ∈ as → R s a s' b → b = g a) :
    bs = as.map g := by
  induction h with
  | nil => rfl
  | cons hr _ ih =>
    rw [List.map_cons, hR _ _ _ _ List.mem_cons_self hr,
      ih fun s a s' b ha ↦ hR s a s' b (List.mem_cons_of_mem _ ha)]

end Model

namespace Merge

open Java Model

/-! ## Changing members without changing what is lacking -/

/-- The class with every member replaced. -/
def mapMembers (f : Member → Member) (d : TypeDecl) :
    TypeDecl := { d with members := d.members.map f }

/-- The members declare the same: items but for documentation and annotations, and types of one
name. -/
inductive MemberAlike : Member → Member → Prop
  | item {i j : Item} : j.content = i.content → j.modifiers = i.modifiers →
      MemberAlike (.item i) (.item j)
  | type {t u : TypeDecl} : u.name = t.name → MemberAlike (.type t) (.type u)

section mapMembers

variable {f : Member → Member} {d c : TypeDecl} {name : String}

namespace MemberAlike

variable {m n : Member}

/-- Alike members are both fields or neither. -/
theorem isFieldMember_eq (h : MemberAlike m n) : isFieldMember n = isFieldMember m := by
  cases h with
  | item content => simp [isFieldMember, Item.isField, content]
  | type => rfl

theorem item?_eq (h : MemberAlike m n) :
    n.item?.map (fun i ↦ (i.content, i.modifiers)) = m.item?.map fun i ↦
      (i.content, i.modifiers) := by
  cases h with
  | item content modifiers => simp [content, modifiers]
  | type => rfl

theorem type?_eq (h : MemberAlike m n) : n.type?.map TypeDecl.name = m.type?.map TypeDecl.name := by
  cases h with
  | item => rfl
  | type name => simp [name]

end MemberAlike

/-- A reading of members that does not tell the changed ones apart reads the same of the changed
class. -/
theorem filterMap_mapMembers {α β : Type} {g : Member → Option α} {h : α → β}
    (same : ∀ m, (g (f m)).map h = (g m).map h) :
    ((mapMembers f d).members.filterMap g).map h = (d.members.filterMap g).map h := by
  rw [mapMembers, List.filterMap_map, List.map_filterMap, List.map_filterMap]
  exact List.filterMap_congr fun m _ ↦ same m

theorem exists_of_map_eq {α β : Type} {h : α → β} {as bs : List α} (same : as.map h = bs.map h)
    {a : α} (ha : a ∈ as) : ∃ b ∈ bs, h b = h a :=
  List.mem_map.1 (same ▸ List.mem_map_of_mem ha)

/-- What is lacking does not depend on documentation and annotations. -/
theorem lacks_mapMembers (alike : ∀ m, MemberAlike m (f m)) {i : Item} :
    Lacks (mapMembers f d) c i ↔ Lacks d c i := by
  have same : (mapMembers f d).items.map (fun i ↦ (i.content, i.modifiers)) =
      d.items.map fun i ↦ (i.content, i.modifiers) :=
    filterMap_mapMembers fun m ↦ (alike m).item?_eq
  constructor
  · intro lacking
    refine lacking.of_items rfl fun j hj ↦ ?_
    obtain ⟨k, hk, e⟩ := exists_of_map_eq same.symm hj
    exact ⟨k, hk, Prod.mk.inj e⟩
  · intro lacking
    refine lacking.of_items rfl fun j hj ↦ ?_
    obtain ⟨k, hk, e⟩ := exists_of_map_eq same hj
    exact ⟨k, hk, Prod.mk.inj e⟩

theorem missingItems_mapMembers (alike : ∀ m, MemberAlike m (f m)) :
    missingItems (mapMembers f d) c = missingItems d c :=
  List.filter_congr fun i _ ↦ by
    rw [Bool.eq_iff_iff, lacks_iff, lacks_iff, lacks_mapMembers alike]

/-- A name is free when no nested type has it. -/
theorem isNone_nestedType? :
    (d.nestedType? name).isNone = true ↔ name ∉ d.nestedTypes.map TypeDecl.name := by
  rw [Option.isNone_iff_eq_none, TypeDecl.nestedType?, List.find?_eq_none]
  simp

theorem nestedType?_mapMembers (alike : ∀ m, MemberAlike m (f m)) :
    ((mapMembers f d).nestedType? name).isNone = (d.nestedType? name).isNone := by
  have same : (mapMembers f d).nestedTypes.map TypeDecl.name = d.nestedTypes.map TypeDecl.name :=
    filterMap_mapMembers fun m ↦ (alike m).type?_eq
  rw [Bool.eq_iff_iff, isNone_nestedType?, isNone_nestedType?, same]

theorem insertFields_map (alike : ∀ m, MemberAlike m (f m)) (fields ms : List Member) :
    insertFields (fields.map f) (ms.map f) = (insertFields fields ms).map f := by
  have same : (fun m ↦ !isFieldMember m) ∘ f = fun m ↦ !isFieldMember m := by
    funext m
    rw [Function.comp_apply, (alike m).isFieldMember_eq]
  simp only [insertFields, ← List.map_reverse, List.takeWhile_map, same, List.length_map,
    List.map_append, List.map_take]

/-- What has been grafted is not replaced. -/
def FixesGrafts (f : Member → Member) (name : String) (c : TypeDecl) : Prop :=
  (∀ i ∈ c.items, f (.item (renameConstructor name i)) = .item (renameConstructor name i)) ∧
    ∀ t ∈ c.nestedTypes, f (.type t) = .type t

/-- Grafting items and changing members can be done in either order, when grafts are not
changed. -/
theorem graftItems_mapMembers (alike : ∀ m, MemberAlike m (f m)) (fixed : FixesGrafts f d.name c) :
    graftItems (mapMembers f d) c = mapMembers f (graftItems d c) := by
  have fixes : ∀ i ∈ missingItems d c,
      f (.item (renameConstructor d.name i)) = .item (renameConstructor d.name i) :=
    fun i hi ↦ fixed.1 i (mem_missingItems.1 hi).1
  have fields : ((missingItems d c).filter Item.isField).map Member.item =
      (((missingItems d c).filter Item.isField).map Member.item).map f := by
    rw [List.map_map]
    refine List.map_congr_left fun i hi ↦ ?_
    obtain ⟨hi, field⟩ := List.mem_filter.1 hi
    have := fixes i hi
    rw [renameConstructor_of_isField _ _ field] at this
    exact this.symm
  have others : (((missingItems d c).filter fun i ↦ !i.isField).map
        (renameConstructor d.name)).map Member.item =
      ((((missingItems d c).filter fun i ↦ !i.isField).map
        (renameConstructor d.name)).map Member.item).map f := by
    rw [List.map_map, List.map_map]
    exact List.map_congr_left fun i hi ↦ (fixes i (List.mem_of_mem_filter hi)).symm
  have members : (graftItems (mapMembers f d) c).members = (graftItems d c).members.map f := by
    simp only [graftItems, missingItems_mapMembers alike, List.map_append, ← others,
      ← insertFields_map alike, ← fields]
    rfl
  have := congrArg (fun members ↦ { d with members }) members
  exact this

theorem graftTypes_mapMembers (alike : ∀ m, MemberAlike m (f m)) (fixed : FixesGrafts f name c) :
    graftTypes (mapMembers f d) c = mapMembers f (graftTypes d c) := by
  have types : (c.nestedTypes.filter fun t ↦ (d.nestedType? t.name).isNone).map Member.type =
      ((c.nestedTypes.filter fun t ↦ (d.nestedType? t.name).isNone).map Member.type).map f := by
    rw [List.map_map]
    exact List.map_congr_left fun t ht ↦ (fixed.2 t (List.mem_of_mem_filter ht)).symm
  simp only [graftTypes, nestedType?_mapMembers alike]
  simp only [mapMembers, List.map_append, ← types]

end mapMembers

/-! ## Everything that passes graft -/

section graft

/-- Does one of the passes graft items into the class? -/
def graftsItems (passes : List Pass) (d : TypeDecl) : Bool :=
  passes.any fun pass ↦ pass.grafts && pass.treats d

/-- The class with what the passes graft into it from its counterpart. -/
def graft (common : CommonClasses) (passes : List Pass) (q : String) (d : TypeDecl) : TypeDecl :=
  (common.find? q).elim d fun c ↦
    let e := if graftsItems passes d then graftItems d c.decl else d
    if .inherit ∈ passes ∧ d.hasMark .inherit then graftTypes e c.decl else e

variable {common : CommonClasses} {passes : List Pass} {q : String} {d : TypeDecl} {c : ClassRef}

theorem graft_of_find? (hc : common.find? q = some c) : graft common passes q d =
    if .inherit ∈ passes ∧ d.hasMark .inherit then
      graftTypes (if graftsItems passes d then graftItems d c.decl else d) c.decl
    else if graftsItems passes d then graftItems d c.decl else d := by
  rw [graft, hc]
  rfl

/-- Without a counterpart nothing is grafted. -/
theorem graft_of_none (hn : common.find? q = none) : graft common passes q d = d := by
  rw [graft, hn]
  rfl

/-- Before the first pass nothing has been grafted. -/
theorem graft_nil : graft common [] q d = d := by
  cases hc : common.find? q with
  | none => exact graft_of_none hc
  | some c => simp [graft_of_find? hc, graftsItems]

/-- Grafting changes nothing but the members. -/
theorem graft_eq :
    graft common passes q d = { d with members := (graft common passes q d).members } := by
  cases hc : common.find? q with
  | none =>
    rw [graft_of_none hc]
    cases d
    rfl
  | some c =>
    rw [graft_of_find? hc]
    cases d
    split <;> split <;> rfl

/-- Grafting and changing members can be done in either order. -/
theorem graft_mapMembers {f : Member → Member} (alike : ∀ m, MemberAlike m (f m))
    (fixed : ∀ c, common.find? q = some c → FixesGrafts f d.name c.decl) :
    graft common passes q (mapMembers f d) = mapMembers f (graft common passes q d) := by
  cases hc : common.find? q with
  | none => rw [graft_of_none hc, graft_of_none hc]
  | some c =>
    have fixed := fixed c hc
    have grafting : graftsItems passes (mapMembers f d) = graftsItems passes d := by
      refine List.any_congr rfl fun pass ↦ ?_
      cases pass <;> rfl
    have inheriting : (mapMembers f d).hasMark .inherit = d.hasMark .inherit := rfl
    rw [graft_of_find? hc, graft_of_find? hc, grafting, inheriting]
    cases graftsItems passes d with
    | false =>
      split
      · exact graftTypes_mapMembers alike fixed
      · rfl
    | true =>
      simp only [if_true, graftItems_mapMembers alike fixed]
      split
      · exact graftTypes_mapMembers alike fixed
      · rfl

/-- A nested type afterwards is one of the class or of its counterpart. -/
theorem mem_nestedTypes_graft {t : TypeDecl} (ht : t ∈ (graft common passes q d).nestedTypes) :
    t ∈ d.nestedTypes ∨ ∃ c, common.find? q = some c ∧ t ∈ c.decl.nestedTypes := by
  cases hc : common.find? q with
  | none =>
    rw [graft_of_none hc] at ht
    exact .inl ht
  | some c =>
    have items : (if graftsItems passes d then graftItems d c.decl else d).nestedTypes =
        d.nestedTypes := by
      split
      · exact nestedTypes_graftItems
      · rfl
    rw [graft_of_find? hc] at ht
    split at ht
    · rw [nestedTypes_graftTypes, items] at ht
      exact (List.mem_append.1 ht).imp_right fun ht ↦ ⟨c, rfl, List.mem_of_mem_filter ht⟩
    · exact .inl (items ▸ ht)

/-! ### One pass more -/

variable {pass : Pass}

/-- One more pass grafts items if it does so itself. -/
theorem graftsItems_append : graftsItems (passes ++ [pass]) d =
    (graftsItems passes d || (pass.grafts && pass.treats d)) := by
  simp [graftsItems]

/-- A pass that grafts no items into the class makes no difference to it: inheriting grafts
items whenever it grafts types. -/
theorem graft_append (h : (pass.grafts && pass.treats d) = false) :
    graft common (passes ++ [pass]) q d = graft common passes q d := by
  have types : (.inherit ∈ passes ++ [pass] ∧ d.hasMark .inherit) ↔
      (.inherit ∈ passes ∧ d.hasMark .inherit) := by
    refine and_congr_left fun marked ↦ ?_
    rw [List.mem_append, List.mem_singleton, or_iff_left]
    rintro rfl
    exact absurd (h.symm.trans marked) (by decide)
  cases hc : common.find? q with
  | none => rw [graft_of_none hc, graft_of_none hc]
  | some c => simp only [graft_of_find? hc, graftsItems_append, h, types, Bool.or_false]

theorem items_graftTypes (e other : TypeDecl) : (graftTypes e other).items = e.items := by
  simp [graftTypes, TypeDecl.items, List.filterMap_map, Function.comp_def]

/-- Where the class has the components of its counterpart, items are grafted only once. -/
theorem graftItems_graft (hc : common.find? q = some c) (agree : CompactAgree d c.decl)
    (treats : d.hasMark .inheritMissingMembers = true) :
    graftItems (graft common passes q d) c.decl =
      graft common (passes ++ [.inheritMissingMembers]) q d := by
  have grafting : graftsItems (passes ++ [.inheritMissingMembers]) d = true := by
    rw [graftsItems_append]
    exact Bool.or_eq_true_iff.2 (.inr treats)
  have types : (.inherit ∈ passes ++ [.inheritMissingMembers] ∧ d.hasMark .inherit) ↔
      (.inherit ∈ passes ∧ d.hasMark .inherit) := by simp
  simp only [graft_of_find? hc, grafting, types, if_true]
  cases before : graftsItems passes d with
  | true =>
    simp only [if_true]
    have again : graftItems (graftTypes (graftItems d c.decl) c.decl) c.decl =
        graftTypes (graftItems d c.decl) c.decl := by
      refine graftItems_of_missingItems (missingItems_eq_nil fun i hi lacking ↦ ?_)
      refine not_lacks_graftItems agree hi (lacking.of_items rfl fun j hj ↦ ⟨j, ?_, rfl, rfl⟩)
      rwa [items_graftTypes]
    split
    · exact again
    · exact graftItems_graftItems agree
  | false =>
    have own : ¬(.inherit ∈ passes ∧ d.hasMark .inherit = true) := by
      rintro ⟨hm, marked⟩
      rw [graftsItems, List.any_eq_false] at before
      exact before _ hm marked
    simp [own]

/-- Inheriting after other passes grafts what it would have grafted with them. -/
theorem graftTypes_graft (hc : common.find? q = some c) (agree : CompactAgree d c.decl)
    (new : .inherit ∉ passes) (treats : d.hasMark .inherit = true) :
    graftTypes (graftItems (graft common passes q d) c.decl) c.decl =
      graft common (passes ++ [.inherit]) q d := by
  have grafting : graftsItems (passes ++ [.inherit]) d = true := by
    rw [graftsItems_append]
    exact Bool.or_eq_true_iff.2 (.inr treats)
  have types : .inherit ∈ passes ++ [.inherit] ∧ d.hasMark .inherit = true := by simp [treats]
  simp only [graft_of_find? hc, grafting, types, new, if_true, false_and, if_false, and_self]
  cases graftsItems passes d with
  | true => exact congrArg (graftTypes · c.decl) (graftItems_graftItems agree)
  | false => rfl

end graft

/-! ## What passes make of a type -/

mutual

/-- The type after the passes, in whatever order. -/
def settle (common : CommonClasses) (passes : List Pass) (q : String) : TypeDecl → TypeDecl
  | ⟨doc, annotations, modifiers, kind, name, typeParams, components, extending, implementing,
      permitting, enumConstants, members⟩ =>
    let decl : TypeDecl := ⟨doc, annotations, modifiers, kind, name, typeParams, components,
      extending, implementing, permitting, enumConstants, members⟩
    { adopt common passes q decl with
      annotations := clearClass passes annotations
      members := (graft common passes q
        { decl with members := settleMembers common passes q members }).members }

def settleMembers (common : CommonClasses) (passes : List Pass) (q : String) :
    List Member → List Member
  | [] => []
  | m :: ms => settleMember common passes q m :: settleMembers common passes q ms

def settleMember (common : CommonClasses) (passes : List Pass) (q : String) : Member → Member
  | .item i => .item (clearItem passes i)
  | .type t => .type (settle common passes (nestedName q t.name) t)

end

section settle

variable {common : CommonClasses} {passes : List Pass} {q : String} {d : TypeDecl}

theorem settleMembers_eq_map (ms : List Member) :
    settleMembers common passes q ms = ms.map (settleMember common passes q) := by
  induction ms with
  | nil => rfl
  | cons m ms ih => rw [settleMembers, ih, List.map_cons]

/-- A settled class from its parts: what is adopted, its annotations, and its settled members
with the grafts. -/
theorem settle_eq : settle common passes q d =
    { adopt common passes q d with
      annotations := clearClass passes d.annotations
      members := (graft common passes q (mapMembers (settleMember common passes q) d)).members } :=
        by
  cases d
  rw [settle, settleMembers_eq_map]
  rfl

@[simp] theorem name_settle : (settle common passes q d).name = d.name := by
  obtain ⟨_, _, _, _, eq⟩ := adopt_eq common passes q d
  rw [settle_eq, eq]

/-- Settling a member keeps what it declares. -/
theorem alike_settleMember (m : Member) : MemberAlike m (settleMember common passes q m) := by
  cases m with
  | item i => exact .item (content_clearItem passes i) (modifiers_clearItem passes i)
  | type t => exact .type name_settle

/-- Passes leave idle types alone. -/
theorem settle_of_idle (idle : Idle q d) : settle common passes q d = d := by
  induction d using TypeDecl.nestingInduction generalizing q with
  | step d ih =>
    have own := idle q d .refl
    have members : d.members.map (settleMember common passes q) = d.members := by
      refine (List.map_congr_left fun m hm ↦ ?_).trans (List.map_id _)
      cases m with
      | item i =>
        have unmarked :=
          TypeDecl.anyItemMarked_eq_false.1 (own .overwrite) i (TypeDecl.mem_items.2 hm)
        exact congrArg Member.item (clearItem_of_not_hasMark unmarked)
      | type t =>
        have ht := TypeDecl.mem_nestedTypes.2 hm
        exact congrArg Member.type (ih t ht (idle.nested ht))
    have same : mapMembers (settleMember common passes q) d = d := by
      rw [mapMembers, members]
      cases d
      rfl
    have not_grafting : graftsItems passes d = false := by
      rw [graftsItems, List.any_eq_false]
      simp [own]
    have not_inheriting : d.hasMark .inherit = false := own .inherit
    have grafted : graft common passes q d = d := by
      cases hc : common.find? q with
      | none => exact graft_of_none hc
      | some c => simp [graft_of_find? hc, not_grafting, not_inheriting]
    have adopted : adopt common passes q d = d := if_neg (by simp [not_inheriting])
    rw [settle_eq, same, grafted, adopted, clearClass_of_not_treats own]
    cases d
    rfl

/-- Grafts have no marks, so that settling does not change them. -/
theorem fixesGrafts_settleMember {common : SourceModel} (unmarked : common.Unmarked) {c : ClassRef}
    (hc : (CommonClasses.ofModel common).find? q = some c) (name : String) :
    FixesGrafts (settleMember (.ofModel common) passes q) name c.decl := by
  have idle := idle_of_find? unmarked hc
  refine ⟨fun i hi ↦ ?_, fun t ht ↦ ?_⟩
  · have := TypeDecl.anyItemMarked_eq_false.1 (idle _ _ .refl .overwrite) i hi
    refine congrArg Member.item (clearItem_of_not_hasMark ?_)
    rwa [Item.hasMark, annotations_renameConstructor]
  · exact congrArg Member.type (settle_of_idle (idle.nested ht))

/-- In a settled type every member is settled, also a grafted one. -/
theorem settle_eq_map {common : SourceModel} (unmarked : common.Unmarked) :
    settle (.ofModel common) passes q d =
      { adopt (.ofModel common) passes q d with
        annotations := clearClass passes d.annotations
        members := (mapMembers (settleMember (.ofModel common) passes q)
          (graft (.ofModel common) passes q d)).members } := by
  rw [settle_eq, graft_mapMembers alike_settleMember
    fun c hc ↦ fixesGrafts_settleMember unmarked hc d.name]

end settle

/-! ## One pass more -/

section step

variable {common : SourceModel} {passes : List Pass} {pass : Pass} {q : String} {d : TypeDecl}

/-- The class and those in it that take items in have the record components of their counterparts,
up to erasure. -/
def Agrees (common : CommonClasses) (q : String) (d : TypeDecl) : Prop :=
  ∀ r u, Encloses q d r u → u.hasMark .inheritMissingMembers = true ∨ u.hasMark .inherit = true →
    ∀ c, common.find? r = some c → eraseParams none u.components =
      eraseParams none c.decl.components

theorem Agrees.nested {common : CommonClasses} (agrees : Agrees common q d) {t : TypeDecl}
    (ht : t ∈ d.nestedTypes) : Agrees common (nestedName q t.name) t :=
  fun r u hu ↦ agrees r u (.nested ht hu)

/-- A class that takes nothing in agrees with everything. -/
theorem Idle.agrees {common : CommonClasses} (idle : Idle q d) : Agrees common q d := by
  rintro r u hu (marked | marked)
  · exact absurd (marked.symm.trans (idle r u hu .inheritMissingMembers)) (by decide)
  · exact absurd (marked.symm.trans (idle r u hu .inherit)) (by decide)

/-- Nested types that are grafted agree as well, being idle. -/
theorem Agrees.graft (agrees : Agrees (.ofModel common) q d) (unmarked : common.Unmarked)
    {t : TypeDecl}
    (ht : t ∈ (graft (.ofModel common) passes q d).nestedTypes) :
    Agrees (.ofModel common) (nestedName q t.name) t := by
  rcases mem_nestedTypes_graft ht with ht | ⟨c, hc, ht⟩
  · exact agrees.nested ht
  · exact ((idle_of_find? unmarked hc).nested ht).agrees

/-- What is grafted is a matter of the name, the components and the members. -/
theorem members_graftItems_congr {e c : TypeDecl} (name : e.name = d.name)
    (components : e.components = d.components) (members : e.members = d.members) :
    (graftItems e c).members = (graftItems d c).members := by
  cases d
  cases e
  obtain rfl : _ = _ := name
  obtain rfl : _ = _ := components
  obtain rfl : _ = _ := members
  rfl

/-- The members after grafting types depend on the members alone. -/
theorem members_graftTypes_congr {e c : TypeDecl} (members : e.members = d.members) :
    (graftTypes e c).members = (graftTypes d c).members := by
  cases d
  cases e
  obtain rfl : _ = _ := members
  rfl

/-- A class that has the settled members takes in what it lacks as if they were not settled. -/
theorem members_graftItems_settled (unmarked : common.Unmarked) {c : ClassRef}
    (hc : (CommonClasses.ofModel common).find? q = some c) {e g : TypeDecl} (name : e.name = g.name)
    (components : e.components = g.components)
    (members : e.members = (mapMembers (settleMember (.ofModel common) passes q) g).members) :
    (graftItems e c.decl).members =
      (mapMembers (settleMember (.ofModel common) passes q) (graftItems g c.decl)).members := by
  rw [← graftItems_mapMembers alike_settleMember (fixesGrafts_settleMember unmarked hc g.name)]
  exact members_graftItems_congr name components members

/-- What `@Inherit` makes of a class whose members and annotations others have changed. -/
theorem value_inherit (scope : Scope) (d c : TypeDecl) (annotations : List Annotation)
    (members : List Member) :
    (Pass.inherit.apply scope c { d with annotations, members }).value =
      { reparent d c with
        annotations := Mark.removeFrom .inherit annotations
        members := (graftTypes (graftItems { d with annotations, members } c) c).members } :=
  congrArg (·.removeMark .inherit) (reparent_with d c annotations _)

/-- A pass that treats classes makes of the class itself what it is with the pass among the
others; the types in it are still to be visited. -/
theorem settle_visit (unmarked : common.Unmarked) {scope : Scope}
    (agrees : Agrees (.ofModel common) scope.qualified d) (class_pass : pass ≠ .overwrite)
    (new : pass ∉ passes) {emit : EmitSet} {e : TypeDecl}
    (he : e = settle (.ofModel common) passes scope.qualified d)
    (ok : (pass.visit (.ofModel common) scope emit e).fault = none) :
    (pass.visit (.ofModel common) scope emit e).value =
      { adopt (.ofModel common) (passes ++ [pass]) scope.qualified d with
        annotations := clearClass (passes ++ [pass]) d.annotations
        members := (mapMembers (settleMember (.ofModel common) passes scope.qualified)
          (graft (.ofModel common) (passes ++ [pass]) scope.qualified d)).members } := by
  rw [settle_eq_map unmarked] at he
  have treats : pass.treats e = pass.treats d :=
    Pass.treats_of_annotations (by rw [he]) class_pass new
  -- What the members have become does not show in what is grafted, so this is said of `d` alone.
  have grafted : ∀ c, (CommonClasses.ofModel common).find? scope.qualified = some c →
      (graftItems e c.decl).members =
        (mapMembers (settleMember (.ofModel common) passes scope.qualified)
        (graftItems (graft (.ofModel common) passes scope.qualified d) c.decl)).members := by
    intro c hc
    obtain ⟨_, _, _, _, adopted⟩ := adopt_eq (.ofModel common) passes scope.qualified d
    refine members_graftItems_settled unmarked hc ?_ ?_ (by rw [he])
    · rw [he, adopted, graft_eq]
    · rw [he, adopted, graft_eq]
  rcases Pass.visit_cases ok with ⟨untreated, hv⟩ | ⟨treated, c, hc, applied, hv⟩
  · rw [treats] at untreated
    have not_adopting : ¬(pass = .inherit ∧ d.hasMark .inherit = true) := by
      rintro ⟨rfl, marked⟩
      exact absurd (marked.symm.trans untreated) (by decide)
    rw [hv, he, adopt_append, if_neg not_adopting, clearClass_append_of_not_treats untreated,
      graft_append (by simp [untreated])]
  · rw [treats] at treated
    rw [hv]
    have grafted := grafted c hc
    cases pass with
    | inheritMissingMembers =>
      have agree : CompactAgree d c.decl := fun _ _ _ _ ↦ agrees _ _ .refl (.inl treated) c hc
      rw [graftItems_graft hc agree treated] at grafted
      have value : (Pass.inheritMissingMembers.apply scope c.decl e).value =
          { e with
            annotations := Mark.removeFrom .inheritMissingMembers e.annotations
            members := (graftItems e c.decl).members } := rfl
      rw [value, grafted, he, adopt_append, if_neg (by simp), clearClass_append]
      rfl
    | inherit =>
      have agree : CompactAgree d c.decl := fun _ _ _ _ ↦ agrees _ _ .refl (.inr treated) c hc
      have own : adopt (.ofModel common) passes scope.qualified d = d := if_neg fun h ↦ new h.1
      have members := members_graftTypes_congr (c := c.decl) grafted
      rw [graftTypes_mapMembers alike_settleMember (fixesGrafts_settleMember unmarked hc d.name),
        graftTypes_graft hc agree new treated] at members
      rw [own] at he
      subst he
      rw [value_inherit, members, adopt_append, if_pos ⟨rfl, treated⟩, hc, clearClass_append]
      rfl
    | overwriteClass =>
      have value :
          (Pass.overwriteClass.apply scope c.decl e).value = e.removeMark .overwriteClass :=
        rfl
      rw [value, he, adopt_append, if_neg (by simp), clearClass_append, graft_append (by rfl)]
      rfl
    | overwrite => exact absurd rfl class_pass

/-- Nothing is cleared in a class without marks. -/
theorem clearOverwrites_of_idle (idle : Idle q d) : d.clearOverwrites = d := by
  have overlaid : Overlaid .empty [] q d d := .refl q d
  exact overlaid.clearOverwrites.eq_of_idle idle

/-- The overwriting pass clears the items. -/
theorem settle_clearOverwrites (unmarked : common.Unmarked) :
    (settle (.ofModel common) passes q d).clearOverwrites =
      settle (.ofModel common) (passes ++ [.overwrite]) q d := by
  induction d using TypeDecl.nestingInduction generalizing q with
  | step d ih =>
    have members : ∀ m ∈ (graft (.ofModel common) passes q d).members,
        TypeDecl.clearMember (settleMember (.ofModel common) passes q m) =
          settleMember (.ofModel common) (passes ++ [.overwrite]) q m := by
      intro m hm
      cases m with
      | item i => exact congrArg Member.item (removeMark_clearItem passes i)
      | type t =>
        refine congrArg Member.type ?_
        rcases mem_nestedTypes_graft (TypeDecl.mem_nestedTypes.2 hm) with ht | ⟨c, hc, ht⟩
        · exact ih t ht
        · have idle := (idle_of_find? unmarked hc).nested ht
          rw [settle_of_idle idle, settle_of_idle idle]
          exact clearOverwrites_of_idle idle
    have cleared : (mapMembers (settleMember (.ofModel common) passes q)
          (graft (.ofModel common) passes q d)).members.map TypeDecl.clearMember =
        (mapMembers (settleMember (.ofModel common) (passes ++ [.overwrite]) q)
          (graft (.ofModel common) passes q d)).members :=
      List.map_map.trans (List.map_congr_left members)
    rw [TypeDecl.clearOverwrites_eq, settle_eq_map unmarked, settle_eq_map unmarked, adopt_append,
      if_neg (by simp), clearClass_append, graft_append (by rfl), ← cleared]
    rfl

/-- The step: with a pass more than before the type is settled with the pass among the others. -/
theorem settle_visitDecl (unmarked : common.Unmarked) {scope : Scope}
    (agrees : Agrees (.ofModel common) scope.qualified d) (new : pass ∉ passes) {levels : Nat}
    {emit : EmitSet} {e : TypeDecl} (he : e = settle (.ofModel common) passes scope.qualified d)
    (enough : Suffices (pass.visit (.ofModel common)) levels scope e)
    (ok : (visitDecl (pass.visit (.ofModel common)) levels scope emit e).fault = none) :
    (visitDecl (pass.visit (.ofModel common)) levels scope emit e).value =
      settle (.ofModel common) (passes ++ [pass]) scope.qualified d := by
  by_cases class_pass : pass = .overwrite
  · subst class_pass
    rw [visit_overwrite enough ok, he, settle_clearOverwrites unmarked]
  · refine visitDecl_induction (motive := fun scope _ e _ e' ↦ ∀ d,
        Agrees (.ofModel common) scope.qualified d →
        e = settle (.ofModel common) passes scope.qualified d →
        e' = settle (.ofModel common) (passes ++ [pass]) scope.qualified d)
      (fun scope emit e ok emit' members visited d agrees he ↦ ?_) enough ok d agrees he
    have value := settle_visit unmarked agrees class_pass new he ok
    rw [value] at visited ⊢
    have settled := visited.of_map.eq_map
      (g := settleMember (.ofModel common) (passes ++ [pass]) scope.qualified)
        fun _ m _ m' hm h ↦ by
        cases m with
        | item i =>
          cases h
          rw [settleMember, clearItem_append, if_neg class_pass]
        | type t =>
          obtain _ | h := h
          rw [name_settle] at h
          exact congrArg Member.type
            (h t (agrees.graft unmarked (TypeDecl.mem_nestedTypes.2 hm)) rfl)
    rw [settled, settle_eq_map unmarked]
    rfl

end step

/-! ## Models -/

section run

variable {common platform m : SourceModel} {done : List Pass} {emit : EmitSet}

/-- The type of the platform, which agrees with the common model, and what the passes have made of
it. -/
def Settled (common : CommonClasses) (passes : List Pass) (q : String) (d e : TypeDecl) : Prop :=
  Agrees common q d ∧ e = settle common passes q d

/-- A pass over a settled model leaves it settled with one pass more. -/
theorem settled_run (unmarked : common.Unmarked) {pass : Pass} (new : pass ∉ done)
    (h : platform.Corresponds (Settled (.ofModel common) done) m)
    (ok : (pass.run (.ofModel common) emit m).fault = none) :
    platform.Corresponds (Settled (.ofModel common) (done ++ [pass]))
      (pass.run (.ofModel common) emit m).value := by
  have step := SourceModel.corresponds_visit (R := fun q e e' ↦
    ∀ d, Settled (.ofModel common) done q d e →
      Settled (.ofModel common) (done ++ [pass]) q d e') ok
    fun file hf t ht n s ok d ⟨agrees, settled⟩ ↦
      ⟨agrees, settle_visitDecl unmarked agrees new settled (Pass.suffices_run _ pass hf ht n) ok⟩
  refine h.comp step (fun _ _ _ h ↦ ?_) fun _ _ _ _ h h' ↦ h' _ h
  rw [h.2, name_settle]

/-- Passes without a fault settle every type. -/
theorem settled_runPasses (unmarked : common.Unmarked) {passes : List Pass} (nodup : passes.Nodup)
    (h : platform.Corresponds (Settled (.ofModel common) []) m)
    (ok : (runPasses (.ofModel common) passes ⟨m, emit, none⟩).fault = none) :
    platform.Corresponds (Settled (.ofModel common) passes)
      (runPasses (.ofModel common) passes ⟨m, emit, none⟩).value :=
  runPasses_induction
    (motive := fun before _ m ↦ platform.Corresponds (Settled (.ofModel common) before) m)
    (fun _ _ _ _ behind h first ↦
      settled_run unmarked (not_mem_of_prefix_concat nodup behind) h first) h ok

end run

end Merge

end PlatformOverlay
