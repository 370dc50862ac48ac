import PlatformOverlay.Proofs.Check.Validate
import PlatformOverlay.Proofs.Merge.Origin

/-!
# What a merge does to the findings of a validation

A class keeps its own items when it is merged, and of the items with a signature its own come first
(`Overlaid.itemWith?_of_own`); so it is found wanting in nothing that it was not found wanting in
before, unless in items that were grafted.  Those are copies of common items and differ from them in
nothing that validation looks at.  What can be held against them is that a public constant of the
common class is there again, and that they stand in the place of another common item of the same
signature (`Clash`).

Validation looks at the merged class in two ways, and each is followed through the passes on its
own:

* whether an item with a signature is there (`declares_eq_true`), which only grafting can change,
  and only from no to yes;
* which is the first one and what its modifiers are (`badOverrides_overlaid`), which grafting leaves
  alone where the class had one.

`violations_overlaid` puts them together for one class, `findings_of_run` for a model.

## What is not claimed

A merge can create a finding. A constant that is grafted hides the one that it was taken from
(`exists_new_finding`), and `GraftedFinding` allows for this and for nothing that the platform has
written itself.
-/

namespace PlatformOverlay

open Java Model Merge

namespace Java

/-- The item that is found has the signature. -/
theorem TypeDecl.itemWith?_spec {decl : TypeDecl} {signature : Signature} {i : Item}
    (h : decl.itemWith? signature = some i) :
    i ∈ decl.items ∧ i.signature? decl = some signature := by
  unfold itemWith? at h
  exact ⟨List.mem_of_find?_eq_some h, by simpa using List.find?_some h⟩

namespace Item

section congr

variable {i i' : Item} {o o' : TypeDecl}

/-- Access is read off the modifiers, the content and the kind of the owner. -/
theorem access_congr (hm : i.modifiers = i'.modifiers) (hc : i.content = i'.content)
    (hk : o.kind = o'.kind) : i.access o = i'.access o' := by
  rw [access, access, hm, hc, hk]

theorem isStatic_congr (hm : i.modifiers = i'.modifiers) (hc : i.content = i'.content)
    (hk : o.kind = o'.kind) : i.isStatic o = i'.isStatic o' := by
  rw [isStatic, isStatic, isField, isField, hm, hc, hk]

/-- A description is made of the content and, for compact constructors, of the components. -/
theorem describe_congr (relative : String) (hc : i.content = i'.content)
    (ho : o.components = o'.components) : i.describe relative o = i'.describe relative o' := by
  rw [describe, describe, hc, ho]

end congr

section rename

variable (name : String) (i : Item) (o : TypeDecl)

/-- The name of a constructor plays no part in its access. -/
theorem access_renameConstructor : (renameConstructor name i).access o = i.access o := by
  unfold renameConstructor
  split
  next hc => rw [access, access, hc]
  all_goals rfl

theorem isStatic_renameConstructor : (renameConstructor name i).isStatic o = i.isStatic o := by
  rw [isStatic, isStatic, isField_renameConstructor, modifiers_renameConstructor]

theorem describe_renameConstructor (relative : String) :
    (renameConstructor name i).describe relative o = i.describe relative o := by
  unfold renameConstructor
  split
  next hc => rw [describe, describe, hc]
  all_goals rfl

end rename

end Item

end Java

namespace Merge

variable {common : CommonClasses} {passes : List Pass} {q : String} {d e : TypeDecl}

/-! ## The first item of a signature -/

/-- The first item with a property is found again after the passes, if grafts that may stand in
front of it do not have the property. -/
theorem OverlaidMembers.find?_items {p : Item → Bool} (own : ∀ i, p (clearItem passes i) = p i)
    (grafted : ∀ i, Grafted common passes q d (.item i) → i.isField = true → p i = false)
    {ms ms' : List Member} (h : OverlaidMembers common passes q d ms ms') {i : Item}
    (hi : (ms.filterMap Member.item?).find? p = some i) :
    (ms'.filterMap Member.item?).find? p = some (clearItem passes i) := by
  induction ms' generalizing ms with
  | nil =>
    cases h
    cases hi
  | cons m' ms' ih =>
    cases h with
    | @item _ _ _ j ms _ h =>
      rw [List.filterMap_cons_some (Member.item?_item j)] at hi
      rw [List.filterMap_cons_some (Member.item?_item _)]
      by_cases hp : p j = true
      · rw [List.find?_cons_of_pos hp] at hi
        rw [List.find?_cons_of_pos (by rwa [own]), Option.some.inj hi]
      · rw [List.find?_cons_of_neg hp] at hi
        rw [List.find?_cons_of_neg (by rwa [own])]
        exact ih h hi
    | type _ h => exact ih h hi
    | field hg hf h =>
      cases m' with
      | type t => cases hf
      | item j =>
        rw [List.filterMap_cons_some (Member.item?_item j),
          List.find?_cons_of_neg (by rw [grafted j hg hf]; decide)]
        exact ih h hi
    | rest => cases hi

theorem signature?_clearItem (passes : List Pass) (i : Item) (owner : TypeDecl) :
    (clearItem passes i).signature? owner = i.signature? owner :=
  Item.signature?_congr (content_clearItem passes i) rfl

/-- The first item of a signature stays the first: grafted fields have none that is there, and
all else is grafted behind. -/
theorem Overlaid.itemWith?_of_own (h : Overlaid common passes q d e) {signature : Signature}
    {i : Item} (hi : d.itemWith? signature = some i) :
    e.itemWith? signature = some (clearItem passes i) := by
  have owner (j : Item) : j.signature? e = j.signature? d := Item.signature?_congr rfl h.components
  obtain ⟨mem, found⟩ := TypeDecl.itemWith?_spec hi
  unfold TypeDecl.itemWith? at hi ⊢
  simp only [owner]
  refine h.members.find?_items (fun j ↦ by rw [signature?_clearItem]) (fun j hj field ↦ ?_) hi
  cases hj with
  | @item _ after _ _ _ c k _ _ _ hk lacking =>
    by_contra same
    have same : (clearItem after (renameConstructor d.name k)).signature? d = some signature := by
      simpa using same
    rw [signature?_clearItem, signature?_renameConstructor] at same
    have content : k.isField = true := by
      rwa [Item.isField, content_clearItem, ← Item.isField, isField_renameConstructor] at field
    have common_side : k.signature? c.decl = some signature := by
      obtain ⟨_, _, _, content'⟩ := k
      cases content' <;> first | exact same | cases content
    unfold Lacks at lacking
    rw [common_side] at lacking
    exact lacking i mem found

/-- An item of a signature that the class had no item of is a copy of a common one. -/
theorem Overlaid.itemWith?_of_lacking (h : Overlaid common passes q d e) {signature : Signature}
    {k : Item} (hd : d.itemWith? signature = none) (hk : e.itemWith? signature = some k) :
    ∃ c i after, common.find? q = some c ∧ i ∈ c.decl.items ∧ Lacks d c.decl i ∧
      (d.hasMark .inheritMissingMembers ∨ d.hasMark .inherit) ∧
      k = clearItem after (renameConstructor d.name i) ∧ i.signature? d = some signature := by
  obtain ⟨mem, found⟩ := TypeDecl.itemWith?_spec hk
  rw [Item.signature?_congr rfl h.components] at found
  rcases h.cases_item mem with ⟨i, hi, rfl⟩ | hg
  · rw [signature?_clearItem] at found
    rw [TypeDecl.itemWith?, List.find?_eq_none] at hd
    exact absurd (decide_eq_true found) (hd i hi)
  · cases hg with
    | @item _ after pass _ _ c i grafts treats hc hi lacking =>
      rw [signature?_clearItem, signature?_renameConstructor] at found
      refine ⟨c, i, after, hc, hi, lacking, ?_, rfl, found⟩
      cases pass with
      | inheritMissingMembers => exact .inl treats
      | inherit => exact .inr treats
      | overwriteClass => cases grafts
      | overwrite => cases grafts

end Merge

namespace Check

/-! ## The findings of one class -/

/-- What can be held against copies of items of the common class `c` in a class with the
components of `d`: a public constant is there twice, or a copy stands in the place of
another item of its signature. -/
inductive Clash (new : Item → Prop) (d : TypeDecl) (c : ClassRef) (relative : String) :
    ReportKind → String → Prop
  | constant {i : Item} : new i → i.isPublicConstant c.decl →
      Clash new d c relative .unreachableMembers (i.describe c.relative c.decl)
  | access {i j : Item} : new i → new j → i.signature? d = j.signature? c.decl →
      i.access c.decl < j.access c.decl →
      Clash new d c relative .moreRestrictiveAccess (i.describe relative d)
  | static {i j : Item} : new i → new j → i.signature? d = j.signature? c.decl →
      i.isStatic c.decl ≠ j.isStatic c.decl →
      Clash new d c relative .accessKindMismatch (i.describe relative d)

/-- A bad override is an item of the platform class with the signature of a member that it
overrides badly. -/
theorem mem_badOverrides {bad : TypeDecl → TypeDecl → Override → Bool} {x c : ClassRef}
    {text : String} : text ∈ badOverrides bad x c ↔
      ∃ j ∈ c.decl.items, ∃ signature, j.signature? c.decl = some signature ∧
        ∃ k, x.decl.itemWith? signature = some k ∧ bad x.decl c.decl ⟨j, k⟩ = true ∧
          k.describe x.relative x.decl = text := by
  unfold badOverrides overrides
  simp only [List.mem_map, List.mem_filter, List.mem_filterMap]
  constructor
  · rintro ⟨o, ⟨⟨j, hj, ho⟩, hb⟩, rfl⟩
    obtain ⟨k, hk, rfl⟩ := Option.map_eq_some_iff.1 ho
    obtain ⟨signature, hs, hk⟩ := Option.bind_eq_some_iff.1 hk
    exact ⟨j, List.mem_of_mem_filter hj, signature, hs, k, hk, hb, rfl⟩
  · rintro ⟨j, hj, signature, hs, k, hk, hb, rfl⟩
    have structural : j.isStructural c.decl = true := by
      rw [Item.isStructural, hs]
      rfl
    exact ⟨⟨j, k⟩, ⟨⟨j, List.mem_filter.2 ⟨hj, structural⟩, by
      rw [TypeDecl.counterpart?, hs, Option.bind_some, hk]
      rfl⟩, hb⟩, rfl⟩

/-- An item is declared when one with its signature is found. -/
theorem declares_eq_true {decl owner : TypeDecl} {i : Item} :
    decl.declares owner i = true ↔
      ∃ signature k, i.signature? owner = some signature ∧ decl.itemWith? signature = some k := by
  rw [TypeDecl.declares, TypeDecl.counterpart?, Option.isSome_iff_exists]
  constructor
  · rintro ⟨k, hk⟩
    obtain ⟨signature, hs, hk⟩ := Option.bind_eq_some_iff.1 hk
    exact ⟨signature, k, hs, hk⟩
  · rintro ⟨signature, k, hs, hk⟩
    exact ⟨k, by rw [hs]; exact hk⟩

/-- An item whose signature is not found is lacking. -/
theorem lacks_of_itemWith?_eq_none {d : TypeDecl} {c : ClassRef} {j : Item} {signature : Signature}
    (hs : j.signature? c.decl = some signature) (hd : d.itemWith? signature = none) :
    Lacks d c.decl j := by
  unfold Lacks
  rw [hs]
  rw [TypeDecl.itemWith?, List.find?_eq_none] at hd
  exact fun i hi same ↦ hd i hi (decide_eq_true same)

variable {common : CommonClasses} {passes : List Pass} {q : String} {d e : TypeDecl}

theorem kind_overlaid (h : Overlaid common passes q d e) : e.kind = d.kind := by
  obtain ⟨_, _, _, _, eq⟩ := h.eq_with
  rw [eq]

/-- The check looks at the overriding item for its access only and whether it is static. -/
def LooksAtModifiers (bad : TypeDecl → TypeDecl → Override → Bool) : Prop :=
  ∀ o o' c j k k', Item.access o k = Item.access o' k' → Item.isStatic o k = Item.isStatic o' k' →
    bad o c ⟨j, k⟩ = bad o' c ⟨j, k'⟩

/-- Whether access is narrowed depends on the modifiers. -/
theorem looksAtModifiers_restricts : LooksAtModifiers Override.restricts := by
  intro o o' c j k k' same _
  rw [Override.restricts, Override.restricts, same]

/-- Whether staticness is changed depends on them too. -/
theorem looksAtModifiers_changesKind : LooksAtModifiers Override.changesKind := by
  intro o o' c j k k' _ same
  rw [Override.changesKind, Override.changesKind, same]

/-- A bad override in the merged class was one before, or it is between two items of the common
class that were both lacking and have one signature. -/
theorem badOverrides_overlaid (h : Overlaid common passes q d e) {c : ClassRef}
    (hc : common.find? q = some c)
    (kinds : d.hasMark .inheritMissingMembers ∨ d.hasMark .inherit → d.kind = c.decl.kind)
    {bad : TypeDecl → TypeDecl → Override → Bool} (looks : LooksAtModifiers bad)
    {x y : ClassRef} (hx : x.decl = e) (hy : y.decl = d) (relative : x.relative = y.relative)
    {text : String} (ht : text ∈ badOverrides bad x c) :
    text ∈ badOverrides bad y c ∨
      (d.hasMark .inheritMissingMembers ∨ d.hasMark .inherit) ∧
      ∃ i ∈ c.decl.items, ∃ j ∈ c.decl.items, Lacks d c.decl i ∧ Lacks d c.decl j ∧
        i.signature? d = j.signature? c.decl ∧ bad c.decl c.decl ⟨j, i⟩ = true ∧
        i.describe y.relative d = text := by
  subst hx hy
  have hk := kind_overlaid h
  obtain ⟨j, hj, signature, hs, k, hkw, hb, rfl⟩ := mem_badOverrides.1 ht
  cases hd : y.decl.itemWith? signature with
  | some i =>
    obtain rfl := Option.some.inj ((h.itemWith?_of_own hd).symm.trans hkw)
    have content := content_clearItem passes i
    have modifiers := modifiers_clearItem passes i
    refine .inl (mem_badOverrides.2 ⟨j, hj, signature, hs, i, hd, ?_, ?_⟩)
    · rwa [looks _ x.decl c.decl j i (clearItem passes i)
        (Item.access_congr modifiers.symm content.symm hk.symm)
        (Item.isStatic_congr modifiers.symm content.symm hk.symm)]
    · rw [relative, Item.describe_congr _ content h.components]
  | none =>
    obtain ⟨c', i, after, hc', hi, lacking, marked, rfl, found⟩ := h.itemWith?_of_lacking hd hkw
    obtain rfl := Option.some.inj (hc.symm.trans hc')
    have content := content_clearItem after (renameConstructor y.decl.name i)
    have modifiers := modifiers_clearItem after (renameConstructor y.decl.name i)
    have kind := hk.trans (kinds marked)
    refine .inr ⟨marked, i, hi, j, hj, lacking, lacks_of_itemWith?_eq_none hs hd,
      found.trans hs.symm, ?_, ?_⟩
    · rwa [looks _ x.decl c.decl j i (clearItem after (renameConstructor y.decl.name i))]
      · rw [Item.access_congr modifiers content kind, Item.access_renameConstructor]
      · rw [Item.isStatic_congr modifiers content kind, Item.isStatic_renameConstructor]
    · rw [relative, Item.describe_congr _ content h.components, Item.describe_renameConstructor]

/-- What is wrong with a merged class was wrong before or is a clash among grafted items. -/
theorem violations_overlaid (h : Overlaid common passes q d e) {c : ClassRef}
    (hc : common.find? q = some c)
    (kinds : d.hasMark .inheritMissingMembers ∨ d.hasMark .inherit → d.kind = c.decl.kind)
    {x y : ClassRef} (hx : x.decl = e) (hy : y.decl = d) (relative : x.relative = y.relative)
    {kind : ReportKind} {text : String} (ht : text ∈ violations x c kind) :
    text ∈ violations y c kind ∨ (d.hasMark .inheritMissingMembers ∨ d.hasMark .inherit) ∧
      Clash (fun i ↦ i ∈ c.decl.items ∧ Lacks d c.decl i) d c y.relative kind text := by
  cases kind with
  | missingMembers =>
    obtain ⟨j, hj, rfl⟩ := List.mem_map.1 ht
    obtain ⟨hj, absent⟩ := List.mem_filter.1 hj
    refine .inl (List.mem_map.2 ⟨j, List.mem_filter.2 ⟨hj, ?_⟩, rfl⟩)
    rw [Bool.not_eq_true'] at absent ⊢
    by_contra declared
    rw [Bool.not_eq_false] at declared
    obtain ⟨signature, k, hs, hk⟩ := declares_eq_true.1 declared
    rw [hy] at hk
    have := declares_eq_true.2 ⟨signature, _, hs, h.itemWith?_of_own hk⟩
    rw [← hx, absent] at this
    cases this
  | unreachableMembers =>
    obtain ⟨j, hj, rfl⟩ := List.mem_map.1 ht
    obtain ⟨hj, declared⟩ := List.mem_filter.1 hj
    obtain ⟨signature, k, hs, hk⟩ := declares_eq_true.1 declared
    rw [hx] at hk
    cases hd : d.itemWith? signature with
    | some i =>
      refine .inl (List.mem_map.2 ⟨j, List.mem_filter.2 ⟨hj, ?_⟩, rfl⟩)
      rw [hy]
      exact declares_eq_true.2 ⟨signature, i, hs, hd⟩
    | none =>
      obtain ⟨hi, constant⟩ := List.mem_filter.1 hj
      obtain ⟨_, _, _, _, _, _, marked, _, _⟩ := h.itemWith?_of_lacking hd hk
      exact .inr ⟨marked, .constant ⟨hi, lacks_of_itemWith?_eq_none hs hd⟩ constant⟩
  | moreRestrictiveAccess =>
    rcases badOverrides_overlaid h hc kinds looksAtModifiers_restricts hx hy relative ht with ht |
      ⟨marked, i, hi, j, hj, li, lj, same, bad, rfl⟩
    · exact .inl ht
    · exact .inr ⟨marked, .access ⟨hi, li⟩ ⟨hj, lj⟩ same (of_decide_eq_true bad)⟩
  | accessKindMismatch =>
    rcases badOverrides_overlaid h hc kinds looksAtModifiers_changesKind hx hy relative ht with ht |
      ⟨marked, i, hi, j, hj, li, lj, same, bad, rfl⟩
    · exact .inl ht
    · exact .inr ⟨marked, .static ⟨hi, li⟩ ⟨hj, lj⟩ same
        (by simpa [Override.changesKind] using bad)⟩
  | missingOverwrites => cases ht

/-- What is held against a copy of the common class itself. -/
theorem clash_of_self {x c : ClassRef} (hx : x.decl = c.decl) {kind : ReportKind} {text : String}
    (ht : text ∈ violations x c kind) :
    Clash (· ∈ c.decl.items) c.decl c x.relative kind text := by
  cases kind with
  | missingMembers =>
    obtain ⟨j, hj, rfl⟩ := List.mem_map.1 ht
    obtain ⟨hj, absent⟩ := List.mem_filter.1 hj
    obtain ⟨mem, public_item⟩ := List.mem_filter.1 hj
    rw [Bool.not_eq_true', hx] at absent
    cases hs : j.signature? c.decl with
    | none => simp [Item.isStructural, hs] at public_item
    | some signature =>
      rw [TypeDecl.declares_eq_false hs] at absent
      exact absurd hs (absent j mem)
  | unreachableMembers =>
    obtain ⟨j, hj, rfl⟩ := List.mem_map.1 ht
    obtain ⟨mem, constant⟩ := List.mem_filter.1 (List.mem_of_mem_filter hj)
    exact .constant mem constant
  | moreRestrictiveAccess =>
    obtain ⟨j, hj, signature, hs, k, hk, bad, rfl⟩ := mem_badOverrides.1 ht
    rw [hx] at hk bad ⊢
    obtain ⟨mem, found⟩ := TypeDecl.itemWith?_spec hk
    exact .access mem hj (found.trans hs.symm) (of_decide_eq_true bad)
  | accessKindMismatch =>
    obtain ⟨j, hj, signature, hs, k, hk, bad, rfl⟩ := mem_badOverrides.1 ht
    rw [hx] at hk bad ⊢
    obtain ⟨mem, found⟩ := TypeDecl.itemWith?_spec hk
    exact .static mem hj (found.trans hs.symm) (by simpa [Override.changesKind] using bad)
  | missingOverwrites => cases ht

/-! ## All findings -/

/-- Each marked class of the platform is of the kind of its common counterpart. -/
def MarkedKindsAgree (common platform : SourceModel) : Prop :=
  ∀ x ∈ platform.classes, x.decl.isMarked = true →
    ∀ c ∈ (CommonClasses.ofModel common).find? x.qualified, x.decl.kind = c.decl.kind

instance (common platform : SourceModel) : Decidable (MarkedKindsAgree common platform) :=
  inferInstanceAs (Decidable (∀ _ ∈ _, _))

/-- A finding about what a merge has grafted: into a class that takes in missing items, or
with a type that arrives in one. -/
inductive GraftedFinding (common platform : SourceModel) : ReportKind → String → String → Prop
  | item {package : Option String} {q : String} {d : TypeDecl} {c : ClassRef} {kind : ReportKind}
      {text : String} : platform.Declares package q d →
      d.hasMark .inheritMissingMembers ∨ d.hasMark .inherit →
      (CommonClasses.ofModel common).find? q = some c →
      Clash (fun i ↦ i ∈ c.decl.items ∧ Lacks d c.decl i) d c (relativeName q package) kind text →
      GraftedFinding common platform kind q text
  | type {package : Option String} {r s q : String} {d t : TypeDecl} {c : ClassRef}
      {kind : ReportKind} {text : String} : platform.Declares package r d →
      TypeArrives (.ofModel common) r d s t → Encloses s t q c.decl →
      (CommonClasses.ofModel common).find? q = some c →
      Clash (· ∈ c.decl.items) c.decl c (relativeName q package) kind text →
      GraftedFinding common platform kind q text

theorem isMarked_of_inherits {d : TypeDecl}
    (h : d.hasMark .inheritMissingMembers = true ∨ d.hasMark .inherit = true) :
    d.isMarked = true := by
  rw [TypeDecl.isMarked, Bool.or_eq_true, List.any_eq_true]
  rcases h with h | h
  · exact .inl ⟨.inheritMissingMembers, by decide, h⟩
  · exact .inl ⟨.inherit, by decide, h⟩

theorem relative_eq (x : ClassRef) : x.relative = relativeName x.qualified x.package := rfl

/-- What is found wanting in a merged model was found wanting before the merge, or it is about
what was grafted. -/
theorem findings_of_run {common platform : SourceModel} (distinct : common.DistinctNames)
    (kinds : MarkedKindsAgree common platform)
    (ok : (run (.ofModel common) platform).fault = none) {kind : ReportKind} {q text : String}
    (h : text ∈ (validate (.ofModel common) (run (.ofModel common) platform).value).members kind
      q) :
    text ∈ (validate (.ofModel common) platform).members kind q ∨
      GraftedFinding common platform kind q text := by
  have merged := overlaid_merge ok
  rcases mem_members_validate.1 h with ⟨x, hx, rfl, c, hc, violated⟩ | ⟨rfl, absent, target⟩
  -- A class of the merged model is one of the platform, overlaid, or has come as a whole.
  · rcases origin_of_declares distinct merged (SourceModel.declares_of_mem hx) with
      ⟨d, hd, ho⟩ | ⟨r, d, s, t, v, passes, hd, arrives, hv, ho⟩
    · obtain ⟨y, hy, hp, hq, rfl⟩ := hd.exists_mem
      have relative : x.relative = y.relative := by rw [relative_eq, relative_eq, hp, hq]
      have agree (marked : y.decl.hasMark .inheritMissingMembers ∨ y.decl.hasMark .inherit) :
          y.decl.kind = c.decl.kind :=
        kinds y hy (isMarked_of_inherits marked) c (hq ▸ hc)
      rcases violations_overlaid ho hc agree rfl rfl relative violated with before | ⟨marked, clash⟩
      · exact .inl (mem_members_validate.2 (.inl ⟨y, hy, hq, c, hc, before⟩))
      · rw [← relative] at clash
        exact .inr (.item hd marked hc clash)
    -- A class that has come as a whole is its own counterpart, so what is held against it is in
    -- itself.
    · obtain ⟨c', hc', hself⟩ : ∃ c', (CommonClasses.ofModel common).find? x.qualified = some c' ∧
          c'.decl = v := by
        obtain ⟨-, -, hc₀, ht, -⟩ := arrives
        obtain ⟨c', hc', -, hd⟩ := CommonClasses.find?_of_encloses distinct hc₀ (.nested ht hv)
        exact ⟨c', hc', hd⟩
      obtain rfl := Option.some.inj (hc.symm.trans hc')
      subst hself
      obtain ⟨y, hy, relative⟩ : ∃ y : ClassRef, y.decl = c.decl ∧ x.relative = y.relative :=
        ⟨{ x with decl := c.decl }, rfl, rfl⟩
      rcases violations_overlaid ho hc (fun _ ↦ rfl) rfl hy relative violated with
        before | ⟨-, clash⟩
      · have clash := clash_of_self hy before
        rw [← relative] at clash
        exact .inr (.type hd arrives hv hc clash)
      · have none {i : Item} : ¬(i ∈ c.decl.items ∧ Lacks c.decl c.decl i) :=
          fun h ↦ not_lacks_self h.1 h.2
        cases clash with
        | constant new => exact absurd new none
        | access new => exact absurd new none
        | static new => exact absurd new none
  · refine .inl (mem_members_validate.2 (.inr ⟨rfl, fun present ↦ absent ?_, target⟩))
    obtain ⟨y, hy, rfl⟩ := List.mem_map.1 present
    obtain ⟨e, he, -⟩ := exists_declares_of_overlaid merged (SourceModel.declares_of_mem hy)
    obtain ⟨x, hx, -, hq, -⟩ := he.exists_mem
    exact List.mem_map.2 ⟨x, hx, hq⟩

/-- A public static final field without a value. -/
def constantOf (type name : String) : Item :=
  ⟨none, [], .ofList [.pub, .static, .final], .field ⟨type, name, none⟩⟩

/-- A common class with a constant. -/
def constantHolder : TypeDecl :=
  { TypeDecl.bare .classType "C" with members := [.item (constantOf "int" "K")] }

/-- A platform class without members that takes in what it lacks. -/
def inheritor : TypeDecl :=
  { TypeDecl.bare .classType "C" with annotations := [⟨"InheritMissingMembers", none⟩] }

/-- An instance in which a grafted constant is found. -/
theorem findings_of_run_constant :
    "K" ∈ (validate (.ofModel (.ofType constantHolder)) (.ofType inheritor)).members
        .unreachableMembers "C" ∨
      GraftedFinding (.ofType constantHolder) (.ofType inheritor) .unreachableMembers "C" "K" :=
  findings_of_run (by decide +kernel) (by decide +kernel) (by decide +kernel) (by decide +kernel)

/-- A merge can create a finding: the constant that it grafts hides the one it was taken from. -/
theorem exists_new_finding : ¬∀ common platform : SourceModel, common.DistinctNames →
    MarkedKindsAgree common platform → (run (.ofModel common) platform).fault = none →
    ∀ kind q, ∀ text ∈
      (validate (.ofModel common) (run (.ofModel common) platform).value).members kind q,
      text ∈ (validate (.ofModel common) platform).members kind q := by
  intro h
  have reported := h (.ofType constantHolder) (.ofType inheritor) (by decide +kernel)
    (by decide +kernel) (by decide +kernel) .unreachableMembers "C" "K" (by decide +kernel)
  revert reported
  decide +kernel

end Check

end PlatformOverlay
