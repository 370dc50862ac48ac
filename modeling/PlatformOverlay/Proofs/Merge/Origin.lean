import PlatformOverlay.Proofs.Merge.Overlay

/-!
# Where the classes of a merged model come from

Every platform class is there after a merge (`exists_declares_of_overlaid`), and every class that is
there is one of these or lies in a nested type that was grafted (`origin_of_declares`).  A common
class grafts nothing into a copy of itself (`not_lacks_self`), so nothing more has come into a
grafted type.

Validation goes through all classes of the merged model and needs to know this of each: either it is
overlaid, and what was wrong with it before is known, or it is a copy of its own counterpart.
-/

namespace PlatformOverlay.Merge

open Java Model

theorem not_lacks_self {d : TypeDecl} {i : Item} (hi : i ∈ d.items) : ¬Lacks d d i := by
  intro h
  unfold Lacks at h
  cases hs : i.signature? d with
  | none =>
    rw [hs] at h
    exact h i hi (Item.signature?_eq_none.1 hs) rfl
  | some signature =>
    rw [hs] at h
    exact h i hi hs

/-- The type `t` is nested in the counterpart of a class in `d` that takes in its nested types
and has none of the name; it comes to have the qualified name `q`. -/
inductive TypeArrives (common : CommonClasses) (r : String) (d : TypeDecl) :
    String → TypeDecl → Prop
  | mk {q : String} {e t : TypeDecl} {c : ClassRef} : Encloses r d q e → e.hasMark .inherit →
      common.find? q = some c → t ∈ c.decl.nestedTypes → (∀ u ∈ e.nestedTypes, u.name ≠ t.name) →
      TypeArrives common r d (nestedName q t.name) t

/-- What arrives in a nested type arrives in the type. -/
theorem TypeArrives.nested {common : CommonClasses} {r q : String} {d t u : TypeDecl}
    (hu : u ∈ d.nestedTypes) (h : TypeArrives common (nestedName r u.name) u q t) :
    TypeArrives common r d q t := by
  obtain ⟨he, marked, hc, ht, new⟩ := h
  exact ⟨.nested hu he, marked, hc, ht, new⟩

/-- Nothing arrives in a type that is its own counterpart. -/
theorem not_typeArrives_self {common : SourceModel} (distinct : common.DistinctNames)
    {q r s : String}
    {c : ClassRef} (hc : (CommonClasses.ofModel common).find? q = some c) {t u : TypeDecl}
    (ht : Encloses q c.decl r t) : ¬TypeArrives (.ofModel common) r t s u := by
  rintro ⟨he, -, hc', hu, new⟩
  obtain ⟨c₁, hc₁, -, rfl⟩ := CommonClasses.find?_of_encloses distinct hc (ht.trans he)
  obtain rfl := Option.some.inj (hc₁.symm.trans hc')
  exact new u hu rfl

/-- A nested type of an overlaid class is one of the platform, overlaid, or has arrived with a
type that was grafted. -/
theorem Overlaid.origin {common : SourceModel} (distinct : common.DistinctNames)
    {passes : List Pass} {q r : String} {d e u : TypeDecl}
    (h : Overlaid (.ofModel common) passes q d e) (hu : Encloses q e r u) :
    (∃ t, Encloses q d r t ∧ Overlaid (.ofModel common) passes r t u) ∨
      ∃ s t v passes, TypeArrives (.ofModel common) q d s t ∧ Encloses s t r v ∧
        Overlaid (.ofModel common) passes r v u := by
  induction hu generalizing passes d with
  | refl => exact .inl ⟨d, .refl, h⟩
  | nested ht' _ ih =>
    rcases h.cases_nestedType ht' with ⟨t, ht, h'⟩ | hg
    · rw [h'.name] at ih
      rcases ih h' with ⟨v, hv, hvu⟩ | ⟨s, w, v, passes', arrives, hv, hvu⟩
      · exact .inl ⟨v, .nested ht hv, hvu⟩
      · exact .inr ⟨s, w, v, passes', arrives.nested ht, hv, hvu⟩
    · obtain _ | ⟨marked, hc, ht, new, h'⟩ := hg
      rw [h'.name] at ih
      have arrives := TypeArrives.mk .refl marked hc ht fun u hu same ↦ by
        rw [TypeDecl.nestedType?, List.find?_eq_none] at new
        exact new u hu (decide_eq_true same)
      rcases ih h' with ⟨v, hv, hvu⟩ | ⟨_, _, _, _, again, -, -⟩
      · exact .inr ⟨_, _, v, _, arrives, hv, hvu⟩
      · exact absurd again (not_typeArrives_self distinct hc (.of_mem ht))

section model

variable {common : CommonClasses} {passes : List Pass} {platform merged : SourceModel}
  {package : Option String} {q : String} {d e : TypeDecl}

/-- Every type of the platform is in the merged model, overlaid. -/
theorem exists_declares_of_overlaid (h : platform.Corresponds (Overlaid common passes) merged)
    (hd : platform.Declares package q d) :
    ∃ e, merged.Declares package q e ∧ Overlaid common passes q d e := by
  obtain ⟨file, hf, hp, t, ht, he⟩ := hd
  obtain ⟨file', hf', eq, types⟩ := exists_of_forall₂ h.flip hf
  obtain ⟨t', ht', hR⟩ := exists_of_forall₂ types.flip ht
  rw [hp] at hR
  obtain ⟨e, he', ho⟩ := hR.exists_encloses he
  rw [← hR.name] at he'
  exact ⟨e, ⟨file', hf', by rw [eq]; exact hp, t', ht', he'⟩, ho⟩

/-- Every type of the merged model comes from a type of the platform or has been grafted with
one of the common model. -/
theorem origin_of_declares {common : SourceModel} (distinct : common.DistinctNames)
    (h : platform.Corresponds (Overlaid (.ofModel common) passes) merged)
    (he : merged.Declares package q e) :
    (∃ d, platform.Declares package q d ∧ Overlaid (.ofModel common) passes q d e) ∨
      ∃ r d s t v passes, platform.Declares package r d ∧ TypeArrives (.ofModel common) r d s t ∧
        Encloses s t q v ∧ Overlaid (.ofModel common) passes q v e := by
  obtain ⟨file', hf', hp, t', ht', he⟩ := he
  obtain ⟨file, hf, eq, types⟩ := exists_of_forall₂ h hf'
  obtain ⟨t, ht, ho⟩ := exists_of_forall₂ types ht'
  have same : file.package = package := by rw [← hp, eq]; rfl
  rw [← same, ho.name] at he
  have top : platform.Declares package (qualify file.package t.name) t :=
    ⟨file, hf, same, t, ht, by rw [same]; exact .refl⟩
  rcases ho.origin distinct he with ⟨d, hd, hde⟩ | ⟨s, w, v, passes', arrives, hv, hve⟩
  · exact .inl ⟨d, top.enclosed hd, hde⟩
  · exact .inr ⟨_, t, s, w, v, passes', top, arrives, hv, hve⟩

end model

end PlatformOverlay.Merge
