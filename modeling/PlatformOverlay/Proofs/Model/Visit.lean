import PlatformOverlay.Model.Visit
import PlatformOverlay.Proofs.Model.Classes

/-!
# Complete visits

A visit that no fault stops and whose levels suffice has gone to every type, those that it added
included, and what holds of each step along the types holds of the whole (`visitDecl_induction`).  A
visit has no fault if no step has one on the types that are `Ready`, and steps leave ready types
ready (`fault_visitDecl`).  Over a model the types before and after lie in corresponding places
(`SourceModel.Corresponds`).

| | for a list | for a type | for a model |
| --- | --- | --- | --- |
| its result | `threaded_visitList` | `visitDecl_induction` | `corresponds_visit` |
| it succeeds | `fault_visitList` | `fault_visitDecl` | `fault_visit` |
| it has | `exists_ok_of_visitList` | | `exists_ok_of_visit` |
| it fails | `exists_fault_of_visitList` | `exists_fault_of_visitDecl` | `exists_fault_of_visit` |

A visitor adds types while the visit is under way, so the recursion is on the levels and not on the
type. `Suffices` says that no type is left out for lack of them, and is a hypothesis in the column
for types; for passes it is proved once (`Pass.suffices_visit`).
-/

namespace PlatformOverlay.Model

open Java

variable {σ ε α β : Type}

namespace Visited

/-- A result without a fault is its value and its state. -/
theorem eq_of_ok {r : Visited σ ε α} (h : r.fault = none) : r = ⟨r.value, r.state, none⟩ := by
  rw [← h]

/-- A step that goes through hands its state and value on. -/
theorem andThen_of_ok {r : Visited σ ε α} {next : σ → α → Visited σ ε α} (h : r.fault = none) :
    r.andThen next = next r.state r.value := by
  rw [andThen, h]

theorem fault_andThen {r : Visited σ ε α} {next : σ → α → Visited σ ε α} :
    (r.andThen next).fault = none ↔ r.fault = none ∧ (next r.state r.value).fault = none := by
  unfold andThen
  cases h : r.fault <;> simp [h]

end Visited

/-! ## Lists -/

/-- One after another the elements are replaced, and the state goes along. -/
inductive Threaded (R : σ → α → σ → β → Prop) : σ → List α → σ → List β → Prop
  | nil {s : σ} : Threaded R s [] s []
  | cons {s s₁ s₂ : σ} {a : α} {b : β} {as : List α} {bs : List β} :
      R s a s₁ b → Threaded R s₁ as s₂ bs → Threaded R s (a :: as) s₂ (b :: bs)

/-- What an element has become comes from an element. -/
theorem Threaded.exists_left_of_mem {R : σ → α → σ → β → Prop} {s s' : σ} {as : List α}
    {bs : List β} (h : Threaded R s as s' bs) {b : β} (hb : b ∈ bs) :
    ∃ a ∈ as, ∃ s s', R s a s' b := by
  induction h with
  | nil => simp at hb
  | cons hr _ ih =>
    rcases List.mem_cons.1 hb with rfl | hb
    · exact ⟨_, List.mem_cons_self, _, _, hr⟩
    · obtain ⟨a, ha, h⟩ := ih hb
      exact ⟨a, List.mem_cons_of_mem _ ha, h⟩

theorem Threaded.exists_of_mem {R : σ → α → σ → β → Prop} {s s' : σ} {as : List α} {bs : List β}
    (h : Threaded R s as s' bs) {a : α} (ha : a ∈ as) : ∃ s s' b, R s a s' b := by
  induction h with
  | nil => simp at ha
  | cons hr _ ih =>
    rcases List.mem_cons.1 ha with rfl | ha
    · exact ⟨_, _, _, hr⟩
    · exact ih ha

/-- Where the states do not matter, elements are related one by one. -/
theorem Threaded.forall₂ {R : α → β → Prop} {s s' : σ} {as : List α} {bs : List β}
    (h : Threaded (fun _ a _ b ↦ R a b) s as s' bs) : List.Forall₂ R as bs := by
  induction h with
  | nil => exact .nil
  | cons hr _ ih => exact .cons hr ih

theorem Threaded.of_map {γ : Type} {R : σ → α → σ → β → Prop} {f : γ → α} {s s' : σ} {cs : List γ}
    {bs : List β} (h : Threaded R s (cs.map f) s' bs) :
    Threaded (fun s c ↦ R s (f c)) s cs s' bs := by
  induction cs generalizing s bs with
  | nil =>
    cases h
    exact .nil
  | cons c cs ih =>
    obtain _ | ⟨hr, h⟩ := h
    exact .cons hr (ih h)

/-- The visit of a list goes through when that of the first element does and that of the others
from there. -/
theorem fault_visitList_cons {f : σ → α → Visited σ ε α} {s : σ} {a : α} {as : List α} :
    (visitList f s (a :: as)).fault = none ↔
      (f s a).fault = none ∧ (visitList f (f s a).state as).fault = none := by
  rw [visitList]
  cases h : (f s a).fault <;> simp

theorem visitList_cons_of_ok {f : σ → α → Visited σ ε α} {s : σ} {a : α} {as : List α}
    (h : (f s a).fault = none) :
    visitList f s (a :: as) = (visitList f (f s a).state as).map ((f s a).value :: ·) := by
  rw [visitList, h]

/-- What a visit without a fault makes of a list: each element is replaced by what the visitor
makes of it, at the state it finds. -/
theorem threaded_visitList {f : σ → α → Visited σ ε α} {R : σ → α → σ → α → Prop} {s : σ}
    {as : List α} (h : (visitList f s as).fault = none)
    (hf : ∀ a ∈ as, ∀ s, (f s a).fault = none → R s a (f s a).state (f s a).value) :
    Threaded R s as (visitList f s as).state (visitList f s as).value := by
  induction as generalizing s with
  | nil => exact .nil
  | cons a as ih =>
    obtain ⟨h₁, h₂⟩ := fault_visitList_cons.1 h
    rw [visitList_cons_of_ok h₁]
    exact .cons (hf a List.mem_cons_self s h₁)
      (ih h₂ fun b hb ↦ hf b (List.mem_cons_of_mem _ hb))

theorem forall₂_visitList {f : σ → α → Visited σ ε α} {R : α → α → Prop} {s : σ} {as : List α}
    (h : (visitList f s as).fault = none)
    (hf : ∀ a ∈ as, ∀ s, (f s a).fault = none → R a (f s a).value) :
    List.Forall₂ R as (visitList f s as).value :=
  (threaded_visitList h hf).forall₂

/-- A visit goes through when it does at every element in every state. -/
theorem fault_visitList {f : σ → α → Visited σ ε α} {s : σ} {as : List α}
    (hf : ∀ a ∈ as, ∀ s, (f s a).fault = none) : (visitList f s as).fault = none := by
  induction as generalizing s with
  | nil => rfl
  | cons a as ih =>
    exact fault_visitList_cons.2
      ⟨hf a List.mem_cons_self s, ih fun b hb ↦ hf b (List.mem_cons_of_mem _ hb)⟩

/-- A visit that goes through does so at every element. -/
theorem exists_ok_of_visitList {f : σ → α → Visited σ ε α} {s : σ} {as : List α}
    (h : (visitList f s as).fault = none) {a : α} (ha : a ∈ as) : ∃ s, (f s a).fault = none := by
  have each := threaded_visitList (R := fun s a _ _ ↦ (f s a).fault = none) h fun _ _ _ ok ↦ ok
  obtain ⟨s, _, _, ok⟩ := each.exists_of_mem ha
  exact ⟨s, ok⟩

/-- A fault of a visit is one at some element. -/
theorem exists_fault_of_visitList {f : σ → α → Visited σ ε α} {s : σ} {as : List α} {error : ε}
    (h : (visitList f s as).fault = some error) :
    ∃ a ∈ as, ∃ s, (f s a).fault = some error := by
  induction as generalizing s with
  | nil => cases h
  | cons a as ih =>
    cases hf : (f s a).fault with
    | some other =>
      rw [visitList, hf] at h
      exact ⟨a, List.mem_cons_self, s, hf.trans h⟩
    | none =>
      rw [visitList_cons_of_ok hf] at h
      obtain ⟨b, hb, s', hs⟩ := ih h
      exact ⟨b, List.mem_cons_of_mem _ hb, s', hs⟩

/-- An element of the second list has a partner in the first. -/
theorem exists_of_forall₂ {R : α → β → Prop} {as : List α} {bs : List β}
    (h : List.Forall₂ R as bs) {b : β} (hb : b ∈ bs) : ∃ a ∈ as, R a b := by
  induction h with
  | nil => simp at hb
  | cons hr _ ih =>
    rcases List.mem_cons.1 hb with rfl | hb
    · exact ⟨_, List.mem_cons_self, hr⟩
    · obtain ⟨a, ha, hr⟩ := ih hb
      exact ⟨a, List.mem_cons_of_mem _ ha, hr⟩

/-- Lists that are related one after the other are related through the list in between. -/
theorem forall₂_trans {γ : Type} {R : α → β → Prop} {S : β → γ → Prop} {T : α → γ → Prop}
    (hT : ∀ a b c, R a b → S b c → T a c) {as : List α} {bs : List β} {cs : List γ}
    (h : List.Forall₂ R as bs) (h' : List.Forall₂ S bs cs) : List.Forall₂ T as cs := by
  induction h generalizing cs with
  | nil =>
    obtain rfl := List.forall₂_nil_left_iff.1 h'
    exact .nil
  | cons hr _ ih =>
    obtain ⟨c, cs', hs, hcs, rfl⟩ := List.forall₂_cons_left_iff.1 h'
    exact .cons (hT _ _ _ hr hs) (ih hcs)

/-! ## Types -/

variable {visit : Visitor σ ε}

/-- The levels reach every type that a visit without faults can come to. -/
def Suffices (visit : Visitor σ ε) : Nat → Scope → TypeDecl → Prop
  | 0, _, _ => False
  | levels + 1, scope, decl =>
      ∀ s, (visit scope s decl).fault = none →
        ∀ t ∈ (visit scope s decl).value.nestedTypes, Suffices visit levels (scope.nested t.name) t

/-- A member after the visit of its owner has gone on to it. -/
inductive MemberVisited (R : Scope → σ → TypeDecl → σ → TypeDecl → Prop) (scope : Scope) :
    σ → Member → σ → Member → Prop
  | item {s : σ} {i : Item} : MemberVisited R scope s (.item i) s (.item i)
  | type {s s' : σ} {t t' : TypeDecl} : R (scope.nested t.name) s t s' t' →
      MemberVisited R scope s (.type t) s' (.type t')

/-- What a visit without a fault makes of a type, by induction along the visit: given what it
has made of the nested types that the visitor left, show it for the type itself. -/
theorem visitDecl_induction {motive : Scope → σ → TypeDecl → σ → TypeDecl → Prop}
    (step : ∀ scope s decl, (visit scope s decl).fault = none → ∀ s' members,
      Threaded (MemberVisited motive scope) (visit scope s decl).state
        (visit scope s decl).value.members s' members →
      motive scope s decl s' { (visit scope s decl).value with members })
    {levels : Nat} {scope : Scope} {s : σ} {decl : TypeDecl}
    (enough : Suffices visit levels scope decl)
    (h : (visitDecl visit levels scope s decl).fault = none) :
    motive scope s decl (visitDecl visit levels scope s decl).state
      (visitDecl visit levels scope s decl).value := by
  induction levels generalizing scope s decl with
  | zero => exact enough.elim
  | succ levels ih =>
    rw [visitDecl, Visited.fault_andThen] at h
    rw [visitDecl, Visited.andThen_of_ok h.1]
    refine step scope s decl h.1 _ _ (threaded_visitList h.2 fun m hm s₁ h₁ ↦ ?_)
    cases m with
    | item i => exact .item
    | type t => exact .type (ih (enough s h.1 t (TypeDecl.mem_nestedTypes.2 hm)) h₁)

/-- A visit goes through when the visitor does on a class of types that it hands on to the
nested ones. -/
theorem fault_visitDecl {motive : Scope → TypeDecl → Prop}
    (step : ∀ scope s decl, motive scope decl → (visit scope s decl).fault = none ∧
      ∀ t ∈ (visit scope s decl).value.nestedTypes, motive (scope.nested t.name) t)
    {levels : Nat} {scope : Scope} {s : σ} {decl : TypeDecl} (h : motive scope decl) :
    (visitDecl visit levels scope s decl).fault = none := by
  induction levels generalizing scope s decl with
  | zero => rfl
  | succ levels ih =>
    obtain ⟨h₁, ready⟩ := step scope s decl h
    rw [visitDecl, Visited.fault_andThen]
    refine ⟨h₁, fault_visitList fun m hm s₁ ↦ ?_⟩
    cases m with
    | item i => rfl
    | type t => exact ih (ready t (TypeDecl.mem_nestedTypes.2 hm))

/-- A fault of the visit of a type is one of the visitor at a type. -/
theorem exists_fault_of_visitDecl {levels : Nat} {scope : Scope} {s : σ} {decl : TypeDecl}
    {error : ε} (h : (visitDecl visit levels scope s decl).fault = some error) :
    ∃ scope s decl, (visit scope s decl).fault = some error := by
  induction levels generalizing scope s decl with
  | zero => cases h
  | succ levels ih =>
    cases hf : (visit scope s decl).fault with
    | some other =>
      rw [visitDecl, Visited.andThen, hf] at h
      exact ⟨scope, s, decl, h⟩
    | none =>
      rw [visitDecl, Visited.andThen_of_ok hf] at h
      obtain ⟨m, -, s', hm⟩ := exists_fault_of_visitList h
      cases m with
      | item i => cases hm
      | type t => exact ih hm

/-! ## Models -/

namespace SourceModel

/-- The models have the same files up to their types, and types in the same places are
related under the qualified name of the first. -/
def Corresponds (R : String → TypeDecl → TypeDecl → Prop) (model model' : SourceModel) : Prop :=
  List.Forall₂ (fun file file' : SourceFile ↦
    file' = { file with unit := { file.unit with types := file'.unit.types } } ∧
    List.Forall₂ (fun t t' ↦ R (qualify file.package t.name) t t')
      file.unit.types file'.unit.types) model.files model'.files

namespace Corresponds

variable {R S T : String → TypeDecl → TypeDecl → Prop} {model model' model'' : SourceModel}

theorem of_self (h : ∀ q t, R q t t) : Corresponds R model model :=
  List.forall₂_same.2 fun _ _ ↦ ⟨rfl, List.forall₂_same.2 fun _ _ ↦ h _ _⟩

/-- A relation between types can be weakened. -/
theorem mono (h : Corresponds R model model') (hRS : ∀ q t t', R q t t' → S q t t') :
    Corresponds S model model' :=
  h.imp fun _ _ hf ↦ ⟨hf.1, hf.2.imp fun _ _ ht ↦ hRS _ _ _ ht⟩

/-- The types keep their names, so that the second step is looked at under the name of the
first. -/
theorem comp (h : Corresponds R model model') (h' : Corresponds S model' model'')
    (hname : ∀ q t t', R q t t' → t'.name = t.name)
    (hT : ∀ q t t' t'', R q t t' → S q t' t'' → T q t t'') : Corresponds T model model'' := by
  refine forall₂_trans (fun file file' file'' hf hf' ↦ ⟨by rw [hf'.1, hf.1], ?_⟩) h h'
  have package : file'.package = file.package := by rw [hf.1]; rfl
  refine forall₂_trans (fun t t' t'' ht ht' ↦ ?_) hf.2 hf'.2
  rw [package, hname _ _ _ ht] at ht'
  exact hT _ _ _ _ ht ht'

end Corresponds

/-- A visit of a model that goes through changes its top-level types only, each in its place. -/
theorem corresponds_visit {R : String → TypeDecl → TypeDecl → Prop} {model : SourceModel}
    {levels : Nat} {s : σ} (h : (model.visit visit levels s).fault = none)
    (hR : ∀ file ∈ model.files, ∀ t ∈ file.unit.types, ∀ n s,
      (visitDecl visit levels (file.scope n t) s t).fault = none →
      R (qualify file.package t.name) t (visitDecl visit levels (file.scope n t) s t).value) :
    Corresponds R model (model.visit visit levels s).value := by
  have files := forall₂_visitList (R := fun file file' : SourceFile × Nat ↦
      file'.1 = { file.1 with unit := { file.1.unit with types := file'.1.unit.types } } ∧
      List.Forall₂ (fun t t' ↦ R (qualify file.1.package t.name) t t')
        file.1.unit.types file'.1.unit.types) h fun file hfile s hf ↦
    ⟨rfl, forall₂_visitList hf fun t ht s ok ↦
      hR file.1 (List.fst_mem_of_mem_zipIdx hfile) t ht _ s ok⟩
  rw [Corresponds, ← List.zipIdx_map_fst 0 model.files, List.forall₂_map_left_iff]
  exact List.forall₂_map_right_iff.2 files

/-- A visit of a model goes through when it does at every top-level type. -/
theorem fault_visit {model : SourceModel} {levels : Nat} {s : σ}
    (h : ∀ file ∈ model.files, ∀ t ∈ file.unit.types, ∀ n s,
      (visitDecl visit levels (file.scope n t) s t).fault = none) :
    (model.visit visit levels s).fault = none :=
  fault_visitList fun file hf _ ↦
    fault_visitList fun t ht s ↦ h file.1 (List.fst_mem_of_mem_zipIdx hf) t ht file.2 s

/-- A visit of a model that goes through does so at every top-level type. -/
theorem exists_ok_of_visit {model : SourceModel} {levels : Nat} {s : σ}
    (h : (model.visit visit levels s).fault = none) {file : SourceFile} (hf : file ∈ model.files)
    {t : TypeDecl} (ht : t ∈ file.unit.types) :
    ∃ n s, (visitDecl visit levels (file.scope n t) s t).fault = none := by
  obtain ⟨n, hn⟩ := List.mem_iff_getElem?.1 hf
  rw [← List.mk_mem_zipIdx_iff_getElem?] at hn
  obtain ⟨s₁, h₁⟩ := exists_ok_of_visitList h hn
  exact ⟨n, exists_ok_of_visitList h₁ ht⟩

/-- A fault of a visit is one of the visitor, at some type. -/
theorem exists_fault_of_visit {model : SourceModel} {levels : Nat} {s : σ} {error : ε}
    (h : (model.visit visit levels s).fault = some error) :
    ∃ scope s decl, (visit scope s decl).fault = some error := by
  obtain ⟨file, -, s₁, h₁⟩ := exists_fault_of_visitList h
  obtain ⟨t, -, s₂, h₂⟩ := exists_fault_of_visitList h₁
  exact exists_fault_of_visitDecl h₂

end SourceModel

end PlatformOverlay.Model
