import PlatformOverlay.Model.Source

/-!
# Visiting the types of a model

A visit goes to every type, outer types before the types in them, and may replace what it finds;
types that it adds are visited too.  It carries a state, and a fault stops it at once: what was
replaced before stays replaced and the rest is left as it was.

As a visitor may add types to the type it is called with, the depth of a type is no bound for the
visit of it. So `visitDecl` is given a number of levels and counts them down. That they suffice is
proved for each visitor that is used, and more of them make no difference then.
-/

namespace PlatformOverlay.Model

open Java

/-- What a visit leaves behind: the value, the state, and the fault that stopped it. -/
structure Visited (σ ε α : Type) where
  value : α
  state : σ
  fault : Option ε

namespace Visited

variable {σ ε α β : Type}

def map (f : α → β) (r : Visited σ ε α) : Visited σ ε β := ⟨f r.value, r.state, r.fault⟩

@[simp] theorem value_map (f : α → β) (r : Visited σ ε α) : (r.map f).value = f r.value := rfl
@[simp] theorem state_map (f : α → β) (r : Visited σ ε α) : (r.map f).state = r.state := rfl
@[simp] theorem fault_map (f : α → β) (r : Visited σ ε α) : (r.map f).fault = r.fault := rfl

/-- Go on with the value and the state unless a fault has stopped the visit. -/
def andThen (r : Visited σ ε α) (next : σ → α → Visited σ ε α) : Visited σ ε α :=
  match r.fault with
  | some _ => r
  | none => next r.state r.value

end Visited

variable {σ ε α : Type}

/-- Visit the elements of a list one after another. -/
def visitList (f : σ → α → Visited σ ε α) : σ → List α → Visited σ ε (List α)
  | s, [] => ⟨[], s, none⟩
  | s, a :: as =>
    let head := f s a
    match head.fault with
    | some e => ⟨head.value :: as, head.state, some e⟩
    | none => (visitList f head.state as).map (head.value :: ·)

/-- What a visit does with one type. -/
abbrev Visitor (σ ε : Type) := Scope → σ → TypeDecl → Visited σ ε TypeDecl

/-- Visit a member that is a type; items are left to the visit of their owner. -/
def visitMember (f : Visitor σ ε) (scope : Scope) (s : σ) : Member → Visited σ ε Member
  | .item i => ⟨.item i, s, none⟩
  | .type t => (f (scope.nested t.name) s t).map .type

/-- Visit a type and the types in it, down to the given number of levels. -/
def visitDecl (visit : Visitor σ ε) : Nat → Visitor σ ε
  | 0, _, s, decl => ⟨decl, s, none⟩
  | levels + 1, scope, s, decl =>
    (visit scope s decl).andThen fun s decl ↦
      (visitList (visitMember (visitDecl visit levels) scope) s decl.members).map
        fun members ↦ { decl with members }

def visitFile (f : Visitor σ ε) (s : σ) (file : SourceFile × Nat) :
    Visited σ ε (SourceFile × Nat) :=
  (visitList (fun s decl ↦ f (file.1.scope file.2 decl) s decl) s file.1.unit.types).map
    fun types ↦ ({ file.1 with unit := { file.1.unit with types } }, file.2)

namespace SourceModel

/-- Visit the types of a model down to the given number of levels. -/
def visit (visitor : Visitor σ ε) (levels : Nat) (s : σ) (model : SourceModel) :
    Visited σ ε SourceModel :=
  (visitList (visitFile (visitDecl visitor levels)) s model.files.zipIdx).map
    fun files ↦ ⟨files.map Prod.fst⟩

end SourceModel

end PlatformOverlay.Model
