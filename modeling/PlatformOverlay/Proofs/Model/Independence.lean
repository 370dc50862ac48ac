import PlatformOverlay.Proofs.Model.Visit

/-!
# What a visit does not depend on

Levels beyond those that suffice change nothing (`visitDecl_levels`).  A visitor that does not look
at the number of the file does the same in each (`visitDecl_atFile`), so a visit of a model goes
through its files as if each were alone (`SourceModel.visit_eq`).  What each step passes on of the
state, the whole passes on (`visitList_mapState`, `visitDecl_mapState`).

The last is how a visit that records is run with nothing recorded at first: putting what has been
recorded before on top is a map of the states. Where in addition no fault depends on the state,
whether a visit goes through and what it has recorded can be said element by element
(`fault_visitList_iff`, `state_visitList_iff`).
-/

namespace PlatformOverlay.Model

open Java

variable {σ τ ε α β : Type}

namespace Visited

def mapState (g : σ → τ) (r : Visited σ ε α) : Visited τ ε α := ⟨r.value, g r.state, r.fault⟩

@[simp] theorem value_mapState (g : σ → τ) (r : Visited σ ε α) :
    (r.mapState g).value = r.value := rfl
@[simp] theorem state_mapState (g : σ → τ) (r : Visited σ ε α) :
    (r.mapState g).state = g r.state := rfl
@[simp] theorem fault_mapState (g : σ → τ) (r : Visited σ ε α) :
    (r.mapState g).fault = r.fault := rfl

/-- Values and states are mapped independently. -/
theorem map_mapState (f : α → β) (g : σ → τ) (r : Visited σ ε α) :
    (r.mapState g).map f = (r.map f).mapState g := rfl

theorem andThen_of_fault {r : Visited σ ε α} {next : σ → α → Visited σ ε α} {error : ε}
    (h : r.fault = some error) : r.andThen next = r := by
  rw [andThen, h]

/-- A map of the values passes through the steps when it does through each. -/
theorem map_andThen {f : α → β} {r : Visited σ ε α} {next : σ → β → Visited σ ε β}
    {next' : σ → α → Visited σ ε α} (h : next r.state (f r.value) = (next' r.state r.value).map f) :
    (r.map f).andThen next = (r.andThen next').map f := by
  unfold andThen
  rw [fault_map]
  cases r.fault with
  | some _ => rfl
  | none => exact h

theorem andThen_mapState {r : Visited σ ε α} {next : σ → α → Visited σ ε α}
    {next' : τ → α → Visited τ ε α} {g : σ → τ}
    (h : next' (g r.state) r.value = (next r.state r.value).mapState g) :
    (r.mapState g).andThen next' = (r.andThen next).mapState g := by
  unfold andThen
  rw [fault_mapState]
  cases r.fault with
  | some _ => rfl
  | none => exact h

end Visited

/-! ## Lists -/

/-- A visit of a list by its first element: a fault there ends the visit and leaves the rest as
it is. -/
theorem visitList_cons (f : σ → α → Visited σ ε α) (s : σ) (a : α) (as : List α) :
    visitList f s (a :: as) =
      match (f s a).fault with
      | some e => ⟨(f s a).value :: as, (f s a).state, some e⟩
      | none => (visitList f (f s a).state as).map ((f s a).value :: ·) := rfl

theorem visitList_singleton (f : σ → α → Visited σ ε α) (s : σ) (a : α) :
    visitList f s [a] = (f s a).map ([·]) := by
  rw [visitList_cons, Visited.map]
  cases h : (f s a).fault <;> simp [visitList, Visited.map, h]

/-- A visit depends on the visitor at the elements only. -/
theorem visitList_congr {f f' : σ → α → Visited σ ε α} {as : List α}
    (h : ∀ a ∈ as, ∀ s, f s a = f' s a) (s : σ) : visitList f s as = visitList f' s as := by
  induction as generalizing s with
  | nil => rfl
  | cons a as ih =>
    rw [visitList_cons, visitList_cons, h a List.mem_cons_self s,
      ih fun b hb ↦ h b (List.mem_cons_of_mem _ hb)]

/-- A map of the states that passes through the visitor passes through the visit. -/
theorem visitList_mapState {f : σ → α → Visited σ ε α} {f' : τ → α → Visited τ ε α} {g : σ → τ}
    {as : List α} (h : ∀ a ∈ as, ∀ s, f' (g s) a = (f s a).mapState g) (s : σ) :
    visitList f' (g s) as = (visitList f s as).mapState g := by
  induction as generalizing s with
  | nil => rfl
  | cons a as ih =>
    rw [visitList_cons, visitList_cons, h a List.mem_cons_self s, Visited.fault_mapState]
    cases (f s a).fault with
    | some e => rfl
    | none =>
      simp only [Visited.state_mapState, Visited.value_mapState]
      rw [ih fun b hb ↦ h b (List.mem_cons_of_mem _ hb), Visited.map_mapState]

/-- The numbers of the elements may be left out if no step looks at them. -/
theorem visitList_zipIdx {f : σ → α × Nat → Visited σ ε (α × Nat)} {f' : σ → α → Visited σ ε α}
    {as : List α} (h : ∀ a ∈ as, ∀ n s, (f s (a, n)).map Prod.fst = f' s a) (n : Nat) (s : σ) :
    (visitList f s (as.zipIdx n)).map (List.map Prod.fst) = visitList f' s as := by
  induction as generalizing n s with
  | nil => rfl
  | cons a as ih =>
    have later := ih (fun b hb ↦ h b (List.mem_cons_of_mem _ hb)) (n + 1) (f s (a, n)).state
    rw [List.zipIdx_cons, visitList_cons, visitList_cons, ← h a List.mem_cons_self n s,
      Visited.fault_map]
    cases (f s (a, n)).fault with
    | some e => simp [Visited.map, List.zipIdx_map_fst]
    | none =>
      simp only [Visited.state_map, Visited.value_map]
      rw [← later]
      rfl

/-- What is recorded in the end was recorded before or by one of the steps. -/
theorem Threaded.state_iff {R : σ → α → σ → β → Prop} {K : σ → Prop} {P : α → Prop} {s s' : σ}
    {as : List α} {bs : List β} (h : Threaded R s as s' bs)
    (hR : ∀ s a s' b, a ∈ as → R s a s' b → (K s' ↔ K s ∨ P a)) : K s' ↔ K s ∨ ∃ a ∈ as, P a := by
  induction h with
  | nil => simp
  | cons hr _ ih =>
    rw [ih fun s a s' b ha ↦ hR s a s' b (List.mem_cons_of_mem _ ha),
      hR _ _ _ _ List.mem_cons_self hr, List.exists_mem_cons_iff, or_assoc]

section state

variable {f : σ → α → Visited σ ε α} {s₀ s : σ} {as : List α}

/-- When no fault depends on the state, the visit of a list goes through if that of each element
does from a fixed state. -/
theorem fault_visitList_iff (h : ∀ a ∈ as, ∀ s, (f s a).fault = (f s₀ a).fault) :
    (visitList f s as).fault = none ↔ ∀ a ∈ as, (f s₀ a).fault = none := by
  induction as generalizing s with
  | nil => simp [visitList]
  | cons a as ih =>
    rw [fault_visitList_cons, h a List.mem_cons_self, ih fun b hb ↦ h b (List.mem_cons_of_mem _ hb),
      List.forall_mem_cons]

/-- When a property of the state is only ever acquired at elements, it holds at the end if it
did at the start or was acquired at one of them. -/
theorem state_visitList_iff {K : σ → Prop} {P : α → Prop} (ok : (visitList f s as).fault = none)
    (h : ∀ a ∈ as, ∀ s, (f s a).fault = none → (K (f s a).state ↔ K s ∨ P a)) :
    K (visitList f s as).state ↔ K s ∨ ∃ a ∈ as, P a :=
  (threaded_visitList (R := fun s a s' _ ↦ K s' ↔ K s ∨ P a) ok h).state_iff fun _ _ _ _ _ hr ↦ hr

end state

/-! ## Types -/

variable {visit : Visitor σ ε} {visit' : Visitor τ ε}

/-- Levels that suffice all give the same visit, so that fuel is no part of its meaning. -/
theorem visitDecl_levels {m n : Nat} {scope : Scope} {decl : TypeDecl}
    (hm : Suffices visit m scope decl) (hn : Suffices visit n scope decl) (s : σ) :
    visitDecl visit m scope s decl = visitDecl visit n scope s decl := by
  induction m generalizing n scope decl s with
  | zero => exact hm.elim
  | succ m ih =>
    cases n with
    | zero => exact hn.elim
    | succ n =>
      rw [visitDecl, visitDecl]
      cases hf : (visit scope s decl).fault with
      | some e => rw [Visited.andThen_of_fault hf, Visited.andThen_of_fault hf]
      | none =>
        rw [Visited.andThen_of_ok hf, Visited.andThen_of_ok hf]
        congr 1
        refine visitList_congr (fun a ha s' ↦ ?_) _
        cases a with
        | item i => rfl
        | type t =>
          have ht := TypeDecl.mem_nestedTypes.2 ha
          rw [visitMember, visitMember, ih (hm s hf t ht) (hn s hf t ht)]

/-- A visitor that does not look at the index of the file may be run at any. -/
theorem visitDecl_atFile
    (h : ∀ scope k s decl, visit { scope with file := k } s decl = visit scope s decl)
    (levels : Nat) (scope : Scope) (k : Nat) (s : σ) (decl : TypeDecl) :
    visitDecl visit levels { scope with file := k } s decl =
      visitDecl visit levels scope s decl := by
  induction levels generalizing scope s decl with
  | zero => rfl
  | succ levels ih =>
    have member : visitMember (visitDecl visit levels) { scope with file := k } =
        visitMember (visitDecl visit levels) scope := by
      funext s m
      cases m with
      | item i => rfl
      | type t => exact congrArg (Visited.map Member.type) (ih (scope.nested t.name) s t)
    rw [visitDecl, visitDecl, h, member]

/-- A map of the states that passes through the visitor passes through the visit of a type at
all depths. -/
theorem visitDecl_mapState {g : σ → τ}
    (h : ∀ scope s decl, visit' scope (g s) decl = (visit scope s decl).mapState g)
    (levels : Nat) (scope : Scope) (s : σ) (decl : TypeDecl) :
    visitDecl visit' levels scope (g s) decl =
      (visitDecl visit levels scope s decl).mapState g := by
  induction levels generalizing scope s decl with
  | zero => rfl
  | succ levels ih =>
    rw [visitDecl, visitDecl, h]
    refine Visited.andThen_mapState ?_
    rw [← Visited.map_mapState]
    refine congrArg (Visited.map _) (visitList_mapState (fun m _ s' ↦ ?_) _)
    cases m with
    | item i => rfl
    | type t => exact congrArg (Visited.map Member.type) (ih (scope.nested t.name) s' t)

/-! ## Files -/

/-- Visit the types of a file by itself. -/
def SourceFile.visitAlone (visitor : Visitor σ ε) (levels : Nat) (s : σ) (file : SourceFile) :
    Visited σ ε SourceFile :=
  (visitList (fun s decl ↦ visitDecl visitor levels (file.scope 0 decl) s decl) s
    file.unit.types).map
    fun types ↦ { file with unit := { file.unit with types } }

theorem SourceFile.visitAlone_mapState {g : σ → σ}
    (h : ∀ scope s decl, visit scope (g s) decl = (visit scope s decl).mapState g)
    (levels : Nat) (s : σ) (file : SourceFile) :
    file.visitAlone visit levels (g s) = (file.visitAlone visit levels s).mapState g := by
  rw [visitAlone, visitAlone, ← Visited.map_mapState]
  exact congrArg (Visited.map _)
    (visitList_mapState (fun t _ s' ↦ visitDecl_mapState h levels (file.scope 0 t) s' t) s)

theorem SourceModel.visit_mapState {g : σ → τ}
    (h : ∀ scope s decl, visit' scope (g s) decl = (visit scope s decl).mapState g)
    (levels : Nat) (s : σ) (model : SourceModel) :
    model.visit visit' levels (g s) = (model.visit visit levels s).mapState g := by
  have file (file : SourceFile × Nat) (s : σ) : visitFile (visitDecl visit' levels) (g s) file =
      (visitFile (visitDecl visit levels) s file).mapState g := by
    rw [visitFile, visitFile, ← Visited.map_mapState]
    exact congrArg (Visited.map _)
      (visitList_mapState (fun t _ s ↦ visitDecl_mapState h levels (file.1.scope file.2 t) s t) s)
  rw [SourceModel.visit, SourceModel.visit, ← Visited.map_mapState]
  exact congrArg (Visited.map _) (visitList_mapState (fun a _ s ↦ file a s) s)

/-- A visit of a model visits each file by itself, one after another. -/
theorem SourceModel.visit_eq {model : SourceModel} {levels : Nat} {enough : SourceFile → Nat}
    (h : ∀ scope k s decl, visit { scope with file := k } s decl = visit scope s decl)
    (all : ∀ file ∈ model.files, ∀ t ∈ file.unit.types, Suffices visit levels (file.scope 0 t) t)
    (each : ∀ file ∈ model.files, ∀ t ∈ file.unit.types,
      Suffices visit (enough file) (file.scope 0 t) t) (s : σ) :
    model.visit visit levels s =
      (visitList (fun s file ↦ file.visitAlone visit (enough file) s) s model.files).map .mk := by
  rw [← visitList_zipIdx (f := visitFile (visitDecl visit levels)) (fun file hf n s ↦ ?_) 0 s]
  · rfl
  · refine congrArg (Visited.map fun types ↦ { file with unit := { file.unit with types } })
      (visitList_congr (fun t ht s ↦ ?_) s)
    rw [← visitDecl_levels (all file hf t ht) (each file hf t ht)]
    exact visitDecl_atFile h levels (file.scope 0 t) n s t

end PlatformOverlay.Model
