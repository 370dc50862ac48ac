import PlatformOverlay.Proofs.Model.Identifiers
import PlatformOverlay.Proofs.Model.Independence

/-!
# The order of a visit

A visit rewrites a model while it goes through it, and the enumeration of classes looks at the model
that it leaves.  If the visitor lets types keep their names, its calls went to the classes so
enumerated, one by one and in their order (`Traced`).  A fault stops them at one class, and behind
the outermost type around it the model is as it was (`SourceModel.SameBehind`).  The levels that a
visit is given have not cut it short if what it leaves is no deeper.

The calls are observed from outside: `recording` wraps a visitor so that its state keeps a list of
them, and does the same otherwise (`KeepsNames.recording`). A `Call` has the place of the type with
what the visitor made of it, which is not yet what is found there in the end, since the visit goes
on to the nested types; `Settles` says how the two differ.

`Traced` is proved where the visit recurses, from the inside out:

1. a list of elements, up to the first fault (`traced_visitList`);
2. the members of a type, where only types are called (`traced_visitMembers`), and the type with
   them (`traced_visitDecl`);
3. the types of a file, the files of a model (`traced_visitFile`, `traced_visit`).

The visitor may be any with `KeepsNames`: it may add types, drop them and change their order.
Nothing here is about merging.
-/

namespace PlatformOverlay.Model

open Java

variable {σ ε α : Type}

/-! ## Calls -/

/-- A call of a visitor: the place of the type it went to, what it made of the type, and its
fault. -/
structure Call (ε : Type) where
  scope : Scope
  left : TypeDecl
  fault : Option ε

/-- The visitor with a record of its calls. -/
def recording (visit : Visitor σ ε) : Visitor (σ × List (Call ε)) ε := fun scope s decl ↦
  let r := visit scope s.1 decl
  ⟨r.value, (r.state, s.2 ++ [⟨scope, r.value, r.fault⟩]), r.fault⟩

/-- The calls of a visitor in a visit. -/
def SourceModel.calls (visit : Visitor σ ε) (levels : Nat) (s : σ) (model : SourceModel) :
    List (Call ε) := (model.visit (recording visit) levels (s, [])).state.2

/-- The visitor may change all of a type but its own name. -/
def KeepsNames (visit : Visitor σ ε) : Prop :=
  ∀ scope s decl, (visit scope s decl).value.name = decl.name

/-- The same item, or types of the same name. -/
inductive SameSlot : Member → Member → Prop
  | item (i : Item) : SameSlot (.item i) (.item i)
  | type {t t' : TypeDecl} : t'.name = t.name → SameSlot (.type t) (.type t')

theorem SameSlot.refl (m : Member) : SameSlot m m := by
  cases m with
  | item i => exact .item i
  | type t => exact .type rfl

namespace Call

/-- The call went well, and the class is what it left, up to what later calls made of the types in
it. -/
structure Settles (call : Call ε) (c : ClassRef) : Prop where
  ok : call.fault = none
  scope : call.scope = c.scope
  decl : ∃ members, List.Forall₂ SameSlot call.left.members members ∧
    c.decl = { call.left with members }

/-- The call failed, and the class is what it left. -/
structure FailsAt (call : Call ε) (error : ε) (c : ClassRef) : Prop where
  fault : call.fault = some error
  scope : call.scope = c.scope
  decl : call.left = c.decl

end Call

/-- The calls went to these classes in their order: to all of them, or up to one, with the property
`P`, at which the last call failed. -/
inductive Traced (P : ClassRef → Prop) : Option ε → List (Call ε) → List ClassRef → Prop
  | whole {calls : List (Call ε)} {classes : List ClassRef} :
      List.Forall₂ Call.Settles calls classes → Traced P none calls classes
  | stopped {error : ε} {calls : List (Call ε)} {call : Call ε} {before after : List ClassRef}
      {c : ClassRef} : List.Forall₂ Call.Settles calls before → call.FailsAt error c → P c →
        Traced P (some error) (calls ++ [call]) (before ++ c :: after)

namespace Traced

variable {P Q : ClassRef → Prop} {fault : Option ε} {error : ε} {calls calls' : List (Call ε)}
  {classes classes' : List ClassRef}

/-- The property of the class at which the calls stopped can be weakened. -/
theorem mono (h : Traced P fault calls classes) (hPQ : ∀ c, P c → Q c) :
    Traced Q fault calls classes := by
  cases h with
  | whole settled => exact .whole settled
  | stopped settled fails hc => exact .stopped settled fails (hPQ _ hc)

/-- A call that fails at the first class is the only one. -/
theorem at_head {call : Call ε} {c : ClassRef} (fails : call.FailsAt error c) (hc : P c)
    (after : List ClassRef) : Traced P (some error) [call] (c :: after) :=
  .stopped (.nil : List.Forall₂ Call.Settles [] []) fails hc

/-- Calls that all went well can be put in front. -/
theorem append (settled : List.Forall₂ Call.Settles calls classes)
    (h : Traced P fault calls' classes') :
    Traced P fault (calls ++ calls') (classes ++ classes') := by
  cases h with
  | whole settled' => exact .whole (List.rel_append settled settled')
  | stopped settled' fails hc =>
    rw [← List.append_assoc, ← List.append_assoc]
    exact .stopped (List.rel_append settled settled') fails hc

/-- Classes behind the one that failed are not called. -/
theorem append_right (h : Traced P (some error) calls classes) (more : List ClassRef) :
    Traced P (some error) calls (classes ++ more) := by
  cases h with
  | stopped settled fails hc =>
    rw [List.append_assoc]
    exact .stopped settled fails hc

/-- Without a fault, all classes have been called. -/
theorem settles (h : Traced P (none : Option ε) calls classes) :
    List.Forall₂ Call.Settles calls classes := by
  cases h with
  | whole settled => exact settled

end Traced

/-! ## Lists -/

/-- The element around the class is one of the first list and has become one of the second, and
behind it nothing has changed. -/
def StopsIn (P : Nat → α → α → ClassRef → Prop) (n : Nat) (as bs : List α) (c : ClassRef) : Prop :=
  ∃ k a b, as[k]? = some a ∧ bs[k]? = some b ∧ bs.drop (k + 1) = as.drop (k + 1) ∧ P (n + k) a b c

theorem StopsIn.cons {P : Nat → α → α → ClassRef → Prop} {n : Nat} {as bs : List α} {c : ClassRef}
    (h : StopsIn P (n + 1) as bs c) (a b : α) : StopsIn P n (a :: as) (b :: bs) c := by
  obtain ⟨k, x, y, hx, hy, same, hP⟩ := h
  exact ⟨k + 1, x, y, hx, hy, same, by rwa [Nat.add_assoc, Nat.add_comm 1] at hP⟩

/-- The calls for a list are those for its elements, up to the first fault. -/
theorem traced_visitList {f : σ × List (Call ε) → α → Visited (σ × List (Call ε)) ε α}
    {P : Nat → α → α → ClassRef → Prop} {n : Nat} {s : σ × List (Call ε)}
    (as : List α) (classes : Nat → α → List ClassRef) (Ok : α → Prop)
    (step : ∀ p ∈ as.zipIdx n, ∀ s, Ok (f s p.1).value → ∃ calls, (f s p.1).state.2 = s.2 ++ calls ∧
      Traced (P p.2 p.1 (f s p.1).value) (f s p.1).fault calls (classes p.2 (f s p.1).value))
    (ok : ∀ b ∈ (visitList f s as).value, Ok b) :
    ∃ calls, (visitList f s as).state.2 = s.2 ++ calls ∧
      Traced (StopsIn P n as (visitList f s as).value) (visitList f s as).fault calls
        (((visitList f s as).value.zipIdx n).flatMap fun p ↦ classes p.2 p.1) := by
  induction as generalizing s n with
  | nil => exact ⟨[], (List.append_nil _).symm, .whole .nil⟩
  | cons a as ih =>
    have first := step (a, n) (by simp) s
    cases hf : (f s a).fault with
    | some error =>
      rw [visitList_cons, hf] at ok ⊢
      obtain ⟨calls, log, traced⟩ := first (ok _ List.mem_cons_self)
      rw [hf] at traced
      rw [List.zipIdx_cons, List.flatMap_cons]
      refine ⟨calls, log, (traced.append_right _).mono fun c hc ↦ ?_⟩
      exact ⟨0, a, (f s a).value, rfl, rfl, rfl, hc⟩
    | none =>
      rw [visitList_cons_of_ok hf] at ok ⊢
      simp only [Visited.state_map, Visited.value_map, Visited.fault_map] at ok ⊢
      obtain ⟨calls, log, traced⟩ := first (ok _ List.mem_cons_self)
      obtain ⟨calls', log', traced'⟩ := ih
        (fun p hp ↦ step p (by rw [List.zipIdx_cons]; exact List.mem_cons_of_mem _ hp))
        fun b hb ↦ ok b (List.mem_cons_of_mem _ hb)
      rw [hf] at traced
      rw [List.zipIdx_cons, List.flatMap_cons]
      refine ⟨calls ++ calls', by rw [log', log, List.append_assoc], ?_⟩
      exact (traced'.mono fun c hc ↦ hc.cons a (f s a).value).append traced.settles

/-- Elements keep their places in a visit, even when it fails: those behind the fault are as
they were. -/
theorem forall₂_visitList_value {f : σ → α → Visited σ ε α} {R : α → α → Prop} {s : σ}
    {as : List α} (refl : ∀ a, R a a) (h : ∀ a ∈ as, ∀ s, R a (f s a).value) :
    List.Forall₂ R as (visitList f s as).value := by
  induction as generalizing s with
  | nil => exact .nil
  | cons a as ih =>
    rw [visitList_cons]
    split
    · exact .cons (h a List.mem_cons_self s) (List.forall₂_same.2 fun b _ ↦ refl b)
    · exact .cons (h a List.mem_cons_self s) (ih fun b hb ↦ h b (List.mem_cons_of_mem _ hb))

/-- Two visits that agree on what the first one leaves are the same. -/
theorem visitList_congr_of_value {f f' : σ → α → Visited σ ε α} {s : σ} {as : List α}
    (Ok : α → Prop) (h : ∀ a ∈ as, ∀ s, Ok (f s a).value → f' s a = f s a)
    (ok : ∀ b ∈ (visitList f s as).value, Ok b) : visitList f' s as = visitList f s as := by
  induction as generalizing s with
  | nil => rfl
  | cons a as ih =>
    have first := h a List.mem_cons_self s
    have rest := fun b hb ↦ h b (List.mem_cons_of_mem a hb)
    rw [visitList_cons] at ok
    rw [visitList_cons, visitList_cons]
    cases hf : (f s a).fault with
    | some error =>
      rw [hf] at ok
      rw [first (ok _ List.mem_cons_self), hf]
    | none =>
      rw [hf] at ok
      rw [first (ok _ List.mem_cons_self), hf]
      exact congrArg (Visited.map _) (ih rest fun b hb ↦ ok b (List.mem_cons_of_mem _ hb))

/-! ## Types -/

variable {visit : Visitor σ ε}

/-- If the visitor keeps names, then so does the visit of a whole type. -/
theorem KeepsNames.visitDecl (keeps : KeepsNames visit) (levels : Nat) :
    KeepsNames (visitDecl visit levels) := by
  intro scope s decl
  cases levels with
  | zero => rfl
  | succ levels =>
    rw [Model.visitDecl]
    cases hf : (visit scope s decl).fault with
    | some error => rw [Visited.andThen_of_fault hf, keeps]
    | none =>
      rw [Visited.andThen_of_ok hf]
      exact keeps scope s decl

/-- Recording the calls does not change what is done. -/
theorem KeepsNames.recording (keeps : KeepsNames visit) : KeepsNames (recording visit) :=
  fun scope s decl ↦ keeps scope s.1 decl

/-- Items stay in their places, and types keep their names. -/
theorem sameSlot_visitMember (keeps : KeepsNames visit) (scope : Scope) (s : σ) (m : Member) :
    SameSlot m (visitMember visit scope s m).value := by
  cases m with
  | item i => exact .item i
  | type t => exact .type (keeps _ s t)

/-- The classes of the members, member by member with its index. -/
theorem classesOfMembers_eq (file : SourceFile) (id : ClassId) (scope : Scope) (index : Nat)
    (ms : List Member) : classesOfMembers file id scope index ms =
      (ms.zipIdx index).flatMap fun p ↦ classesOfMember file id scope p.2 p.1 := by
  induction ms generalizing index with
  | nil => rfl
  | cons m ms ih => rw [classesOfMembers, ih, List.zipIdx_cons, List.flatMap_cons]

/-- The class lies in the same outermost type. -/
def InSameTop (id : ClassId) (c : ClassRef) : Prop := c.id.file = id.file ∧ c.id.top = id.top

/-- The calls of a visit of one type, at each place where it may stand. -/
def TracesType (r : Visited (σ × List (Call ε)) ε TypeDecl) (s : σ × List (Call ε))
    (scope : Scope) : Prop :=
  ∀ file id, ∃ calls, r.state.2 = s.2 ++ calls ∧
    Traced (InSameTop id) r.fault calls (classesOf file id scope r.value)

/-- The calls for the members of a type are those for the types among them. -/
theorem traced_visitMembers {f : Visitor (σ × List (Call ε)) ε} (keeps : KeepsNames f)
    {levels : Nat} {scope : Scope} {s : σ × List (Call ε)} {ms : List Member}
    (inner : ∀ scope s t, (f scope s t).value.depth ≤ levels → TracesType (f scope s t) s scope)
    (within : TypeDecl.membersDepth (visitList (visitMember f scope) s ms).value ≤ levels)
    (file : SourceFile) (id : ClassId) :
    ∃ calls, (visitList (visitMember f scope) s ms).state.2 = s.2 ++ calls ∧
      Traced (InSameTop id) (visitList (visitMember f scope) s ms).fault calls
        (classesOfMembers file id scope 0 (visitList (visitMember f scope) s ms).value) := by
  rw [classesOfMembers_eq]
  have listed := traced_visitList (f := visitMember f scope) (P := fun _ _ _ c ↦ InSameTop id c)
    (n := 0) (s := s) ms (classesOfMember file id scope) (TypeDecl.memberDepth · ≤ levels) ?_ ?_
  · obtain ⟨calls, log, traced⟩ := listed
    exact ⟨calls, log, traced.mono fun c ⟨_, _, _, _, _, _, hc⟩ ↦ hc⟩
  · rintro ⟨m, index⟩ - s ok
    cases m with
    | item i => exact ⟨[], (List.append_nil _).symm, .whole .nil⟩
    | type t =>
      obtain ⟨calls, log, traced⟩ := inner (scope.nested t.name) s t ok file (id.nested index)
      refine ⟨calls, log, ?_⟩
      have name : (f (scope.nested t.name) s t).value.name = t.name := keeps _ s t
      simpa only [visitMember, Visited.value_map, Visited.fault_map, classesOfMember, name] using
        show Traced (InSameTop id) _ _ _ from traced
  · intro m hm
    exact Nat.le_trans (TypeDecl.memberDepth_le hm) within

/-- The calls for a type and the types in it go to these as they are enumerated afterwards. -/
theorem traced_visitDecl (keeps : KeepsNames visit) {levels : Nat} {scope : Scope}
    {s : σ × List (Call ε)} {decl : TypeDecl}
    (within : (visitDecl (recording visit) levels scope s decl).value.depth ≤ levels) :
    TracesType (visitDecl (recording visit) levels scope s decl) s scope := by
  induction levels generalizing scope s decl with
  | zero => exact absurd (TypeDecl.depth_pos _) (Nat.not_lt_of_le within)
  | succ levels ih =>
    intro file id
    rw [visitDecl] at within ⊢
    cases hf : (visit scope s.1 decl).fault with
    | some error =>
      have stopped : (recording visit scope s decl).fault = some error := hf
      rw [Visited.andThen_of_fault stopped, classesOf_eq, stopped]
      exact ⟨_, rfl, .at_head ⟨hf, rfl, rfl⟩ ⟨rfl, rfl⟩ _⟩
    | none =>
      have went : (recording visit scope s decl).fault = none := hf
      have names := keeps.recording.visitDecl levels
      rw [Visited.andThen_of_ok went] at within ⊢
      rw [Visited.value_map, TypeDecl.depth_eq, Nat.add_le_add_iff_right] at within
      obtain ⟨calls, log, traced⟩ := traced_visitMembers names (fun _ _ _ ↦ ih) within file id
      rw [classesOf_eq]
      refine ⟨⟨scope, (visit scope s.1 decl).value, none⟩ :: calls, ?_, ?_⟩
      · rw [Visited.state_map, log]
        simp [recording, hf]
      · refine Traced.append (.cons ⟨rfl, rfl, _, ?_, rfl⟩ .nil) traced
        exact forall₂_visitList_value SameSlot.refl fun m _ s ↦ sameSlot_visitMember names scope s m

/-- If nothing is left deeper than the levels, none of them has cut the visit short. -/
theorem visitDecl_of_within {levels more : Nat} {scope : Scope} {s : σ} {decl : TypeDecl}
    (within : (visitDecl visit levels scope s decl).value.depth ≤ levels) (le : levels ≤ more) :
    visitDecl visit more scope s decl = visitDecl visit levels scope s decl := by
  induction levels generalizing more scope s decl with
  | zero => exact absurd (TypeDecl.depth_pos _) (Nat.not_lt_of_le within)
  | succ levels ih =>
    obtain ⟨more, rfl⟩ := Nat.exists_eq_add_of_lt le
    rw [visitDecl] at within
    rw [visitDecl, visitDecl]
    cases hf : (visit scope s decl).fault with
    | some error => rw [Visited.andThen_of_fault hf, Visited.andThen_of_fault hf]
    | none =>
      rw [Visited.andThen_of_ok hf] at within
      rw [Visited.andThen_of_ok hf, Visited.andThen_of_ok hf]
      rw [Visited.value_map, TypeDecl.depth_eq, Nat.add_le_add_iff_right] at within
      refine congrArg (Visited.map _) (visitList_congr_of_value
        (TypeDecl.memberDepth · ≤ levels) (fun m _ s ok ↦ ?_) fun m hm ↦ ?_)
      · cases m with
        | item i => rfl
        | type t => exact congrArg (Visited.map Member.type) (ih ok (Nat.le_add_right _ _))
      · exact Nat.le_trans (TypeDecl.memberDepth_le hm) within

/-! ## Files and models -/

/-- The class lies in the file, and behind the outermost type around it the file is the same. -/
def SameBehindIn (n : Nat) (file file' : SourceFile) (c : ClassRef) : Prop :=
  c.id.file = n ∧ file'.unit.types.drop (c.id.top + 1) = file.unit.types.drop (c.id.top + 1)

/-- The calls of the visit of a file go to its classes, as they are afterwards. -/
theorem traced_visitFile (keeps : KeepsNames visit) {levels n : Nat} {s : σ × List (Call ε)}
    {file : SourceFile} {r : Visited (σ × List (Call ε)) ε (SourceFile × Nat)}
    (hr : visitFile (visitDecl (recording visit) levels) s (file, n) = r)
    (within : ∀ t ∈ r.value.1.unit.types, t.depth ≤ levels) :
    ∃ calls, r.state.2 = s.2 ++ calls ∧
      Traced (SameBehindIn n file r.value.1) r.fault calls (r.value.1.classes n) := by
  subst hr
  have names := keeps.recording.visitDecl levels
  set f := visitFile (visitDecl (recording visit) levels) s (file, n) with hf
  have listed := traced_visitList
    (f := fun s decl ↦ visitDecl (recording visit) levels (file.scope n decl) s decl)
    (P := fun top _ _ c ↦ c.id.file = n ∧ c.id.top = top) (n := 0) (s := s) file.unit.types
    (fun top t ↦ classesOf f.value.1 ⟨n, top, []⟩ (file.scope n t) t) (·.depth ≤ levels) ?_ within
  · obtain ⟨calls, log, traced⟩ := listed
    refine ⟨calls, log, Traced.mono traced ?_⟩
    rintro c ⟨k, t, t', -, -, same, hfile, htop⟩
    rw [Nat.zero_add] at htop
    exact ⟨hfile, by rw [htop]; exact same⟩
  · rintro ⟨t, top⟩ - s ok
    obtain ⟨calls, log, traced⟩ := traced_visitDecl keeps ok f.value.1 ⟨n, top, []⟩
    have scope : file.scope n (visitDecl (recording visit) levels (file.scope n t) s t).value =
        file.scope n t := congrArg (Scope.top n file.package) (names _ s t)
    refine ⟨calls, log, ?_⟩
    dsimp only
    rw [scope]
    exact traced

namespace SourceModel

/-- The files behind that of the type are the same, and in its file the types behind the outermost
one around it. -/
structure SameBehind (id : ClassId) (model model' : SourceModel) : Prop where
  files : model'.files.drop (id.file + 1) = model.files.drop (id.file + 1)
  types : ∃ file file', model.files[id.file]? = some file ∧ model'.files[id.file]? = some file' ∧
    file'.unit.types.drop (id.top + 1) = file.unit.types.drop (id.top + 1)

theorem depth_le_of_mem_files {model : SourceModel} {levels : Nat} (within : model.depth ≤ levels) :
    ∀ file ∈ model.files, ∀ t ∈ file.unit.types, t.depth ≤ levels :=
  fun _ hf _ ht ↦ Nat.le_trans (depth_le_of_mem hf ht) within

/-- The calls of the visit of a model go to its classes, as they are afterwards. -/
theorem traced_visit (keeps : KeepsNames visit) {levels : Nat} {s : σ} {model : SourceModel}
    {r : Visited (σ × List (Call ε)) ε SourceModel}
    (hr : model.visit (recording visit) levels (s, []) = r) (within : r.value.depth ≤ levels) :
    Traced (fun c ↦ SameBehind c.id model r.value) r.fault r.state.2 r.value.classes := by
  subst hr
  have shallow := depth_le_of_mem_files within
  rw [SourceModel.visit] at shallow ⊢
  set visited := visitList (visitFile (visitDecl (recording visit) levels)) (s, [])
    model.files.zipIdx with hvisited
  have listed := traced_visitList (f := visitFile (visitDecl (recording visit) levels))
    (P := fun n p q c ↦ SameBehindIn n p.1 q.1 c) (n := 0) (s := (s, ([] : List (Call ε))))
    model.files.zipIdx (fun n p ↦ p.1.classes n) (∀ t ∈ ·.1.unit.types, t.depth ≤ levels) ?_ ?_
  · obtain ⟨calls, log, traced⟩ := listed
    have classes : (⟨visited.value.map Prod.fst⟩ : SourceModel).classes =
        visited.value.zipIdx.flatMap fun p ↦ p.1.1.classes p.2 := by
      unfold SourceModel.classes
      rw [List.zipIdx_map, List.flatMap_map]
      rfl
    simp only [Visited.value_map, Visited.state_map, Visited.fault_map]
    rw [classes, log, List.nil_append]
    -- The elements of the list are files with their numbers; now the numbers are dropped again.
    refine traced.mono ?_
    rintro c ⟨k, p, q, hp, hq, same, hfile, behind⟩
    rw [Nat.zero_add] at hfile
    constructor
    · have := congrArg (List.map Prod.fst) same
      rwa [List.map_drop, List.map_drop, List.zipIdx_map_fst, ← hfile] at this
    · refine ⟨p.1, q.1, ?_, ?_, behind⟩
      · rw [hfile, ← List.zipIdx_map_fst 0 model.files, List.getElem?_map, hp]
        rfl
      · rw [hfile, List.getElem?_map, hq]
        rfl
  · rintro ⟨⟨file, n⟩, k⟩ hk s ok
    obtain rfl : n = k := by
      rw [List.mk_mem_zipIdx_iff_getElem?, List.getElem?_zipIdx] at hk
      obtain ⟨_, -, e⟩ := Option.map_eq_some_iff.1 hk
      simpa using (congrArg Prod.snd e).symm
    exact traced_visitFile keeps rfl ok
  · intro p hp
    exact shallow p.1 (List.mem_map_of_mem hp)

/-- Once the visited model is within the levels, more of them make no difference. -/
theorem visit_of_within {levels more : Nat} {s : σ} {model : SourceModel}
    (within : (model.visit visit levels s).value.depth ≤ levels) (le : levels ≤ more) :
    model.visit visit more s = model.visit visit levels s := by
  have shallow := depth_le_of_mem_files within
  refine congrArg (Visited.map _) (visitList_congr_of_value
    (∀ t ∈ ·.1.unit.types, t.depth ≤ levels) (fun p _ s ok ↦ ?_) fun p hp ↦ ?_)
  · exact congrArg (Visited.map _) (visitList_congr_of_value
      (·.depth ≤ levels) (fun _ _ _ ok ↦ visitDecl_of_within ok le) ok)
  · exact shallow p.1 (List.mem_map_of_mem hp)

/-- A visitor that lets types keep their names goes to the classes of the model that it leaves, in
their order and to each once; if it never fails, to all of them.  A fault stops it at one class,
and behind the outermost type around that the model is as it was.  The levels count for nothing if
what is left is no deeper. -/
theorem visit_goes_to_classes (keeps : KeepsNames visit) {levels : Nat} {s : σ}
    {model : SourceModel}
    (within : (model.visit visit levels s).value.depth ≤ levels) :
    let r := model.visit visit levels s
    let calls := model.calls visit levels s
    ((∀ scope s decl, (visit scope s decl).fault = none) →
      r.fault = none ∧ calls.map Call.scope = r.value.classes.map ClassRef.scope) ∧
    (r.value.classes.map ClassRef.id).Nodup ∧
    Traced (fun c ↦ SameBehind c.id model r.value) r.fault calls r.value.classes ∧
    ∀ more, levels ≤ more →
      model.visit visit more s = r ∧ model.calls visit more s = calls := by
  intro r calls
  have forget : r = (model.visit (recording visit) levels (s, [])).mapState Prod.fst :=
    visit_mapState (g := Prod.fst) (fun _ _ _ ↦ rfl) levels (s, []) model
  have recorded : (model.visit (recording visit) levels (s, [])).value.depth ≤ levels := by
    have := within
    rwa [show model.visit visit levels s = _ from forget] at this
  have traced : Traced (fun c ↦ SameBehind c.id model r.value) r.fault calls r.value.classes := by
    rw [forget]
    exact traced_visit keeps rfl recorded
  refine ⟨fun never ↦ ?_, nodup_ids r.value, traced, fun more le ↦ ⟨visit_of_within within le, ?_⟩⟩
  · have went : r.fault = none := fault_visit fun _ _ _ _ _ _ ↦
      fault_visitDecl (motive := fun _ _ ↦ True) (fun _ _ _ _ ↦ ⟨never _ _ _, fun _ _ ↦ trivial⟩)
        trivial
    rw [went] at traced
    refine ⟨went, ?_⟩
    have scopes :
        List.Forall₂ (· = ·) (calls.map Call.scope) (r.value.classes.map ClassRef.scope) := by
      rw [List.forall₂_map_left_iff, List.forall₂_map_right_iff]
      exact traced.settles.imp fun _ _ settles ↦ settles.scope
    rwa [List.forall₂_eq_eq_eq] at scopes
  · rw [SourceModel.calls, visit_of_within recorded le]
    rfl

/-- Turns the members of `A` round and puts a type with a type in it in front of them; fails at the
types of one name. -/
def rebuilding (stop : Option String) : Visitor Nat String := fun _ count decl ↦
  if decl.name = "A" then
    let added := { TypeDecl.bare .classType "N" with members := [.type (.bare .enumType "M")] }
    ⟨{ decl with members := .type added :: decl.members.reverse }, count + 1, none⟩
  else ⟨decl, count + 1, stop.filter (· = decl.name)⟩

theorem keepsNames_rebuilding (stop : Option String) : KeepsNames (rebuilding stop) := by
  intro scope count decl
  unfold rebuilding
  split <;> rfl

/-- Two files, the first of which has a type behind that with the nested types. -/
def twoFiles : SourceModel :=
  let nested := { TypeDecl.bare .classType "A" with
    members := [.type (.bare .classType "B"), .type (.bare .recordType "C")] }
  let first := { CompilationUnit.empty with
    package := some "a", types := [nested, .bare .classType "D"] }
  ⟨[⟨⟨"A.java"⟩, "", first⟩,
    ⟨⟨"E.java"⟩, "", { CompilationUnit.empty with types := [.bare .classType "E"] }⟩]⟩

theorem visit_goes_to_classes_rebuilding :
    KeepsNames (rebuilding (some "C")) ∧
    (twoFiles.visit (rebuilding (some "C")) 3 0).value.depth ≤ 3 ∧
    (twoFiles.visit (rebuilding (some "C")) 3 0).fault = some "C" ∧
    (twoFiles.calls (rebuilding (some "C")) 3 0).map (·.scope.qualified) =
      ["a.A", "a.A$N", "a.A$N$M", "a.A$C"] ∧
    Traced (fun c ↦ SameBehind c.id twoFiles (twoFiles.visit (rebuilding (some "C")) 3 0).value)
      (twoFiles.visit (rebuilding (some "C")) 3 0).fault
      (twoFiles.calls (rebuilding (some "C")) 3 0)
      (twoFiles.visit (rebuilding (some "C")) 3 0).value.classes ∧
    (twoFiles.visit (rebuilding none) 3 0).value.depth ≤ 3 ∧
    (twoFiles.visit (rebuilding none) 3 0).value.classes.map ClassRef.qualified =
      ["a.A", "a.A$N", "a.A$N$M", "a.A$C", "a.A$B", "a.D", "E"] ∧
    (twoFiles.calls (rebuilding none) 3 0).map Call.scope =
      (twoFiles.visit (rebuilding none) 3 0).value.classes.map ClassRef.scope := by
  have stopped : (twoFiles.visit (rebuilding (some "C")) 3 0).value.depth ≤ 3 := by decide +kernel
  have whole : (twoFiles.visit (rebuilding none) 3 0).value.depth ≤ 3 := by decide +kernel
  refine ⟨keepsNames_rebuilding _, stopped, by decide +kernel, by decide +kernel, ?_, whole,
    by decide +kernel, ?_⟩
  · exact (visit_goes_to_classes (keepsNames_rebuilding _) stopped).2.2.1
  · refine ((visit_goes_to_classes (keepsNames_rebuilding _) whole).1 ?_).2
    intro scope count decl
    unfold rebuilding
    split <;> rfl

end SourceModel

end PlatformOverlay.Model
