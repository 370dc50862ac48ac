import Mathlib.Order.Defs.Unbundled
import PlatformOverlay.Proofs.Files.Operations

/-!
# What operations leave alone

`Frame made out` says that a tree has changed at and below the place `out` only, but for missing
directories that have been created at the places `made`.  It is kept by every operation whose
target is at or below `out` (`preserves_writeFile`, `preserves_clear`, `preserves_copyFile`), and
creating directories keeps it as far as all parts of the path lead to such places
(`preserves_createDirs`).
-/

namespace PlatformOverlay.Files

variable {σ ε α β : Type}

/-! ## Relations between the states before and after -/

/-- The relation holds between the states before and after, whatever the result. -/
def Preserves (R : σ → σ → Prop) (m : ExceptT ε (StateM σ) α) : Prop := ∀ s, R s (m s).2

namespace Preserves

variable {R : σ → σ → Prop} [IsPreorder σ R]

/-- A step that never changes the state keeps every preorder. -/
theorem of_same {m : ExceptT ε (StateM σ) α} (h : ∀ s, (m s).2 = s) : Preserves R m :=
  fun s ↦ (h s).symm ▸ refl s

theorem pure (a : α) : Preserves R (Pure.pure a : ExceptT ε (StateM σ) α) := of_same fun _ ↦ rfl

theorem throw (e : ε) : Preserves R (throw e : ExceptT ε (StateM σ) α) := of_same fun _ ↦ rfl

/-- Steps that keep a relation keep it one after the other, by transitivity. -/
theorem bind {x : ExceptT ε (StateM σ) α} {f : α → ExceptT ε (StateM σ) β} (hx : Preserves R x)
    (hf : ∀ a, Preserves R (f a)) : Preserves R (x >>= f) := by
  intro s
  rw [run_bind]
  have h := hx s
  cases hs : x s with
  | mk r s' =>
    rw [hs] at h
    cases r with
    | error e => exact h
    | ok a => exact IsTrans.trans _ _ _ h (hf a s')

/-- A run over a list keeps what each of its steps keeps. -/
theorem mapM {f : α → ExceptT ε (StateM σ) β} {as : List α} (h : ∀ a ∈ as, Preserves R (f a)) :
    Preserves R (as.mapM f) := by
  induction as with
  | nil =>
    rw [List.mapM_nil]
    exact .pure []
  | cons a as ih =>
    rw [List.mapM_cons]
    refine (h a List.mem_cons_self).bind fun b ↦ ?_
    exact (ih fun a ha ↦ h a (List.mem_cons_of_mem _ ha)).bind fun bs ↦ .pure _

theorem foldlM {f : β → α → ExceptT ε (StateM σ) β} {as : List α} {b : β}
    (h : ∀ b, ∀ a ∈ as, Preserves R (f b a)) : Preserves R (as.foldlM f b) := by
  induction as generalizing b with
  | nil => exact .pure b
  | cons a as ih =>
    rw [List.foldlM_cons]
    exact (h b a List.mem_cons_self).bind fun b ↦ ih fun b a ha ↦ h b a (List.mem_cons_of_mem _ ha)

end Preserves

/-! ## Frames -/

/-- Nothing has changed but at and below the place `out`, and at places of the kind `made`, where
missing directories have been created. -/
structure Node.Frame (made : Place → Prop) (out : Place) (before after : Node) : Prop where
  look : ∀ q, ¬ out <+: q → after.look q = before.look q ∨
    (before.look q = none ∧ after.look q = some .dir ∧ made q)
  same : ∀ q, ¬ out <+: q → ¬ q <+: out → (∀ t, made t → ¬ q <+: t) → after.get? q = before.get? q

namespace Node.Frame

variable {made : Place → Prop} {out place : Place} {root root' root'' node : Node}

protected theorem refl (root : Node) :
    Frame made out root root := ⟨fun _ _ ↦ .inl rfl, fun _ _ _ _ ↦ rfl⟩

/-- A directory made in between was not there at the start, so it is made in the whole run too. -/
protected theorem trans (h : Frame made out root root') (h' : Frame made out root' root'') :
    Frame made out root root'' where
  look := by
    intro q hq
    rcases h'.look q hq with e' | ⟨none, dir, made⟩
    · rw [e']
      exact h.look q hq
    · rcases h.look q hq with e | ⟨-, dir', -⟩
      · exact .inr ⟨e ▸ none, dir, made⟩
      · simp [dir'] at none
  same := fun q hq above apart ↦ (h'.same q hq above apart).trans (h.same q hq above apart)

/-- A change at a place at or below `out`. -/
theorem of_inside (inside : out <+: place)
    (look : ∀ q, ¬ place <+: q → root'.look q = root.look q)
    (same : ∀ q, ¬ place <+: q → ¬ q <+: place → root'.get? q = root.get? q) :
    Frame made out root root' where
  look := fun q hq ↦ .inl (look q fun h ↦ hq (inside.trans h))
  same := by
    refine fun q hq above _ ↦ same q (fun h ↦ hq (inside.trans h)) fun h ↦ ?_
    rcases List.prefix_or_prefix_of_prefix inside h with below | h
    · exact hq below
    · exact above h

/-- Putting something within `out` changes nothing outside. -/
theorem put (inside : out <+: place) : Frame made out root (Node.put node place root) :=
  .of_inside inside (fun _ ↦ look_put_of_not_below) fun _ ↦ get?_put_of_disjoint

/-- Removing something within `out` changes nothing outside. -/
theorem remove (inside : out <+: place) : Frame made out root (Node.remove place root) :=
  .of_inside inside (fun _ ↦ look_remove_of_not_below) fun _ ↦ get?_remove_of_disjoint

/-- A new directory where nothing was changes no other place. -/
theorem makeDir (h : made place) (none : root.get? place = none) (based : root.Based place) :
    Frame made out root (Node.put (.dir []) place root) where
  look := by
    intro q _
    by_cases below : place <+: q
    · obtain ⟨r, rfl⟩ := below
      have nothing : root.look (place ++ r) = .none := by
        rw [look_eq_none, get?_append, none]
        rfl
      rw [Node.look, get?_put_append based]
      cases r with
      | nil => 
        rw [List.append_nil] at nothing ⊢
        exact .inr ⟨nothing, rfl, h⟩
      | cons => exact .inl nothing.symm
    · exact .inl (look_put_of_not_below below)
  same := by
    intro q _ _ apart
    by_cases below : place <+: q
    · obtain ⟨r, rfl⟩ := below
      have ne : r ≠ [] := fun e ↦ apart place h (by simp [e])
      obtain ⟨name, r, rfl⟩ := List.exists_cons_of_ne_nil ne
      rw [get?_put_append based, get?_append, none]
      rfl
    · exact get?_put_of_disjoint below (apart place h)

end Node.Frame

/-- The tree has changed only as far as the frame allows, if paths are seen from `current`. -/
def FileStore.Frame (current : Place) (made : Place → Prop) (out : Place)
    (before after : FileStore) :
    Prop :=
  after.current = before.current ∧
    (before.current = current → Node.Frame made out before.root after.root)

instance (current : Place) (made : Place → Prop) (out : Place) :
    IsPreorder FileStore (FileStore.Frame current made out) where
  refl store := ⟨rfl, fun _ ↦ .refl store.root⟩
  trans _ _ _ h h' := ⟨h'.1.trans h.1, fun e ↦ (h.2 e).trans (h'.2 (h.1.trans e))⟩

/-! ## Operations -/

section operations

variable {current : Place} {made : Place → Prop} {out : Place} {p : Path}

/-- Writing within `out` keeps the frame, whether or not it succeeds. -/
theorem preserves_writeFile (inside : out <+: p.target current) (content : ByteArray) :
    Preserves (FileStore.Frame current made out) (writeFile p content) := by
  intro store
  rw [writeFile_eq]
  split
  · exact refl store
  · rename_i place h
    split
    · exact refl store
    all_goals
      refine ⟨rfl, ?_⟩
      rintro rfl
      rw [(FileStore.place_eq_ok h).1]
      exact .put inside

/-- A directory within `out`, or one that may be made, keeps the frame. -/
theorem preserves_createDir (h : made (p.target current) ∨ out <+: p.target current) :
    Preserves (FileStore.Frame current made out) (createDir p) := by
  intro store
  rw [createDir_eq]
  split
  · exact refl store
  · rename_i place hplace
    split
    · exact refl store
    · rename_i none
      split
      · rename_i dir
        refine ⟨rfl, ?_⟩
        rintro rfl
        have target : place = p.target store.current := by
          rw [(FileStore.place_eq_ok hplace).1, Path.target, components_dropSlashes]
          rfl
        subst target
        rcases h with h | inside
        · exact .makeDir h none (.inr (by simp [Node.look, dir, Node.stub]))
        · exact .put inside
      · exact refl store
      · exact refl store

theorem preserves_ensureDir (h : made (p.target current) ∨ out <+: p.target current) :
    Preserves (FileStore.Frame current made out) (ensureDir p) := by
  intro store
  rw [ensureDir_eq]
  exact preserves_createDir h store

/-- Every part of the path leads to a place where directories may be created. -/
def MayCreate (current : Place) (made : Place → Prop) (out : Place) (p : Path) : Prop :=
  ∀ cs, cs <+: p.components → cs ≠ [] → made (Path.walk current cs) ∨ out <+: Path.walk current cs

/-- The path itself is the last of the directories on its way. -/
theorem MayCreate.target (h : MayCreate current made out p) (ne : p.components ≠ []) :
    made (p.target current) ∨ out <+: p.target current :=
  h _ List.prefix_rfl ne

/-- Every directory on the way may be made, so all rounds keep the frame. -/
theorem preserves_createDirsUpTo {n : Nat} (h : MayCreate current made out p)
    (ne : p.components ≠ []) :
    Preserves (FileStore.Frame current made out) (createDirsUpTo n p) := by
  induction n generalizing p with
  | zero => exact preserves_ensureDir (h.target ne)
  | succ n ih =>
    intro store
    rw [createDirsUpTo_succ]
    split
    · rename_i parent _ hp
      have first := preserves_createDir (h.target ne) store
      refine IsTrans.trans _ _ _ first ?_
      obtain ⟨c, split⟩ := Path.components_parent hp
      split_ifs with empty
      · exact preserves_ensureDir (h.target ne) _
      · have ne' : parent.components ≠ [] := by simpa using empty
        have above : MayCreate current made out parent :=
          fun cs hcs ↦ h cs (hcs.trans (split ▸ List.prefix_append _ _))
        exact ((ih above ne').bind fun _ ↦ preserves_ensureDir (h.target ne)) _
    · exact preserves_ensureDir (h.target ne) store

theorem preserves_createDirs (h : MayCreate current made out p) :
    Preserves (FileStore.Frame current made out) (createDirs p) := by
  unfold createDirs
  split_ifs with empty
  · exact .pure ()
  · exact preserves_createDirsUpTo h (by simpa using empty)

theorem preserves_copyFile {source : Path} (inside : out <+: p.target current) :
    Preserves (FileStore.Frame current made out) (copyFile source p) := by
  intro store
  rw [copyFile_eq]
  split
  · exact preserves_writeFile inside _ store
  all_goals exact refl store

theorem preserves_clear (inside : out <+: p.target current) :
    Preserves (FileStore.Frame current made out) (clear p) := by
  intro store
  rw [clear_eq]
  split
  · exact refl store
  · rename_i place hplace
    split
    · exact refl store
    · split_ifs
      all_goals
        refine ⟨rfl, ?_⟩
        rintro rfl
        rw [(FileStore.place_eq_ok hplace).1]
      · exact .remove inside
      · exact .put inside

end operations

end PlatformOverlay.Files
