import PlatformOverlay.Proofs.Files.Place

/-!
# File operations as functions of the store

Each operation finds a place and then changes the tree there or fails.
-/

namespace PlatformOverlay.Files

variable {σ ε α β : Type}

/-- The first step's failure ends the run and keeps the state it left. -/
theorem run_bind (x : ExceptT ε (StateM σ) α) (f : α → ExceptT ε (StateM σ) β) (s : σ) :
    (x >>= f) s = match x s with
      | (.ok a, s') => f a s'
      | (.error e, s') => (.error e, s') := by
  change (match x s with | (r, s') => ExceptT.bindCont f r s') = _
  rcases x s with ⟨_ | _, _⟩ <;> rfl

theorem run_ask (question : FileStore → Except IoCause α) (store : FileStore) :
    ask question store = (question store, store) := by
  have got : (get : FileM FileStore) store = (.ok store, store) := rfl
  unfold ask
  rw [run_bind, got]
  dsimp only
  cases question store <;> rfl

variable {store : FileStore} {p : Path} {content : ByteArray}

/-- All a write can do: fail without a change, or put the file at its place. -/
theorem writeFile_eq : writeFile p content store =
    match store.place p with
    | .error e => (.error e, store)
    | .ok place =>
      match store.root.get? place with
      | some (.dir _) => (.error .isADirectory, store)
      | some (.file _) | none =>
        (.ok (), { store with root := Node.put (.file content) place store.root }) := by
  rw [writeFile, run_bind, run_ask]
  cases store.place p with
  | error e => rfl
  | ok place =>
    dsimp only
    rw [run_bind]
    change (match store.root.get? place with
      | some (.dir _) => throw .isADirectory
      | some (.file _) | none => putNode place (.file content) : FileM Unit) store = _
    rcases store.root.get? place with _ | ⟨_ | _⟩ <;> rfl

/-- All the creation of a directory can do, with the causes of its failures. -/
theorem createDir_eq : createDir p store =
    match store.place (dropSlashes p) with
    | .error e => (.error e, store)
    | .ok place =>
      match store.root.get? place with
      | some _ => (.error .exists, store)
      | none =>
        match store.root.get? place.dropLast with
        | some (.dir _) => (.ok (), { store with root := Node.put (.dir []) place store.root })
        | some (.file _) => (.error .notADirectory, store)
        | none => (.error .notFound, store) := by
  rw [createDir, run_bind, run_ask]
  cases store.place (dropSlashes p) with
  | error e => rfl
  | ok place =>
    dsimp only
    rw [run_bind]
    change (match store.root.get? place with
      | some _ => throw .exists
      | none => do
        match (← get).root.get? place.dropLast with
        | some (.dir _) => putNode place (.dir [])
        | some (.file _) => throw .notADirectory
        | none => throw .notFound : FileM Unit) store = _
    cases store.root.get? place with
    | some node => rfl
    | none =>
      dsimp only
      rw [run_bind]
      change (match store.root.get? place.dropLast with
        | some (.dir _) => putNode place (.dir [])
        | some (.file _) => throw .notADirectory
        | none => throw .notFound : FileM Unit) store = _
      rcases store.root.get? place.dropLast with _ | ⟨_ | _⟩ <;> rfl

/-- A failure counts only where no directory is afterwards. -/
theorem ensureDir_eq (p : Path) (store : FileStore) : ensureDir p store =
    (match (createDir p store).1 with
      | .ok () => .ok ()
      | .error e => if (createDir p store).2.isDir p then .ok () else .error e,
      (createDir p store).2) := by
  unfold ensureDir
  rcases createDir p store with ⟨_ | _, _⟩
  · dsimp only
    split <;> rfl
  · rfl

/-- Only for the lack of a directory above it the parent of a directory is created first. -/
theorem createDirsUpTo_succ (n : Nat) (p : Path) (store : FileStore) :
    createDirsUpTo (n + 1) p store =
      match (createDir p store).1, p.parent? with
      | .error .notFound, some parent =>
          (if parent.components.isEmpty then ensureDir p
            else createDirsUpTo n parent >>= fun _ ↦ ensureDir p) (createDir p store).2
      | _, _ => ensureDir p store := by
  rw [ensureDir_eq, createDirsUpTo]
  dsimp only
  generalize createDir p store = done
  rcases done with ⟨e | _, store⟩
  · cases e <;> cases p.parent? <;> dsimp only <;> split <;> rfl
  · cases p.parent? <;> rfl

/-- A copy writes what it reads, except onto itself: then the target is emptied before it is
read. -/
theorem copyFile_eq {source target : Path} : copyFile source target store =
    match store.place source, store.read source, store.place target with
    | .ok origin, .ok content, .ok destination =>
        writeFile target (if destination = origin then .empty else content) store
    | .error e, _, _ | .ok _, .error e, _ | .ok _, .ok _, .error e => (.error e, store) := by
  rw [copyFile, run_bind, run_ask]
  cases store.place source with
  | error e => rfl
  | ok origin =>
    dsimp only
    rw [run_bind, run_ask]
    cases store.read source with
    | error e => rfl
    | ok content =>
      dsimp only
      rw [run_bind, run_ask]
      cases store.place target <;> rfl

/-- All that clearing can do. It never fails, and a path that does not end in a name is emptied
and stays. -/
theorem clear_eq : clear p store =
    match store.place p with
    | .error _ => (.ok (), store)
    | .ok place =>
      match store.root.get? place with
      | none => (.ok (), store)
      | some _ =>
        if endsInName p then (.ok (), { store with root := Node.remove place store.root })
        else (.ok (), { store with root := Node.put (.dir []) place store.root }) := by
  rw [clear, run_bind]
  change (match store.place p with
    | .error _ => pure ()
    | .ok place => do
      match (← get).root.get? place with
      | none => pure ()
      | some _ =>
        if endsInName p then
          modify fun store ↦ { store with root := Node.remove place store.root }
        else putNode place (.dir []) : FileM Unit) store = _
  cases store.place p with
  | error e => rfl
  | ok place =>
    dsimp only
    rw [run_bind]
    change (match store.root.get? place with
      | none => pure ()
      | some _ =>
        if endsInName p then
          modify fun store ↦ { store with root := Node.remove place store.root }
        else putNode place (.dir []) : FileM Unit) store = _
    cases store.root.get? place with
    | none => rfl
    | some node =>
      dsimp only
      split <;> rfl

theorem result_clear (p : Path) (store : FileStore) : (clear p store).1 = .ok () := by
  rw [clear_eq]
  split
  · rfl
  · split
    · rfl
    · split <;> rfl

end PlatformOverlay.Files
