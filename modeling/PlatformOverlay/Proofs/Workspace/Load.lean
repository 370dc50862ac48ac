import PlatformOverlay.Proofs.Files.Listing
import PlatformOverlay.Proofs.Model.Visit
import PlatformOverlay.Workspace.Load

/-!
# What is loaded

A loaded model has a file for each Java file below the roots (`forall₂_of_load`), and these are the
files that the tree has there (`mem_javaFiles`).  Loading looks at the roots only: where two stores
have the same nodes at the roots, it gives the same (`load_congr`).

Loading fails as a whole if one file cannot be read or parsed, so a model that has been loaded has
all of them.
-/

namespace PlatformOverlay

section lists

variable {ε α β : Type}

/-- A sequence that succeeds has a first step that does, and the rest on its value. -/
theorem exists_of_bind {x : Except ε α} {f : α → Except ε β} {b : β} (h : (x >>= f) = .ok b) :
    ∃ a, x = .ok a ∧ f a = .ok b := by
  cases x with
  | error e => cases h
  | ok a => exact ⟨a, rfl, h⟩

/-- A run over a list that succeeds does so on every element. -/
theorem forall₂_of_mapM {f : α → Except ε β} {as : List α} {bs : List β} (h : as.mapM f = .ok bs) :
    List.Forall₂ (fun a b ↦ f a = .ok b) as bs := by
  induction as generalizing bs with
  | nil =>
    rw [List.mapM_nil] at h
    cases h
    exact .nil
  | cons a as ih =>
    rw [List.mapM_cons] at h
    obtain ⟨b, hb, h⟩ := exists_of_bind h
    obtain ⟨bs, hbs, h⟩ := exists_of_bind h
    cases h
    exact .cons hb (ih hbs)

/-- A run over a list depends on the steps for its elements only. -/
theorem mapM_congr {f g : α → Except ε β} {as : List α} (h : ∀ a ∈ as, f a = g a) :
    as.mapM f = as.mapM g := by
  induction as with
  | nil => rfl
  | cons a as ih =>
    obtain ⟨first, rest⟩ := List.forall_mem_cons.1 h
    rw [List.mapM_cons, List.mapM_cons, first, ih rest]

end lists

namespace Model.SourceModel

/-- If no result is an error, then the values that are kept are all the values. -/
theorem forall₂_of_errors {ε α : Type} {failing? : Except ε α → Option ε} {read : List (Except ε α)}
    (some : ∀ e, failing? (.error e) ≠ none) (h : (read.filterMap failing?).isEmpty = true) :
    List.Forall₂ (fun r a ↦ r = .ok a) read (read.filterMap Except.toOption) := by
  rw [List.isEmpty_iff, List.filterMap_eq_nil_iff] at h
  induction read with
  | nil => exact .nil
  | cons r read ih =>
    obtain ⟨first, rest⟩ := List.forall_mem_cons.1 h
    cases r with
    | error e => exact absurd first (some e)
    | ok a => exact .cons rfl (ih rest)

/-- A model has a file for each source, parsed. -/
theorem forall₂_of_parse {sources : List (Path × String)} {model : SourceModel}
    (h : parse sources = .ok model) : List.Forall₂ (fun source file ↦
      file.path = source.1 ∧ Java.parse source.1 source.2 = .ok file.unit) sources model.files := by
  unfold parse at h
  dsimp only at h
  split at h
  · rename_i none
    obtain rfl := Except.ok.inj h
    refine (List.forall₂_map_left_iff.1 (forall₂_of_errors (by simp) none)).imp ?_
    rintro ⟨path, text⟩ file read
    cases hu : Java.parse path text with
    | error e =>
      rw [hu] at read
      cases read
    | ok u =>
      rw [hu] at read
      cases read
      exact ⟨rfl, rfl⟩
  · cases h

end Model.SourceModel

namespace Workspace

open Files Model

variable {store store' : FileStore} {roots : SourceRoots} {model : SourceModel}

/-- What is loaded are the files with the extension below the roots. -/
theorem mem_javaFiles {paths : List Path} (h : javaFiles store roots = .ok paths) {p : Path} :
    p ∈ paths ↔ ∃ root ∈ roots.paths, ∃ node, store.node? root = .ok node ∧
      p ∈ node.filesFrom root ∧ isJavaFile p = true := by
  obtain ⟨found, hf, h⟩ := exists_of_bind h
  obtain rfl := Except.ok.inj h
  have each : List.Forall₂ (fun root files ↦ ∃ node, store.node? root = .ok node ∧
      files = (node.filesFrom root).filter isJavaFile) roots.paths found := by
    refine (forall₂_of_mapM hf).imp fun root files h ↦ ?_
    unfold FileStore.files at h
    cases hn : store.node? root with
    | error e =>
      rw [hn] at h
      cases h
    | ok node =>
      rw [hn] at h
      cases h
      exact ⟨node, rfl, rfl⟩
  rw [List.mem_flatten]
  constructor
  · rintro ⟨files, hfiles, hp⟩
    obtain ⟨root, hroot, node, hn, rfl⟩ := exists_of_forall₂ each hfiles
    exact ⟨root, hroot, node, hn, List.mem_filter.1 hp⟩
  · rintro ⟨root, hroot, node, hn, hp⟩
    obtain ⟨files, hfiles, node', hn', rfl⟩ := exists_of_forall₂ each.flip hroot
    obtain rfl : node' = node := Except.ok.inj (hn'.symm.trans hn)
    exact ⟨_, hfiles, List.mem_filter.2 hp⟩

/-- The files of a loaded model are the Java files, with their contents. -/
theorem forall₂_of_load (h : load store roots = .ok model) :
    ∃ paths, javaFiles store roots = .ok paths ∧ List.Forall₂ (fun p file ↦
      file.path = p ∧ ∃ text, store.readText p = .ok text ∧ Java.parse p text = .ok file.unit)
      paths model.files := by
  obtain ⟨paths, hp, h⟩ := exists_of_bind h
  obtain ⟨sources, hs, h⟩ := exists_of_bind h
  refine ⟨paths, hp, forall₂_trans (fun p source file hread hfile ↦ ?_) (forall₂_of_mapM hs)
    (SourceModel.forall₂_of_parse ?_)⟩
  · unfold readSource at hread
    split at hread
    · rename_i text htext
      cases hread
      exact ⟨hfile.1, text, htext, hfile.2⟩
    · cases hread
  · cases hm : SourceModel.parse sources with
    | error es =>
      rw [hm] at h
      cases h
    | ok model =>
      rw [hm] at h
      exact congrArg Except.ok (Except.ok.inj h)

/-! ## Roots -/

theorem SourceRoots.mem_ofList {paths : List Path} {p : Path}
    (h : p ∈ (SourceRoots.ofList paths).paths) :
    p ∈ paths := by
  have fold (roots : SourceRoots) (h : p ∈ (paths.foldl SourceRoots.add roots).paths) :
      p ∈ roots.paths ∨ p ∈ paths := by
    clear * - h
    induction paths generalizing roots with
    | nil => exact .inl h
    | cons first paths ih =>
      rcases ih _ h with h | h
      · unfold SourceRoots.add at h
        split at h
        · exact .inl h
        · rcases List.mem_append.1 h with h | h
          · exact .inl h
          · exact .inr (List.mem_singleton.1 h ▸ List.mem_cons_self)
      · exact .inr (List.mem_cons_of_mem _ h)
  exact (fold _ h).resolve_left (by simp)

/-- Only directories that exist are kept as roots. -/
theorem isDir_of_mem_existingRoots {paths : List Path} {root : Path}
    (h : root ∈ (existingRoots store paths).paths) : root ∈ paths ∧ store.isDir root = true :=
  List.mem_filter.1 (SourceRoots.mem_ofList h)

/-! ## What loading depends on -/

/-- A file below a root is read at the path that the listing has for it. -/
theorem read_below {root : Path} {node : Node} (plain : root.Plain)
    (hr : store.root.get? (root.target store.current) = some node) {q : Place} (ne : q ≠ [])
    (valid : ∀ name ∈ q, ValidName name) {content : ByteArray}
    (hq : node.get? q = some (.file content)) :
    store.read (root.below q) = .ok content := by
  refine FileStore.read_of_file (Path.plain_below valid plain) (Path.trim_below valid ne) ?_
  rw [Path.target_below valid, Node.get?_append, hr]
  exact hq

/-- Loading looks at nothing but what is at the roots. -/
theorem load_congr (wf : store.root.WellFormed) (current : store'.current = store.current)
    (plain : ∀ root ∈ roots.paths, root.Plain)
    (dirs : ∀ root ∈ roots.paths, store.isDir root = true)
    (same : ∀ root ∈ roots.paths, store'.root.get? (root.target store.current) =
      store.root.get? (root.target store.current)) : load store' roots = load store roots := by
  have node {root : Path} (hr : root ∈ roots.paths) : ∃ es,
      store.root.get? (root.target store.current) = some (.dir es) ∧
      store.node? root = .ok (.dir es) ∧ store'.node? root = .ok (.dir es) := by
    obtain ⟨dir, ne⟩ := FileStore.look_of_isDir (dirs root hr)
    obtain ⟨es, there⟩ := Node.look_eq_dir.1 dir
    have there' : store'.root.get? (root.target store'.current) = some (.dir es) := by
      rw [current, same root hr, there]
    have dir' := Node.look_eq_dir.2 ⟨es, there'⟩
    exact ⟨es, there,
      FileStore.node?_of_place (FileStore.place_of_dir (plain root hr) ne dir) there,
      FileStore.node?_of_place (FileStore.place_of_dir (plain root hr) ne dir') there'⟩
  have files : javaFiles store' roots = javaFiles store roots := by
    unfold javaFiles
    rw [mapM_congr fun root hr ↦ ?_]
    obtain ⟨es, -, h, h'⟩ := node hr
    rw [FileStore.files, FileStore.files, h, h']
  unfold load
  rw [files]
  cases hp : javaFiles store roots with
  | error e => rfl
  | ok paths =>
    -- The content is read by the path that the listing has made up, which leads to the listed file.
    have read : paths.mapM (readSource store') = paths.mapM (readSource store) := by
      refine mapM_congr fun p hpath ↦ ?_
      obtain ⟨root, hr, node', hn, hf, -⟩ := (mem_javaFiles hp).1 hpath
      obtain ⟨es, there, h, -⟩ := node hr
      obtain rfl := Except.ok.inj (hn.symm.trans h)
      obtain ⟨q, content, hq, rfl⟩ := (Node.mem_filesFrom (wf.get? there)).1 hf
      have valid := (wf.get? there).named.validName hq
      have ne : q ≠ [] := by
        rintro rfl
        simp at hq
      have there' : store'.root.get? (root.target store'.current) = some (.dir es) := by
        rw [current, same root hr, there]
      unfold readSource FileStore.readText
      rw [read_below (plain root hr) there ne valid hq,
        read_below (plain root hr) there' ne valid hq]
    change (paths.mapM (readSource store') >>= _) = (paths.mapM (readSource store) >>= _)
    rw [read]

end Workspace

end PlatformOverlay
