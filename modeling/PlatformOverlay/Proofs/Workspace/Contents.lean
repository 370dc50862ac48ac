import PlatformOverlay.Proofs.Merge.Counterparts
import PlatformOverlay.Proofs.Output.Contents
import PlatformOverlay.Proofs.Workspace.Rerun

/-!
# The output directory of a validated module

A run that comes to the validation of a module leaves the output of all its Java files in the output
directory, each where it lies below its source root, and nothing else (`run_contents`).

The run is taken apart into what it does before it writes and the writing itself:

* Before, the output directory is emptied, which leaves the sources alone (`load_cleared`,
  `commonFor_cleared`), so the models are those of the world in the beginning.
* The merged model has the files of the loaded one in their order (`paths_merged`), and each has a
  target and a source (`assigned_merged`, `source_merged`).
* A run that comes to the validation has written all of them without a failure
  (`exists_of_validates`), and `leaves_deliver` says what there is then (`contains_deliver`).

## What is not claimed

`Layout` asks for an output directory that is written as a path which never goes up, and for one
that is not empty. It is cleared where the tree has it and made anew where it is not, and these are
different places if the path leads back out of a directory that is missing. Then an old file stays
beside the new ones (`exists_stale_file_left`).
-/

namespace PlatformOverlay

open Files Model Output

namespace Workspace

variable {store : FileStore} {roots : SourceRoots} {module : Module} {options : Options}
    {world : World}

/-! ## Source files -/

/-- The root has a Java file below it at the names. -/
structure IsSource (store : FileStore) (roots : SourceRoots) (root : Path)
    (names : Place) : Prop where
  mem : root ∈ roots.paths
  java : isJavaFile (root.below names) = true
  file : ∃ content, store.root.look (root.target store.current ++ names) = some (.file content)

/-- No root lies in another one. -/
def SourceRoots.Flat (roots : SourceRoots) (current : Place) : Prop :=
  ∀ root ∈ roots.paths, ∀ other ∈ roots.paths, root.target current <+: other.target current →
    root.target current = other.target current

instance (roots : SourceRoots) (current : Place) : Decidable (roots.Flat current) :=
  inferInstanceAs (Decidable (∀ _ ∈ _, ∀ _ ∈ _, _))

/-- The place that the output has for a source, seen from the output directory. -/
def SourceRoots.placeOf (roots : SourceRoots) (p : Path) : Place :=
  (roots.relative? p).elim [] fun r ↦ Path.names r.components

section sources

variable (wf : store.root.WellFormed) (plain : ∀ root ∈ roots.paths, root.Plain)
  (dirs : ∀ root ∈ roots.paths, store.isDir root = true)

include wf in
/-- A source lies below its root by valid names. -/
theorem IsSource.valid {root : Path} {names : Place} (h : IsSource store roots root names) :
    ∀ name ∈ names, ValidName name := by
  obtain ⟨content, file⟩ := h.file
  have valid := wf.named.validName (Node.look_eq_file.1 file)
  exact fun name hn ↦ valid name (List.mem_append_right _ hn)

include wf plain dirs in
/-- The list of files to load has the sources below the roots, each as the path from its root. -/
theorem mem_javaFiles_iff {paths : List Path} (h : javaFiles store roots = .ok paths) {p : Path} :
    p ∈ paths ↔ ∃ root names, IsSource store roots root names ∧ p = root.below names := by
  rw [mem_javaFiles h]
  constructor
  · rintro ⟨root, hr, node, hn, listed, java⟩
    have there := (FileStore.get?_of_node? hn).1
    obtain ⟨names, content, file, rfl⟩ := (Node.mem_filesFrom (wf.get? there)).1 listed
    refine ⟨root, names, ⟨hr, java, content, ?_⟩, rfl⟩
    rw [Node.look_eq_file, Node.get?_append, there]
    exact file
  · rintro ⟨root, names, source, rfl⟩
    obtain ⟨content, file⟩ := source.file
    obtain ⟨dir, ne⟩ := FileStore.look_of_isDir (dirs root source.mem)
    obtain ⟨es, there⟩ := Node.look_eq_dir.1 dir
    have hn :=
      FileStore.node?_of_place (FileStore.place_of_dir (plain root source.mem) ne dir) there
    refine ⟨root, source.mem, _, hn, (Node.mem_filesFrom (wf.get? there)).2 ⟨names,
      content, ?_, rfl⟩,
      source.java⟩
    rw [Node.look_eq_file, Node.get?_append, there] at file
    exact file

include wf plain dirs in
/-- Where no root lies in another, the relative path of a source file is what its root has it at. -/
theorem IsSource.relative (flat : roots.Flat store.current) {root : Path} {names : Place}
    (h : IsSource store roots root names) :
    ∃ p, roots.relative? (root.below names) = some p ∧ p.components = names.map .name := by
  have nonempty (root : Path) (hr : root ∈ roots.paths) :=
    (FileStore.look_of_isDir (dirs root hr)).2
  have valid := h.valid wf
  obtain ⟨p, hp, joinable, -, first, hf, components⟩ :=
    SourceRoots.exists_relative nonempty h.mem valid
  have inner (c : Path.Component) (hc : c ∈ p.components) : c.Inner := joinable.inner_of_mem hc
  have up : .up ∉ p.components := by
    have := Path.plain_below valid (plain root h.mem)
    rw [Path.Plain, components, List.mem_append, not_or] at this
    exact this.2
  have target : root.target store.current ++ names =
      first.target store.current ++ Path.names p.components := by
    rw [← Path.target_below valid, Path.target, components, Path.walk_append,
      Path.walk_of_names (fun hr ↦ (inner _ hr).1 rfl) up]
    rfl
  have same : root.target store.current = first.target store.current := by
    rcases List.prefix_or_prefix_of_prefix (List.prefix_append _ _)
      (target ▸ List.prefix_append _ _) with
      below | below
    · exact (flat first hf root h.mem below).symm
    · exact flat root h.mem first hf below
  rw [same] at target
  refine ⟨p, hp, ?_⟩
  rw [List.append_cancel_left target, Path.map_names inner up]

include wf plain dirs in
/-- No root is below another one, so a source is assigned to the root it was found below. -/
theorem IsSource.placeOf (flat : roots.Flat store.current) {root : Path} {names : Place}
    (h : IsSource store roots root names) : roots.placeOf (root.below names) = names := by
  obtain ⟨p, hp, components⟩ := h.relative wf plain dirs flat
  rw [SourceRoots.placeOf, hp, Option.elim_some, components, Path.names_map_name]

include wf plain dirs in
/-- Source files with different relative paths have different places in the output. -/
theorem nodup_placeOf (flat : roots.Flat store.current) {paths : List Path}
    (h : javaFiles store roots = .ok paths)
    (distinct : (paths.map fun p ↦ (roots.relative? p).map Path.components).Nodup) :
    (paths.map roots.placeOf).Nodup := by
  have same : (paths.map fun p ↦ (roots.relative? p).map Path.components) =
      (paths.map roots.placeOf).map fun q ↦ some (q.map .name) := by
    rw [List.map_map]
    refine List.map_congr_left fun p hp ↦ ?_
    obtain ⟨root, names, source, rfl⟩ := (mem_javaFiles_iff wf plain dirs h).1 hp
    obtain ⟨r, hr, components⟩ := source.relative wf plain dirs flat
    rw [Function.comp, source.placeOf wf plain dirs flat, hr, Option.map_some, components]
  rw [same] at distinct
  exact distinct.of_map

end sources

/-! ## Runs that come to the validation -/

/-- Has the run come to the validation of the merged module? -/
def validates : Except Failure Outcome → Bool
  | .ok (.validated _ _) => true
  | .ok _ => false
  | .error e => e.isVerdict

/-- The computation does not fail with a verdict. -/
def NoVerdict {α : Type} (r : Except Failure α) : Prop := ∀ e, r = .error e → e.isVerdict = false

namespace NoVerdict

variable {α β : Type}

theorem ok {a : α} : NoVerdict (.ok a) := fun _ failed ↦ by cases failed

/-- Steps that give no verdict give none one after the other. -/
theorem bind {x : Except Failure α} {f : α → Except Failure β} (hx : NoVerdict x)
    (hf : ∀ a, NoVerdict (f a)) : NoVerdict (x >>= f) := by
  cases x with
  | error e =>
    intro e' failed
    cases failed
    exact hx e rfl
  | ok a => exact hf a

theorem mapM {f : α → Except Failure β} {as : List α} (hf : ∀ a, NoVerdict (f a)) :
    NoVerdict (as.mapM f) := by
  induction as with
  | nil => exact .ok
  | cons a as ih =>
    rw [List.mapM_cons]
    exact (hf a).bind fun _ ↦ ih.bind fun _ ↦ .ok

/-- Loading fails on files that cannot be read or parsed, which is no verdict on the module. -/
theorem load (store : FileStore) (roots : SourceRoots) :
    NoVerdict (Workspace.load store roots) := by
  have files : NoVerdict (javaFiles store roots) := by
    refine NoVerdict.bind (.mapM fun root ↦ ?_) fun _ ↦ .ok
    cases store.files root with
    | ok files => exact .ok
    | error cause => exact fun e failed ↦ by cases failed; rfl
  have read (p : Path) : NoVerdict (readSource store p) := by
    unfold readSource
    cases store.readText p with
    | ok text => exact .ok
    | error cause => exact fun e failed ↦ by cases failed; rfl
  refine files.bind fun paths ↦ (NoVerdict.mapM read).bind fun sources ↦ ?_
  cases SourceModel.parse sources with
  | ok model => exact .ok
  | error errors => exact fun e failed ↦ by cases failed; rfl

/-- The common classes are loaded without a verdict on the module. -/
theorem commonFor : NoVerdict (Workspace.commonFor options world).1 := by
  unfold Workspace.commonFor CommonCache.getOrLoad
  cases world.cache.loaded with
  | some common => exact .ok
  | none =>
    dsimp only
    have loaded := load world.files (existingRoots world.files options.common.sources)
    cases hl : Workspace.load world.files (existingRoots world.files options.common.sources) with
    | ok model => exact .ok
    | error e => exact fun e' failed ↦ by cases failed; exact loaded e hl

end NoVerdict

section stages

variable {common : CommonClasses} {model : SourceModel} (generate : options.generateCode = true)

include generate

/-- A module that was written out has a merge without faults, and all of its output was
delivered. -/
theorem of_validates_process
    (h : validates (process module options roots common model world).1 = true) :
    (Merge.run common model).fault = none ∧
      let delivered := deliver roots (Merge.run common model).value common
        (Merge.run common model).state
        options.outputDirectory world.files
      (process module options roots common model world).2.files = delivered.2 ∧
        ∀ e, delivered.1 = .error e → e.isVerdict = true := by
  unfold process at h ⊢
  rw [if_pos generate] at h ⊢
  dsimp only at h ⊢
  cases hf : (Merge.run common model).fault with
  | some e =>
    rw [hf] at h
    cases h
  | none =>
    rw [hf] at h
    dsimp only at h ⊢
    generalize deliver roots (Merge.run common model).value common (Merge.run common model).state
      options.outputDirectory world.files = delivered at h ⊢
    rcases delivered with ⟨e | written, files⟩
    · exact ⟨rfl, rfl, fun e' failed ↦ by cases failed; exact h⟩
    · exact ⟨rfl, rfl, fun e' failed ↦ by cases failed⟩

/-- A run that comes to the validation has loaded and merged the module and written its output. -/
theorem exists_of_validates (h : validates (run module options world).1 = true) :
    ∃ common model, (commonFor options (world.cleared options)).1 = .ok common ∧
      load (world.cleared options).files (existingRoots world.files module.sources) = .ok model ∧
      (Merge.run common model).fault = none ∧
      let delivered := deliver (existingRoots world.files module.sources)
        (Merge.run common model).value common
        (Merge.run common model).state options.outputDirectory (world.cleared options).files
      (run module options world).2.files = delivered.2 ∧ ∀ e, delivered.1 = .error e →
        e.isVerdict = true := by
  rw [run_eq_afterClearing] at h ⊢
  split_ifs at h ⊢
  · cases h
  unfold afterClearing at h ⊢
  have asked := @NoVerdict.commonFor options (world.cleared options)
  cases hc : (commonFor options (world.cleared options)).1 with
  | error e =>
    rw [hc] at h
    exact absurd (asked e hc) (by simpa [validates] using h)
  | ok common =>
    rw [hc] at h
    dsimp only at h ⊢
    split_ifs at h ⊢
    · cases h
    have loaded :=
      NoVerdict.load (world.cleared options).files (existingRoots world.files module.sources)
    cases hl : load (world.cleared options).files (existingRoots world.files module.sources) with
    | error e =>
      rw [hl] at h
      exact absurd (loaded e hl) (by simpa [validates] using h)
    | ok model =>
      rw [hl] at h
      exact ⟨common, model, rfl, rfl, of_validates_process generate h⟩

end stages

/-! ## The cleared tree -/

/-- How the directories of a project lie: the output directory apart from the source directories
that are there, none of which goes up or lies in another one of the module. -/
structure Layout (store : FileStore) (module : Module) (options : Options) : Prop where
  wellFormed : store.root.WellFormed
  here : store.root.look store.current = some .dir
  output : options.outputDirectory.Plain
  named : options.outputDirectory.text ≠ ""
  source : ∀ p ∈ module.sources ++ options.common.sources, store.isDir p = true →
    p.Plain ∧ Apart (options.outputDirectory.target store.current) (p.target store.current)
  flat : (existingRoots store module.sources).Flat store.current

namespace Layout

variable (layout : Layout world.files module options) {paths : List Path}
  (sub : paths ⊆ module.sources ++ options.common.sources)

section roots

include layout sub

/-- A source directory is a plain path beside the output directory. -/
theorem root {root : Path} (hr : root ∈ (existingRoots world.files paths).paths) :
    root.Plain ∧ Apart (options.outputDirectory.target world.files.current)
      (root.target world.files.current) :=
  layout.source root (sub (isDir_of_mem_existingRoots hr).1) (isDir_of_mem_existingRoots hr).2

/-- Clearing neither takes away a source directory nor makes one. -/
theorem existingRoots_cleared : existingRoots (world.cleared options).files paths =
    existingRoots world.files paths := by
  obtain ⟨left, leftover, -, clears⟩ := exists_clears layout.output world.files.current
  have clears : Clears left options.outputDirectory world.files (world.cleared options).files :=
    clears world.files rfl
  unfold existingRoots
  congr 1
  refine List.filter_congr fun p hp ↦ ?_
  rw [Bool.eq_iff_iff]
  constructor
  · exact fun dir ↦ FileStore.isDir_of_dirs dir clears.current.symm fun q ↦
      clears.dir_of_dir leftover
  · intro dir
    obtain ⟨plain, apart⟩ := layout.source p (sub hp) dir
    rw [FileStore.isDir_iff plain] at dir ⊢
    rwa [clears.current, clears.beside _ apart.1]

/-- Clearing the output directory leaves the sources as they are, so the same model is loaded. -/
theorem load_cleared : load (world.cleared options).files (existingRoots world.files paths) =
    load world.files (existingRoots world.files paths) :=
  load_congr layout.wellFormed (@frame_cleared world.files.current options world).1
    (fun _ hr ↦ (layout.root sub hr).1) (fun _ hr ↦ (isDir_of_mem_existingRoots hr).2)
    fun _ hr ↦ get?_clear (layout.root sub hr).2

end roots

include layout

theorem commonFor_cleared :
    (commonFor options (world.cleared options)).1 = (commonFor options world).1 := by
  have sub : options.common.sources ⊆ module.sources ++ options.common.sources :=
    List.subset_append_right _ _
  have cache : (world.cleared options).cache = world.cache := rfl
  unfold commonFor
  rw [layout.existingRoots_cleared sub, layout.load_cleared sub, cache]

/-- Source directories and the output directory lie beside each other. -/
theorem apart (root : Path) (hr : root ∈ (existingRoots world.files module.sources).paths) :
    Apart (options.outputDirectory.target world.files.current) (root.target world.files.current) :=
  (layout.root (List.subset_append_left _ _) hr).2

/-- The output directory and the sources of the module. -/
abbrev site : Site :=
  siteOf world.files (existingRoots world.files module.sources) options.outputDirectory layout.apart

/-- A run starts with nothing in the output directory. -/
theorem filled : Filled layout.site (fun _ ↦ none) (world.cleared options).files := by
  obtain ⟨left, -, kept, clears⟩ := exists_clears layout.output world.files.current
  have clears : Clears left options.outputDirectory world.files (world.cleared options).files :=
    clears world.files rfl
  refine ⟨⟨clears.current, ?_, fun q content hq ↦ ?_⟩, by simp, fun r ne stub hs ↦ ?_⟩
  · exact look_start_cleared rfl layout.output kept clears (FileStore.look_start layout.here _)
  · rw [clears.beside q (Site.apart _ q content hq).1]
    exact (exists_of_source_siteOf layout.apart hq).1
  · have nothing : (world.cleared options).files.root.look (layout.site.place ++ r) = none :=
      clears.below layout.named r ne
    rw [nothing] at hs
    cases hs

end Layout

/-! ## The contents -/

/-- At the place is the output of each Java file below the roots, where this lies below its root,
and besides only directories that such a file lies in. -/
structure Reproduces (store : FileStore) (roots : SourceRoots) (common : CommonClasses)
    (merged : Visited Merge.EmitSet Merge.MergeError SourceModel) (place : Place)
    (after : FileStore) :
    Prop where
  file : ∀ root names, IsSource store roots root names → ∃ file ∈ merged.value.files,
    file.path = root.below names ∧ ∃ content,
      outputOf (fun p ↦ (store.read p).toOption) common merged.state file = some content ∧
      after.root.look (place ++ names) = some (.file content)
  only : ∀ r ≠ [], ∀ stub, after.root.look (place ++ r) = some stub →
    ∃ root names, IsSource store roots root names ∧ r <+: names ∧ (r = names ∨ stub = .dir)

section contents

variable (layout : Layout world.files module options) {common : CommonClasses} {model : SourceModel}
  (loaded : load world.files (existingRoots world.files module.sources) = .ok model)
  (ok : (Merge.run common model).fault = none)

include ok in
/-- A merged file comes from a loaded one with the same path and the same top-level names. -/
theorem exists_of_merged {file : SourceFile} (hf : file ∈ (Merge.run common model).value.files) :
    ∃ file' ∈ model.files, file.path = file'.path ∧ file.topLevelNames = file'.topLevelNames := by
  obtain ⟨file', hf', eq, types⟩ := exists_of_forall₂ (Merge.overlaid_merge ok) hf
  exact ⟨file', hf', by rw [eq], Merge.topLevelNames_eq eq types⟩

include loaded ok in
/-- The merge neither adds nor drops a file, and it keeps their order. -/
theorem paths_merged :
    ∃ paths, javaFiles world.files (existingRoots world.files module.sources) = .ok paths ∧
    (Merge.run common model).value.files.map SourceFile.path = paths := by
  obtain ⟨paths, hp, read⟩ := forall₂_of_load loaded
  refine ⟨paths, hp, ?_⟩
  rw [← List.forall₂_eq_eq_eq, List.forall₂_map_left_iff]
  refine (forall₂_trans (fun p file file' h h' ↦ ?_) read (Merge.overlaid_merge ok)).flip
  change file'.path = p
  rw [h'.1, ← h.1]

include layout loaded ok in
/-- Every file of the merged model has a target in the output directory, at the place of its
path below the roots. -/
theorem assigned_merged {file : SourceFile} (hf : file ∈ (Merge.run common model).value.files) :
    ∃ p, layout.site.Assigned (existingRoots world.files module.sources) file p ∧
      Path.names p.components = (existingRoots world.files module.sources).placeOf file.path := by
  obtain ⟨file', hf', path, -⟩ := exists_of_merged ok hf
  have sub : module.sources ⊆ module.sources ++ options.common.sources :=
    List.subset_append_left _ _
  obtain ⟨p, assigned⟩ := exists_assigned layout.output (fun root hr ↦ (layout.root sub hr).1)
    (fun root hr ↦ (isDir_of_mem_existingRoots hr).2) layout.apart
      layout.wellFormed.named loaded hf'
  obtain ⟨relative, target, plain, trim, source⟩ := assigned
  rw [← path] at relative plain trim source
  refine ⟨p, ⟨relative, target, plain, trim, source⟩, ?_⟩
  rw [SourceRoots.placeOf, relative, Option.elim_some]

include layout loaded ok in
/-- The source of a merged file is what is read at its path. -/
theorem source_merged {file : SourceFile} (hf : file ∈ (Merge.run common model).value.files) :
    layout.site.source (file.path.target world.files.current) =
      (world.files.read file.path).toOption := by
  obtain ⟨p, assigned, -⟩ := assigned_merged layout loaded ok hf
  obtain ⟨content, source⟩ := assigned.source
  obtain ⟨there, -⟩ := exists_of_source_siteOf layout.apart source
  rw [FileStore.read_of_file assigned.plain assigned.trim (Node.look_eq_file.1 there)]
  exact source

include layout loaded ok in
/-- What is written for the merged model, if nothing fails. -/
theorem contains_deliver
    (distinct : ((Merge.run common model).value.files.map fun file ↦
      (existingRoots world.files module.sources).placeOf file.path).Nodup)
    (counterpart : ∀ file ∈ (Merge.run common model).value.files,
      (Merge.run common model).state.touches file = true →
        ∃ text, counterpartText? common file = some text) :
    Ends (fun after ↦ Contains (options.outputDirectory.target world.files.current)
        (Merge.run common model).value.files
        (fun file ↦ (existingRoots world.files module.sources).placeOf file.path)
        (outputOf (fun p ↦ (world.files.read p).toOption) common (Merge.run common model).state)
        after.root.look)
      (deliver (existingRoots world.files module.sources) (Merge.run common model).value common
        (Merge.run common model).state options.outputDirectory (world.cleared options).files) :=
  @leaves_deliver layout.site _ _ _ _ _ (fun p ↦ (world.files.read p).toOption) layout.output
    (fun _ hf ↦ assigned_merged layout loaded ok hf) distinct
    (fun _ hf ↦ source_merged layout loaded ok hf) counterpart _ layout.filled

end contents

/-- A run that comes to the validation leaves in the output directory what it makes of each Java
file of the module: nothing else, and nothing that was there before. -/
theorem run_contents (module : Module) (options : Options) (world : World)
    (generate : options.generateCode = true) (layout : Layout world.files module options)
    (distinct : ∀ paths, javaFiles world.files (existingRoots world.files module.sources) =
      .ok paths →
      (paths.map fun p ↦
        ((existingRoots world.files module.sources).relative? p).map Path.components).Nodup)
    (names : ∀ model, load world.files (existingRoots world.files module.sources) = .ok model →
      model.DollarFree)
    (common_names : ∀ common, (commonFor options world).1 = .ok common →
      ∃ model, common = .ofModel model ∧ model.DollarFree)
    (validated : validates (run module options world).1 = true) :
    ∃ common model, (commonFor options world).1 = .ok common ∧
      load world.files (existingRoots world.files module.sources) = .ok model ∧
      Reproduces world.files (existingRoots world.files module.sources) common
        (Merge.run common model)
        (options.outputDirectory.target world.files.current)
          (run module options world).2.files := by
  have sub : module.sources ⊆ module.sources ++ options.common.sources :=
    List.subset_append_left _ _
  obtain ⟨common, model, asked, loaded, ok, after, failed⟩ := exists_of_validates generate validated
  rw [layout.commonFor_cleared] at asked
  rw [layout.load_cleared sub] at loaded
  refine ⟨common, model, asked, loaded, ?_⟩
  obtain ⟨commonModel, rfl, dollarFree⟩ := common_names common asked
  have plain (root : Path) (hr : root ∈ (existingRoots world.files module.sources).paths) :=
    (layout.root sub hr).1
  have dirs (root : Path) (hr : root ∈ (existingRoots world.files module.sources).paths) :=
    (isDir_of_mem_existingRoots hr).2
  obtain ⟨paths, hp, listed⟩ := paths_merged loaded ok
  -- The sources below the roots and the merged files are the same paths, so each finds the other.
  have source {p : Path} : p ∈ paths ↔ ∃ root names,
      IsSource world.files (existingRoots world.files module.sources) root names ∧
        p = root.below names :=
    mem_javaFiles_iff layout.wellFormed plain dirs hp
  have ends := contains_deliver layout loaded ok ?_ fun file hf touched ↦ ?_
  · rw [← listed] at source
    rw [after]
    generalize deliver (existingRoots world.files module.sources)
      (Merge.run (.ofModel commonModel) model).value (.ofModel commonModel)
      (Merge.run (.ofModel commonModel) model).state options.outputDirectory
      (world.cleared options).files = delivered at ends failed ⊢
    rcases delivered with ⟨e | written, files⟩
    · exact absurd (ends.failed e rfl) (by simp [failed e rfl])
    · obtain ⟨each, only⟩ := ends.ok written rfl
      constructor
      · intro root names isSource
        obtain ⟨file, hf, path⟩ := List.mem_map.1 (source.2 ⟨root, names, isSource, rfl⟩)
        obtain ⟨content, output, there⟩ := each file hf
        rw [path, isSource.placeOf layout.wellFormed plain dirs layout.flat] at there
        exact ⟨file, hf, path, content, output, there⟩
      · intro r ne stub hs
        obtain ⟨file, hf, below, kind⟩ := only r ne stub hs
        obtain ⟨root, names, isSource, path⟩ := source.1 (List.mem_map_of_mem hf)
        rw [path, isSource.placeOf layout.wellFormed plain dirs layout.flat] at below kind
        exact ⟨root, names, isSource, below, kind⟩
  · have nodup := nodup_placeOf layout.wellFormed plain dirs layout.flat hp (distinct paths hp)
    rwa [← listed, List.map_map] at nodup
  · obtain ⟨file', hf', -, same⟩ := exists_of_merged ok hf
    exact Merge.counterpartText?_of_touches dollarFree ok
      (same ▸ names model loaded file' hf') touched

/-- A project with a file that takes something in and one that does not, and with an old output. -/
def staleWorld : World where
  files.root := .dir
    [⟨"common", .dir [⟨"A.java", .file "package p; class A { int x; }".toUTF8⟩]⟩,
      ⟨"out", .dir [⟨"Old.java", .file "class Old {}".toUTF8⟩]⟩,
      ⟨"src", .dir [⟨"A.java", .file "package p; @Inherit class A {}".toUTF8⟩,
        ⟨"New.java", .file "class New {}".toUTF8⟩]⟩]
  files.current := []
  cache := .empty

/-- The directories of the example have entries with different valid names. -/
theorem wellFormed_staleWorld : staleWorld.files.root.WellFormed := by
  have flat {es : List Entry} (here : (es.map Entry.name).Nodup ∧ ∀ e ∈ es, ValidName e.name)
      (files : ∀ e ∈ es, ∃ content, e.node = .file content) : (Node.dir es).WellFormed := by
    refine .dir here fun e he ↦ ?_
    obtain ⟨content, file⟩ := files e he
    rw [file]
    exact .file
  refine .dir (by decide +kernel) fun e he ↦ ?_
  rcases List.mem_cons.1 he with rfl | he
  · exact flat (by decide +kernel) (by simp)
  · rcases List.mem_cons.1 he with rfl | he
    · exact flat (by decide +kernel) (by simp)
    · obtain rfl := List.mem_singleton.1 he
      exact flat (by decide +kernel) (by simp)

/-- The options for a project with its common module next to it. -/
def optionsTo (output : Path) : Options := ⟨⟨"common", [⟨"common"⟩]⟩, output, true⟩

theorem run_contents_stale :
    validates (run ⟨"p", [⟨"src"⟩]⟩ (optionsTo ⟨"out"⟩) staleWorld).1 = true ∧
      ∃ common model, (commonFor (optionsTo ⟨"out"⟩) staleWorld).1 = .ok common ∧
        load staleWorld.files (existingRoots staleWorld.files [⟨"src"⟩]) = .ok model ∧
        Reproduces staleWorld.files (existingRoots staleWorld.files [⟨"src"⟩]) common
          (Merge.run common model) ["out"]
            (run ⟨"p", [⟨"src"⟩]⟩ (optionsTo ⟨"out"⟩) staleWorld).2.files := by
  have layout : Layout staleWorld.files ⟨"p", [⟨"src"⟩]⟩ (optionsTo ⟨"out"⟩) :=
    ⟨wellFormed_staleWorld, rfl, by decide +kernel, by decide +kernel, by decide +kernel,
      by decide +kernel⟩
  have dollarFree (p : Path)
    (free : (load staleWorld.files (existingRoots staleWorld.files [p])).toOption.all
      (fun model ↦ decide model.DollarFree) = true) (model : SourceModel)
      (h : load staleWorld.files (existingRoots staleWorld.files [p]) = .ok model) :
        model.DollarFree := by
    rw [h] at free
    exact of_decide_eq_true free
  have validated : validates (run ⟨"p", [⟨"src"⟩]⟩ (optionsTo ⟨"out"⟩) staleWorld).1 = true := by
    decide +kernel
  refine ⟨validated, run_contents _ (optionsTo ⟨"out"⟩) staleWorld rfl layout (fun paths h ↦ ?_)
    (dollarFree ⟨"src"⟩ (by decide +kernel)) (fun common h ↦ ?_) validated⟩
  · have files : (javaFiles staleWorld.files (existingRoots staleWorld.files [⟨"src"⟩])).toOption =
        some [⟨"src/A.java"⟩, ⟨"src/New.java"⟩] := by decide +kernel
    rw [h] at files
    obtain rfl := Option.some.inj files
    decide +kernel
  · have asked : (commonFor (optionsTo ⟨"out"⟩) staleWorld).1 =
        .ofModel <$> load staleWorld.files (existingRoots staleWorld.files [⟨"common"⟩]) :=
      (commonFor_eq rfl (by simp [staleWorld, CommonCache.empty])).1
    cases loaded : load staleWorld.files (existingRoots staleWorld.files [⟨"common"⟩]) with
    | error e =>
      rw [asked, loaded] at h
      cases h
    | ok model =>
      rw [asked, loaded] at h
      exact ⟨model, (Except.ok.inj h).symm, dollarFree ⟨"common"⟩ (by decide +kernel) model loaded⟩

/-- An output directory behind a directory that is missing is not found when it is to be cleared,
but found once that directory has been made; and an empty path is not found at all.  In both cases
an old file stays beside the new one. -/
theorem exists_stale_file_left :
    (let output : Path := ⟨"out/missing/.."⟩
    let after := run ⟨"p", [⟨"src"⟩]⟩ (optionsTo output) staleWorld
    Apart (output.target []) ["src"] ∧ Apart (output.target []) ["common"] ∧
      validates after.1 = true ∧ after.2.files.isFile ⟨"out/missing/../New.java"⟩ = true ∧
      after.2.files.isFile ⟨"out/missing/../Old.java"⟩ = true) ∧
    let inside : World := ⟨⟨staleWorld.files.root, ["out"]⟩, .empty⟩
    let after := run ⟨"p", [⟨"/src"⟩]⟩ ⟨⟨"common", [⟨"/common"⟩]⟩, ⟨""⟩, true⟩ inside
    Apart ((Path.mk "").target ["out"]) ["src"] ∧ Apart ((Path.mk "").target ["out"]) ["common"] ∧
      validates after.1 = true ∧ after.2.files.isFile ⟨"New.java"⟩ = true ∧
      after.2.files.isFile ⟨"Old.java"⟩ = true := by
  decide +kernel

end Workspace

end PlatformOverlay
