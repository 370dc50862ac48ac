import PlatformOverlay.Proofs.Workspace.Targets

/-!
# Running a module on a tree that others have changed

A run gives the same result, and the same output directory, on a tree in which other runs have
created directories above its output directory and in which its output directory is as it was or as
the run leaves it (`run_again`).

`Shared` is what is known of such a tree, and the run is followed through its three steps on it:
clearing makes both trees alike up to `Between` (`Shared.between`), the models that are loaded are
the same ones (`Shared.load_eq`, `Shared.commonFor_eq`), and the output is written in lockstep
(`process_again`). The common classes may be loaded again or come from the cache of a run before:
their source lies apart from all outputs, so it is the same.
-/

namespace PlatformOverlay

open Files Model Output

namespace Workspace

variable {module : Module} {options : Options} {roots : SourceRoots} {common : CommonClasses}
  {model : SourceModel}

/-- What a run does when the output directory is cleared and the common classes are asked for. -/
def afterClearing (module : Module) (options : Options) (roots : SourceRoots)
    (asked : Except Failure CommonClasses × CommonCache) (files : FileStore) :
    Except Failure Outcome × World :=
  match asked.1 with
  | .error e => (.error e, ⟨files, asked.2⟩)
  | .ok common =>
    if module.name = options.common.name then (.ok .commonModule, ⟨files, asked.2⟩)
    else
      match load files roots with
      | .error e => (.error e, ⟨files, asked.2⟩)
      | .ok model => process module options roots common model ⟨files, asked.2⟩

/-- A run clears the output directory, asks for the common classes and does the rest with the
answer: the run is a function of this answer and of the cleared files. -/
theorem run_eq_afterClearing {world : World} : run module options world =
    if (existingRoots world.files module.sources).isEmpty then (.ok .skipped, world)
    else afterClearing module options (existingRoots world.files module.sources)
      (commonFor options (world.cleared options)) (world.cleared options).files := run_eq

/-- Only asking for the common classes changes the cache. -/
theorem cache_process {world : World} :
    (process module options roots common model world).2.cache = world.cache := by
  unfold process
  dsimp only
  split_ifs
  · split
    · rfl
    · split <;> rfl
  · split <;> rfl

theorem cache_afterClearing {asked : Except Failure CommonClasses × CommonCache}
    {files : FileStore} :
    (afterClearing module options roots asked files).2.cache = asked.2 := by
  unfold afterClearing
  split
  · rfl
  · split_ifs
    · rfl
    · split
      · rfl
      · exact cache_process

/-- The second run gives the same result as the first, and the same output directory. -/
structure Repeats (place : Place) (first second : Except Failure Outcome × World) : Prop where
  result : second.1 = first.1
  inside : ∀ q, place <+: q → second.2.files.root.look q = first.2.files.root.look q

section lockstep

variable {site : Site} {store store' : FileStore} {cache cache' : CommonCache}

/-- Where nothing is written the output directory is as it was found. -/
theorem repeats_of_between {result : Except Failure Outcome}
    (between : Between site store.root.look [] store store') :
    Repeats site.place (result, ⟨store, cache⟩) (result, ⟨store', cache'⟩) where
  result := rfl
  inside q hq := (between.inside q hq).elim id id

variable (output : options.outputDirectory = site.output) (plain : site.output.Plain)
  (ready : site.Ready store)

include output plain ready

/-- Run from a tree between the first and the final one, writing the output does the same and
ends in the same output. -/
theorem process_again (assigned : ∀ file ∈ model.files, ∃ p, site.Assigned roots file p) :
    Grows store.root.look
      (process module options roots common model ⟨store, cache⟩).2.files.root.look ∧
    ∀ store' cache', Between site
        (process module options roots common model ⟨store, cache⟩).2.files.root.look []
          store store' →
      Repeats site.place (process module options roots common model ⟨store, cache⟩)
        (process module options roots common model ⟨store', cache'⟩) := by
  unfold process
  rw [output]
  split_ifs
  · dsimp only
    split
    · exact ⟨.refl _, fun store' cache' between ↦ repeats_of_between between⟩
    · rename_i ok
      have assigned' : ∀ file ∈ (Merge.run common model).value.files,
          ∃ p, site.Assigned roots file p := by
        intro file' hf'
        obtain ⟨file, hf, eq, -⟩ := exists_of_forall₂ (Merge.overlaid_merge ok) hf'
        obtain ⟨p, relative, target, plain, trim, source⟩ := assigned file hf
        rw [eq]
        exact ⟨p, relative, target, plain, trim, source⟩
      have lockstep (final : View) :
        LockstepAt site final [] [] (deliver roots (Merge.run common model).value
          common (Merge.run common model).state site.output) store :=
        lockstep_deliver plain assigned' store ready
      generalize deliver roots (Merge.run common model).value common (Merge.run common model).state
        site.output = write at lockstep ⊢
      rcases run : write store with ⟨r, files⟩
      -- The final tree of the first run is a parameter of lockstep, so it is put in only here.
      obtain ⟨-, grows, both⟩ := lockstep files.root.look
      rw [run] at grows both
      have second (store' : FileStore) (between : Between site files.root.look [] store store') :
          ∃ files', write store' = (r, files') ∧ Between site files.root.look [] files files' := by
        obtain ⟨same, between', -⟩ := both store' between (.refl _)
        exact ⟨(write store').2, Prod.ext same rfl, between'⟩
      cases r with
      | error e =>
        refine ⟨grows, fun store' cache' between ↦ ?_⟩
        obtain ⟨files', run', between'⟩ := second store' between
        rw [run']
        exact repeats_of_between between'
      | ok written =>
        refine ⟨grows, fun store' cache' between ↦ ?_⟩
        obtain ⟨files', run', between'⟩ := second store' between
        rw [run']
        exact repeats_of_between between'
  · split
    · exact ⟨.refl _, fun store' cache' between ↦ repeats_of_between between⟩
    · exact ⟨.refl _, fun store' cache' between ↦ repeats_of_between between⟩

/-- A run on the same common classes and sources repeats, failures included. -/
theorem afterClearing_again {asked asked' : Except Failure CommonClasses × CommonCache}
    (same : asked'.1 = asked.1)
    (assigned : ∀ model, load store roots = .ok model →
      ∀ file ∈ model.files, ∃ p, site.Assigned roots file p) :
    Grows store.root.look (afterClearing module options roots asked store).2.files.root.look ∧
    ∀ store', load store' roots = load store roots → Between site
        (afterClearing module options roots asked store).2.files.root.look [] store store' →
      Repeats site.place (afterClearing module options roots asked store)
        (afterClearing module options roots asked' store') := by
  unfold afterClearing
  rw [same]
  cases asked.1 with
  | error e => exact ⟨.refl _, fun store' _ between ↦ repeats_of_between between⟩
  | ok common =>
    dsimp only
    split_ifs
    · exact ⟨.refl _, fun store' _ between ↦ repeats_of_between between⟩
    · cases loaded : load store roots with
      | error e =>
        refine ⟨.refl _, fun store' reload between ↦ ?_⟩
        rw [reload]
        exact repeats_of_between between
      | ok model =>
        obtain ⟨grows, again⟩ := @process_again module _ _ common _ _ _ asked.2
          output plain ready (assigned model loaded)
        refine ⟨grows, fun store' reload between ↦ ?_⟩
        rw [reload]
        exact again store' asked'.2 between

end lockstep

/-! ## Runs -/

/-- Nothing that a run reads lies where it writes, and no path goes up. -/
structure Isolated (store : FileStore) (module : Module) (options : Options) : Prop where
  wellFormed : store.root.WellFormed
  here : store.root.look store.current = some .dir
  output : options.outputDirectory.Plain
  source : ∀ p ∈ module.sources ++ options.common.sources, p.Plain
  apart : ∀ p ∈ module.sources ++ options.common.sources,
    Apart (options.outputDirectory.target store.current) (p.target store.current)

namespace Isolated

variable {store : FileStore} (isolated : Isolated store module options)

include isolated

/-- Source directories and the output directory lie beside each other. -/
theorem apart_root (root : Path) (hr : root ∈ (existingRoots store module.sources).paths) :
    Apart (options.outputDirectory.target store.current) (root.target store.current) :=
  isolated.apart root (List.mem_append_left _ (isDir_of_mem_existingRoots hr).1)

/-- The output directory and the sources of the module. -/
abbrev site : Site :=
  siteOf store (existingRoots store module.sources) options.outputDirectory isolated.apart_root

/-- Every file that was loaded has its target below the output directory. -/
theorem assigned (loaded : load store (existingRoots store module.sources) = .ok model)
    {file : SourceFile}
    (hf : file ∈ model.files) :
    ∃ p, isolated.site.Assigned (existingRoots store module.sources) file p := by
  refine exists_assigned isolated.output (fun root hr ↦ ?_) (fun root hr ↦ ?_) isolated.apart_root
    isolated.wellFormed.named loaded hf
  · exact isolated.source root (List.mem_append_left _ (isDir_of_mem_existingRoots hr).1)
  · exact (isDir_of_mem_existingRoots hr).2

end Isolated

/-- What is loaded when the common classes are first asked for. -/
def commonOf (store : FileStore) (common : Module) : Except Failure CommonClasses :=
  CommonClasses.ofModel <$> load store (existingRoots store common.sources)

/-- The tree as other runs may have left it, where the run itself has written either nothing or
all. -/
structure Shared (store : FileStore) (module : Module) (options : Options)
    (world : World) : Prop where
  current : world.files.current = store.current
  cache : ∀ common, world.cache.loaded = some common → commonOf store options.common = .ok common
  source : ∀ p ∈ module.sources ++ options.common.sources,
    world.files.root.get? (p.target store.current) = store.root.get? (p.target store.current)
  above : ∀ q, q <+: options.outputDirectory.target store.current →
    q ≠ options.outputDirectory.target store.current →
    world.files.root.look q = store.root.look q ∨
      (store.root.look q = none ∧ world.files.root.look q = some .dir)
  inside : (∀ q, options.outputDirectory.target store.current <+: q →
      world.files.root.look q = store.root.look q) ∨
    ∀ q, options.outputDirectory.target store.current <+: q →
      world.files.root.look q = (run module options ⟨store, .empty⟩).2.files.root.look q

/-- A run alone is as if behind no others. -/
theorem Shared.alone (store : FileStore) (module : Module) (options : Options) :
    Shared store module options ⟨store, .empty⟩ where
  current := rfl
  cache := by simp [CommonCache.empty]
  source _ _ := rfl
  above _ _ _ := .inl rfl
  inside := .inl fun _ _ ↦ rfl

/-- Which roots exist depends on what is at their targets. -/
theorem existingRoots_congr {store store' : FileStore} {paths : List Path}
    (current : store'.current = store.current) (plain : ∀ p ∈ paths, p.Plain)
    (same : ∀ p ∈ paths, store'.root.get? (p.target store.current) =
      store.root.get? (p.target store.current)) :
    existingRoots store' paths = existingRoots store paths := by
  unfold existingRoots
  congr 1
  refine List.filter_congr fun p hp ↦ ?_
  rw [Bool.eq_iff_iff, FileStore.isDir_iff (plain p hp), FileStore.isDir_iff (plain p hp),
    current, Node.look,
    same p hp, Node.look]

/-- Clearing leaves the same in both trees, or else what the run has left. -/
theorem look_cleared_again {left : Option Stub → Option Stub} {p : Path}
    {store store' cleared cleared' : FileStore}
    (leftover : Leftover left) (clears : Clears left p store cleared)
    (clears' : Clears left p store' cleared')
    (current : store'.current = store.current) {final : View}
    (grows : Grows cleared.root.look final)
    (inside : (∀ q, p.target store.current <+: q → store'.root.look q = store.root.look q) ∨
      ∀ q, p.target store.current <+: q → store'.root.look q = final q)
    {q : Place} (hq : p.target store.current <+: q) :
    cleared'.root.look q = cleared.root.look q ∨ cleared'.root.look q = final q := by
  by_cases empty : p.text = ""
  · rw [clears.same empty, clears'.same empty]
    exact inside.imp (· q hq) (· q hq)
  obtain ⟨r, rfl⟩ := hq
  by_cases ne : r = []
  · have here := clears.here
    have here' := clears'.here
    rw [current] at here'
    rw [ne, List.append_nil, here']
    rcases inside with same | last
    · rw [same _ List.prefix_rfl, here]
      exact .inl rfl
    · rw [last _ List.prefix_rfl, here]
      exact leftover.again fun stub hs ↦ grows _ stub (here.trans hs)
  · rw [clears.below empty r ne, ← current, clears'.below empty r ne]
    exact .inl rfl

/-- The directory that the output path starts from is there after clearing. -/
theorem look_start_cleared {left : Option Stub → Option Stub} {p : Path} {store cleared : FileStore}
    {current : Place} (hc : store.current = current) (plain : p.Plain)
    (kept : p.target current = p.start current → left (some .dir) = some .dir)
    (clears : Clears left p store cleared) (start : store.root.look (p.start current) = some .dir) :
    cleared.root.look (p.start current) = some .dir := by
  subst hc
  by_cases here : p.target store.current = p.start store.current
  · rw [← here, clears.here, here, start, kept here]
  · rw [clears.beside _ fun below ↦ here ?_, start]
    have above : p.start store.current <+: p.target store.current :=
      Path.target_of_plain plain ▸ List.prefix_append _ _
    exact below.eq_of_length (le_antisymm below.length_le above.length_le)

theorem get?_clear {p : Path} {store : FileStore} {q : Place}
    (apart : Apart (p.target store.current) q) :
    (clear p store).2.root.get? q = store.root.get? q := by
  have frame : FileStore.Frame store.current (fun _ ↦ False) (p.target store.current) store
    (clear p store).2 :=
    preserves_clear List.prefix_rfl store
  exact (frame.2 rfl).same q apart.1 apart.2 (by simp)

/-- The common classes are those that would be loaded, whether they are loaded or were there. -/
theorem commonFor_eq {world : World} {loaded : Except Failure CommonClasses}
    (load : CommonClasses.ofModel <$> load world.files
      (existingRoots world.files options.common.sources) = loaded)
    (cached : ∀ common, world.cache.loaded = some common → loaded = .ok common) :
    (commonFor options world).1 = loaded ∧
      ∀ common, (commonFor options world).2.loaded = some common → loaded = .ok common := by
  unfold commonFor CommonCache.getOrLoad
  rw [load]
  cases there : world.cache.loaded with
  | some common =>
    dsimp only
    rw [there]
    exact ⟨(cached common there).symm, fun common' h ↦ Option.some.inj h ▸ cached common there⟩
  | none =>
    cases loaded with
    | error e =>
      dsimp only
      rw [there]
      exact ⟨rfl, by simp⟩
    | ok common =>
      dsimp only
      exact ⟨rfl, fun common' h ↦ congrArg _ (Option.some.inj h)⟩

section again

variable {store : FileStore} {world : World} (isolated : Isolated store module options)
  (shared : Shared store module options world)

include isolated shared

/-- In the cleared tree the sources are as they were at first. -/
theorem Shared.get?_cleared {p : Path} (hp : p ∈ module.sources ++ options.common.sources) :
    (world.cleared options).files.root.get? (p.target store.current) =
      store.root.get? (p.target store.current) := by
  have apart := isolated.apart p hp
  rw [← shared.current] at apart
  have := get?_clear apart
  rw [shared.current] at this
  exact this.trans (shared.source p hp)

omit isolated in
theorem Shared.current_cleared : (world.cleared options).files.current = store.current :=
  (@frame_cleared store.current options world).1.trans shared.current

/-- Whatever other modules have written, the roots of this one are as at the start. -/
theorem Shared.existingRoots_eq {paths : List Path}
    (sub : paths ⊆ module.sources ++ options.common.sources) :
    existingRoots world.files paths = existingRoots store paths :=
  existingRoots_congr shared.current (fun p hp ↦ isolated.source p (sub hp)) fun p hp ↦
    shared.source p (sub hp)

theorem Shared.load_eq {paths : List Path}
    (sub : paths ⊆ module.sources ++ options.common.sources) :
    load (world.cleared options).files (existingRoots store paths) =
      load store (existingRoots store paths) := by
  refine load_congr isolated.wellFormed shared.current_cleared (fun root hr ↦ ?_)
    (fun root hr ↦ ?_) fun root hr ↦ ?_
  · exact isolated.source root (sub (isDir_of_mem_existingRoots hr).1)
  · exact (isDir_of_mem_existingRoots hr).2
  · exact shared.get?_cleared isolated (sub (isDir_of_mem_existingRoots hr).1)

/-- The common classes come from the cache or are loaded again. Either way they are those of the
start, and the cache keeps them. -/
theorem Shared.commonFor_eq :
    (commonFor options (world.cleared options)).1 = commonOf store options.common ∧
    ∀ common, (commonFor options (world.cleared options)).2.loaded = some common →
      commonOf store options.common = .ok common := by
  have sub : options.common.sources ⊆ module.sources ++ options.common.sources :=
    List.subset_append_right _ _
  refine Workspace.commonFor_eq ?_ shared.cache
  have roots : existingRoots (world.cleared options).files options.common.sources =
      existingRoots store options.common.sources :=
    existingRoots_congr shared.current_cleared (fun p hp ↦ isolated.source p (sub hp))
      fun p hp ↦ shared.get?_cleared isolated (sub hp)
  rw [roots, shared.load_eq isolated sub, commonOf]

/-- In the cleared tree a run finds what it needs. -/
theorem Shared.ready
    (start : world.files.root.look (options.outputDirectory.start store.current) = some .dir) :
    isolated.site.Ready (world.cleared options).files := by
  obtain ⟨left, -, kept, clears⟩ := exists_clears isolated.output store.current
  refine ⟨shared.current_cleared, ?_, fun q content hq ↦ ?_⟩
  · exact look_start_cleared shared.current isolated.output kept
      (clears world.files shared.current) start
  · obtain ⟨file, root, hr, r, rfl⟩ := exists_of_source_siteOf isolated.apart_root hq
    have same :=
      shared.get?_cleared isolated (List.mem_append_left _ (isDir_of_mem_existingRoots hr).1)
    rw [← file, Node.look, Node.look, Node.get?_append, Node.get?_append, same]

/-- A run among others changes its own output directory only. -/
theorem Shared.frame :
    FileStore.Frame store.current (Path.Passes store.current options.outputDirectory)
    (options.outputDirectory.target store.current) world.files
    (run module options world).2.files := by
  have sub : module.sources ⊆ module.sources ++ options.common.sources :=
    List.subset_append_left _ _
  have frame := frame_run module options world fun model loaded ↦ ?_
  · rwa [shared.current] at frame
  · rw [shared.existingRoots_eq isolated sub] at loaded ⊢
    rw [shared.load_eq isolated sub] at loaded
    refine allWithin_of_load isolated.wellFormed.named ?_ (fun root hr ↦ ?_) loaded
    · exact SourceRoots.stayInside_of_plain fun root hr ↦
        isolated.source root (sub (isDir_of_mem_existingRoots hr).1)
    · exact (FileStore.look_of_isDir (isDir_of_mem_existingRoots hr).2).2

section grows

variable (grows : Grows (World.cleared ⟨store, .empty⟩ options).files.root.look
  (run module options ⟨store, .empty⟩).2.files.root.look)

include grows

/-- The directory in which the output path starts is there, also when it is the output directory. -/
theorem Shared.look_start :
    world.files.root.look (options.outputDirectory.start store.current) = some .dir := by
  have start := FileStore.look_start isolated.here options.outputDirectory
  by_cases here :
    options.outputDirectory.target store.current = options.outputDirectory.start store.current
  · obtain ⟨left, -, kept, clears⟩ := exists_clears isolated.output store.current
    have clears :
        Clears left options.outputDirectory store (World.cleared ⟨store, .empty⟩ options).files :=
      clears store rfl
    rw [← here] at start ⊢
    rcases shared.inside with same | last
    · rw [same _ List.prefix_rfl, start]
    · rw [last _ List.prefix_rfl]
      refine grows.dir ?_
      rw [clears.here, start, kept here]
  · have above : options.outputDirectory.start store.current <+:
      options.outputDirectory.target store.current :=
      Path.target_of_plain isolated.output ▸ List.prefix_append _ _
    rcases shared.above _ above (Ne.symm here) with same | ⟨-, dir⟩
    · rw [same, start]
    · exact dir

/-- When both are cleared, the tree is between that of the run alone and what this run leaves. -/
theorem Shared.between :
    Between isolated.site (run module options ⟨store, .empty⟩).2.files.root.look []
    (World.cleared ⟨store, .empty⟩ options).files (world.cleared options).files := by
  obtain ⟨left, leftover, -, clears⟩ := exists_clears isolated.output store.current
  have alone :
      Clears left options.outputDirectory store (World.cleared ⟨store, .empty⟩ options).files :=
    clears store rfl
  have behind : Clears left options.outputDirectory world.files (world.cleared options).files :=
    clears world.files shared.current
  refine ⟨shared.ready isolated (shared.look_start isolated grows), fun q hq ne ↦ ?_,
    fun q hq ↦ ?_, by simp⟩
  · have not_below : ¬ options.outputDirectory.target store.current <+: q := fun below ↦
      ne (hq.eq_of_length (le_antisymm hq.length_le below.length_le))
    rw [alone.beside q not_below, behind.beside q (shared.current ▸ not_below)]
    exact shared.above q hq ne
  · exact look_cleared_again leftover alone behind shared.current grows shared.inside hq

end grows

/-- Run behind others, a module gives the result that it gives alone, and the same output. -/
theorem run_again :
    Repeats (options.outputDirectory.target store.current) (run module options ⟨store, .empty⟩)
      (run module options world) ∧
    ∀ common, (run module options world).2.cache.loaded = some common →
      commonOf store options.common = .ok common := by
  have sub : module.sources ⊆ module.sources ++ options.common.sources :=
    List.subset_append_left _ _
  have first := @run_eq_afterClearing module options ⟨store, .empty⟩
  have inside := shared.inside
  rw [@run_eq_afterClearing module options world, shared.existingRoots_eq isolated sub]
  split_ifs at first with empty
  · rw [if_pos empty]
    rw [first] at inside ⊢
    exact ⟨⟨rfl, fun q hq ↦ inside.elim (· q hq) (· q hq)⟩, shared.cache⟩
  rw [if_neg empty]
  have alone := Shared.alone store module options
  have ready := alone.ready isolated (FileStore.look_start isolated.here _)
  obtain ⟨common, -⟩ := alone.commonFor_eq isolated
  obtain ⟨common', cached⟩ := shared.commonFor_eq isolated
  obtain ⟨grows, again⟩ :=
    @afterClearing_again module options _ isolated.site _ rfl isolated.output ready _ _
    (common'.trans common.symm) fun model loaded file hf ↦
      isolated.assigned (alone.load_eq isolated sub ▸ loaded) hf
  rw [← first] at grows again
  refine ⟨again _ ?_ (shared.between isolated grows), ?_⟩
  · rw [shared.load_eq isolated sub, alone.load_eq isolated sub]
  · rw [cache_afterClearing]
    exact cached

end again

end Workspace

end PlatformOverlay
