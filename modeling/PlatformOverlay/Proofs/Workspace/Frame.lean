import PlatformOverlay.Proofs.Files.Frame
import PlatformOverlay.Proofs.Merge.Overlay
import PlatformOverlay.Proofs.Workspace.Load
import PlatformOverlay.Proofs.Workspace.Run

/-!
# What a run leaves alone

A run changes nothing outside its output directory, whatever it returns, but for missing directories
above the output directory that it creates (`run_frame`).  For this no source root may go up out of
one in front of it that it continues: the part of such a root behind the other one is taken for a
path below the output directory.

Each step is framed for itself by `Files.Frame`, with the output directory and the places that may
be made, and frames are put one after the other. The one question that is asked of the module is
whether the paths of its files stay inside when they are joined to the output directory. `Inside`
says so of a path that never goes up more often than it has gone down before (`prefix_walk`); loaded
files have such paths if their roots do (`allWithin_of_load`), and a merge keeps the paths
(`AllWithin.of_corresponds`).

## What is not claimed

With two roots of which one is `src` and the other `src/../other`, a source in the latter has a way
out of the output directory, and may be copied onto itself, which empties it
(`exists_source_emptied`). `SourceRoots.StayInside` excludes these, and plain paths satisfy it
(`stayInside_of_plain`).
-/

namespace PlatformOverlay

open Files Model

namespace Path

/-! ## Ways that stay inside -/

variable {place x current : Place} {cs ds : List Component} {a b : Path}

/-- Wherever it is cut off, the way has not gone up more often than down. -/
def Inside (cs : List Component) : Prop :=
  ∀ front, front <+: cs → front.count .up ≤ (names front).length

/-- A way that never goes up more often than down, from `x` below the place, does not leave what
is below the place. -/
theorem prefix_walk_append (inner : ∀ c ∈ cs, c.Inner)
    (h : ∀ front, front <+: cs → front.count .up ≤ x.length + (names front).length) :
    place <+: walk (place ++ x) cs := by
  induction cs generalizing x with
  | nil => exact List.prefix_append place x
  | cons c cs ih =>
    obtain ⟨first, rest⟩ := List.forall_mem_cons.1 inner
    have h' {front : List Component} (hf : front <+: cs) :=
      h (c :: front) (List.cons_prefix_cons.2 ⟨rfl, hf⟩)
    cases c with
    | root => exact absurd rfl first.1
    | here => exact absurd rfl first.2
    | name text =>
      rw [walk_cons]
      change place <+: walk (place ++ x ++ [text]) cs
      rw [List.append_assoc]
      refine ih rest fun front hf ↦ ?_
      have step := h' hf
      simp only [List.count_cons_of_ne (show Component.name text ≠ .up by simp), names_cons_name,
        List.length_cons, List.length_append, List.length_nil] at step ⊢
      omega
    | up =>
      have once := h' List.nil_prefix
      have ne : x ≠ [] := by
        rintro rfl
        simp at once
      have pos := List.length_pos_iff.2 ne
      rw [walk_cons]
      change place <+: walk (place ++ x).dropLast cs
      rw [List.dropLast_append_of_ne_nil ne]
      refine ih rest fun front hf ↦ ?_
      have step := h' hf
      simp only [List.count_cons_self, names_cons_up, List.length_dropLast] at step ⊢
      omega

/-- A way that stays inside ends below the place it starts at. -/
theorem prefix_walk (inner : ∀ c ∈ cs, c.Inner) (h : Inside cs) : place <+: walk place cs := by
  have := @prefix_walk_append place [] cs inner (by simpa [Inside] using h)
  rwa [List.append_nil] at this

theorem inside_of_not_up (h : .up ∉ cs) : Inside cs := by
  intro front hf
  rw [List.count_eq_zero_of_not_mem fun hm ↦ h (hf.subset hm)]
  exact Nat.zero_le _

/-- A way that stays inside does so when it is cut off. -/
theorem Inside.of_prefix (h : Inside cs) (hd : ds <+: cs) : Inside ds :=
  fun front hf ↦ h front (hf.trans hd)

/-- A path that stays inside still does so when it goes on downwards. -/
theorem Inside.append (h : Inside cs) (hd : .up ∉ ds) : Inside (cs ++ ds) := by
  intro front hf
  rcases List.prefix_or_prefix_of_prefix hf (List.prefix_append cs ds) with hf | ⟨behind, rfl⟩
  · exact h front hf
  · have all := h cs List.prefix_rfl
    have none : behind.count .up = 0 :=
      List.count_eq_zero_of_not_mem fun hm ↦
        hd ((List.prefix_append_right_inj cs).1 hf |>.subset hm)
    rw [List.count_append, names_append, List.length_append]
    omega

/-- The places that a path names on its way. -/
def Passes (current : Place) (p : Path) (place : Place) : Prop :=
  ∃ cs, cs <+: p.components ∧ cs ≠ [] ∧ place = walk current cs

/-- A plain path only passes places above its target. -/
theorem Passes.above {p : Path} (plain : p.Plain) (h : p.Passes current place) :
    place <+: p.target current := by
  obtain ⟨cs, ⟨ds, split⟩, ne, rfl⟩ := h
  obtain ⟨c, cs, rfl⟩ := List.exists_cons_of_ne_nil ne
  have inner := inner_of_tail (split.symm.trans List.cons_append)
  have root : .root ∉ ds := fun h ↦ (inner _ (List.mem_append_right _ h)).1 rfl
  have up : .up ∉ ds := fun h ↦ plain (split ▸ List.mem_append_right _ h)
  rw [target, ← split, walk_append, walk_of_names root up]
  exact List.prefix_append _ _

end Path

namespace Workspace.SourceRoots

/-- No root goes up out of one in front of it that it continues. -/
def StayInside (roots : SourceRoots) : Prop :=
  roots.paths.Pairwise fun r r' ↦ ∀ cs, r'.components = r.components ++ cs → Path.Inside cs

variable {roots : SourceRoots} {root p : Path} {q : Place}

/-- Roots that are plain paths cannot climb out of one another. -/
theorem stayInside_of_plain (h : ∀ root ∈ roots.paths, root.Plain) : roots.StayInside := by
  refine List.pairwise_of_forall_mem_list fun r _ r' hr' cs split ↦
    Path.inside_of_not_up fun up ↦ ?_
  exact h r' hr' (split ▸ List.mem_append_right _ up)

/-- A file below a root goes to a place at or below the output directory. -/
theorem StayInside.relative? (h : roots.StayInside) (nonempty : ∀ r ∈ roots.paths, r.text ≠ "")
    (hr : root ∈ roots.paths) (valid : ∀ name ∈ q, ValidName name)
    (hp : roots.relative? (root.below q) = some p) : p.Joinable ∧ Path.Inside p.components := by
  obtain ⟨before, first, behind, split, hfirst, none⟩ := List.findSome?_eq_some_iff.1 hp
  have hf : first ∈ roots.paths := split ▸ by simp
  obtain ⟨components, joinable⟩ := Path.relativeTo?_eq_some (nonempty first hf) hfirst
  refine ⟨joinable, ?_⟩
  rw [Path.components_below valid] at components
  have named : .up ∉ q.map Path.Component.name := by simp
  rcases List.prefix_or_prefix_of_prefix ⟨_, components.symm⟩ (List.prefix_append _ _) with
    ⟨cs, continues⟩ | ⟨cs, continues⟩
  · -- The root is the first match, or one behind it that continues it.
    rw [← continues, List.append_assoc] at components
    rw [← List.append_cancel_left components]
    refine Path.Inside.append ?_ named
    rw [split] at hr
    rcases List.mem_append.1 hr with hr | hr
    · have missed := none root hr
      simp [Path.relativeTo?, Path.components_below valid] at missed
    · rcases List.mem_cons.1 hr with rfl | hr
      · obtain rfl : cs = [] := List.append_right_eq_self.1 continues
        exact Path.inside_of_not_up (by simp)
      · unfold StayInside at h
        rw [split] at h
        exact (List.pairwise_cons.1 (List.pairwise_append.1 h).2.1).1 root hr cs continues.symm
  · -- The first match lies below the root.
    rw [← continues, List.append_assoc] at components
    refine Path.inside_of_not_up fun hm ↦ named ?_
    rw [List.append_cancel_left components]
    exact List.mem_append_right _ hm

end Workspace.SourceRoots

/-! ## Writing the output -/

namespace Output

open Merge Workspace

variable {current : Place} {output target : Path} {roots : SourceRoots} {common : CommonClasses}
  {model : SourceModel} {emit : EmitSet} {file : SourceFile}

/-- The frame of everything that is written for a run. -/
abbrev Framed (current : Place) (output : Path) (m : Action α) : Prop :=
  Preserves (FileStore.Frame current (Path.Passes current output) (output.target current)) m

theorem framed_tagged {m : FileM α} {operation : String} {p : Path}
    (h : Preserves (FileStore.Frame current (Path.Passes current output) (output.target current))
      m) :
    Framed current output (tagged operation p m) := by
  intro store
  have := h store
  unfold tagged
  cases hm : m store with
  | mk r store' =>
    rw [hm] at this
    cases r <;> exact this

/-- The target of a file that is written lies in the output directory. -/
def Within (output target : Path) : Prop :=
  ∃ p : Path, target = output.join p ∧ p.Joinable ∧ Path.Inside p.components

namespace Within

/-- The target of a file goes on from the output directory by a way that stays inside. -/
theorem components (h : Within output target) : ∃ cs, target.components = output.components ++ cs ∧
    Path.Inside cs ∧ ∀ c ∈ cs, c.Inner := by
  obtain ⟨p, rfl, joinable, inside⟩ := h
  exact ⟨p.components, joinable.components, inside, fun c hc ↦ joinable.inner_of_mem hc⟩

/-- What is written inside the output directory lies below it. -/
theorem prefix_target (h : Within output target) :
    output.target current <+: target.target current := by
  obtain ⟨cs, components, inside, inner⟩ := h.components
  rw [Path.target, Path.target, components, Path.walk_append]
  exact Path.prefix_walk inner inside

/-- The directories made for a target are passed by the output path or lie below it. -/
theorem mayCreate_parent (h : Within output target) {parent : Path}
    (hp : target.parent? = some parent) :
    MayCreate current (Path.Passes current output) (output.target current) parent := by
  obtain ⟨cs, components, inside, inner⟩ := h.components
  obtain ⟨c, split⟩ := Path.components_parent hp
  intro front hf ne
  have front_target : front <+: output.components ++ cs :=
    components ▸ hf.trans (split ▸ List.prefix_append _ _)
  rcases List.prefix_or_prefix_of_prefix front_target (List.prefix_append _ _)
    with hf | ⟨behind, rfl⟩
  · exact .inl ⟨front, hf, ne, rfl⟩
  · have hb : behind <+: cs := (List.prefix_append_right_inj _).1 front_target
    rw [Path.walk_append]
    exact .inr (Path.prefix_walk (fun c hc ↦ inner c (hb.subset hc)) (inside.of_prefix hb))

end Within

/-- The directories above a target may be made. -/
theorem framed_createParent (h : Within output target) :
    Framed current output (createParent target) := by
  unfold createParent
  split
  · exact framed_tagged (preserves_createDirs (h.mayCreate_parent ‹_›))
  · exact .pure ()

theorem framed_copy {source : Path} (h : Within output target) :
    Framed current output (copy source target) :=
  (framed_createParent h).bind fun _ ↦ framed_tagged (preserves_copyFile h.prefix_target)

/-- Repairing a file of the output changes nothing outside. -/
theorem framed_repairFile {text : String} {package : Option String} (h : Within output target) :
    Framed current output (repairFile target text package) := by
  refine (framed_tagged (.of_same fun store ↦ by rw [run_ask])).bind fun generated ↦ ?_
  split
  · exact framed_tagged (preserves_writeFile h.prefix_target _)
  · exact .throw _

/-- What is done with the destination of a file is done with a path in the output directory. -/
theorem framed_destination {f : Path → Action α}
    (h : ∀ p, roots.relative? file.path = some p → Within output (output.join p))
    (hf : ∀ target, Within output target → Framed current output (f target)) :
    Framed current output (destination roots output file >>= f) := by
  intro store
  rw [run_bind]
  unfold destination
  cases hp : roots.relative? file.path with
  | none => exact refl store
  | some p => exact hf _ (h p hp) store

/-- Every file of the model goes to the output directory. -/
def AllWithin (roots : SourceRoots) (output : Path) (model : SourceModel) : Prop :=
  ∀ file ∈ model.files, ∀ p, roots.relative? file.path = some p → Within output (output.join p)

/-- If every file has its target inside the output directory, then nothing outside is changed by
the whole delivery, also when it fails on the way. -/
theorem framed_deliver (h : AllWithin roots output model) :
    Framed current output (deliver roots model common emit output) := by
  refine Preserves.bind (.mapM fun file hf ↦ ?_) fun written ↦
    (Preserves.foldlM fun summary file hf ↦ ?_).bind fun _ ↦ .pure _
  · refine framed_destination (h file (List.mem_filter.1 hf).1) fun target within ↦ ?_
    refine (framed_createParent within).bind fun _ ↦ ?_
    exact (framed_tagged (preserves_writeFile within.prefix_target _)).bind fun _ ↦ .pure _
  · refine framed_destination (h file hf) fun target within ↦ ?_
    refine (Preserves.of_same fun _ ↦ rfl).bind fun store ↦ ?_
    dsimp only
    split
    · exact (framed_repairFile within).bind fun _ ↦ .pure _
    · exact (framed_copy within).bind fun _ ↦ .pure _

/-- The merge keeps the paths of the files, so their targets stay inside. -/
theorem AllWithin.of_corresponds {R : String → Java.TypeDecl → Java.TypeDecl → Prop}
    {merged : SourceModel} (h : AllWithin roots output model) (same : model.Corresponds R merged) :
    AllWithin roots output merged := by
  intro file' hf'
  obtain ⟨file, hf, eq, -⟩ := exists_of_forall₂ same hf'
  rw [eq]
  exact h file hf

end Output

/-! ## Runs -/

namespace Workspace

variable {store : FileStore} {roots : SourceRoots} {model : SourceModel} {current : Place}

/-- A loaded file lies below a root. -/
theorem exists_below_of_load (named : store.root.Named) (h : load store roots = .ok model)
    {file : SourceFile} (hf : file ∈ model.files) : ∃ root ∈ roots.paths, ∃ q : Place,
      (∀ name ∈ q, ValidName name) ∧ file.path = root.below q := by
  obtain ⟨paths, hpaths, files⟩ := forall₂_of_load h
  obtain ⟨p, hp, path, -⟩ := exists_of_forall₂ files hf
  obtain ⟨root, hroot, node, hn, listed, -⟩ := (mem_javaFiles hpaths).1 hp
  obtain ⟨q, valid, rfl⟩ :=
    Node.exists_below_of_mem_filesFrom (Node.Each.get? named (FileStore.get?_of_node? hn).1) listed
  exact ⟨root, hroot, q, valid, path⟩

/-- The files that are loaded lie below their roots. When no root climbs out of one that it
continues, none of them gets a target outside of the output directory. -/
theorem allWithin_of_load {output : Path} (named : store.root.Named) (inside : roots.StayInside)
    (nonempty : ∀ root ∈ roots.paths, root.text ≠ "") (h : load store roots = .ok model) :
    Output.AllWithin roots output model := by
  intro file hf p hp
  obtain ⟨root, hroot, q, valid, path⟩ := exists_below_of_load named h hf
  rw [path] at hp
  obtain ⟨joinable, inside⟩ := inside.relative? nonempty hroot valid hp
  exact ⟨p, rfl, joinable, inside⟩

/-- All that is done with a loaded model changes only the output directory. -/
theorem frame_process {module : Module} {options : Options} {common : CommonClasses} {world : World}
    (h : Output.AllWithin roots options.outputDirectory model) :
    FileStore.Frame current (Path.Passes current options.outputDirectory)
      (options.outputDirectory.target current) world.files
      (process module options roots common model world).2.files := by
  unfold process
  split_ifs
  · dsimp only
    split
    · exact refl world.files
    · rename_i ok
      have framed : Output.Framed current options.outputDirectory (Output.deliver roots
          (Merge.run common model).value common (Merge.run common model).state
            options.outputDirectory) :=
        Output.framed_deliver (h.of_corresponds (Merge.overlaid_merge ok))
      have framed := framed world.files
      split
      all_goals
        rename_i delivered
        rwa [delivered] at framed
  · split <;> exact refl world.files

/-- Clearing the output directory changes nothing else. -/
theorem frame_cleared {options : Options} {world : World} :
    FileStore.Frame current (Path.Passes current options.outputDirectory)
      (options.outputDirectory.target current) world.files (world.cleared options).files :=
  preserves_clear List.prefix_rfl world.files

/-- The frame of a whole run, for every result: each of its steps keeps it. -/
theorem frame_run (module : Module) (options : Options) (world : World)
    (within : ∀ model, load (world.cleared options).files
      (existingRoots world.files module.sources) = .ok model →
      Output.AllWithin (existingRoots world.files module.sources) options.outputDirectory model) :
    FileStore.Frame world.files.current (Path.Passes world.files.current options.outputDirectory)
      (options.outputDirectory.target world.files.current) world.files
        (run module options world).2.files := by
  rw [run_eq]
  split
  · exact refl world.files
  · dsimp only
    split
    · exact frame_cleared
    · split
      · exact frame_cleared
      · split
        · exact frame_cleared
        · exact IsTrans.trans _ _ _ frame_cleared (frame_process (within _ ‹_›))

/-- Whatever a run returns, everything outside the output directory is there as before, but for
directories on the way to the output directory that were missing. -/
theorem run_frame (module : Module) (options : Options) (world : World)
    (named : world.files.root.Named)
    (inside : (existingRoots world.files module.sources).StayInside) :
    let after := (run module options world).2.files
    let output := options.outputDirectory
    after.current = world.files.current ∧
      ∀ place, ¬ output.target world.files.current <+: place →
        after.root.look place = world.files.root.look place ∨
          (world.files.root.look place = none ∧ after.root.look place = some .dir ∧
            output.Passes world.files.current place) := by
  have frame := frame_run module options world fun model loaded ↦
    allWithin_of_load (named_clear named) inside
      (fun root hroot ↦ (FileStore.look_of_isDir (isDir_of_mem_existingRoots hroot).2).2) loaded
  exact ⟨frame.1, (frame.2 rfl).look⟩

/-- A project of which one source directory is written as a way out of the other. -/
def climbingWorld : World where
  files.root := .dir [⟨"other", .dir [⟨"A.java", .file "class A {}".toUTF8⟩]⟩, ⟨"src", .dir []⟩]
  files.current := []
  cache := .empty

theorem named_climbingWorld : climbingWorld.files.root.Named := by
  refine .dir (by decide +kernel) fun e he ↦ ?_
  rcases List.mem_cons.1 he with rfl | he
  · exact .dir (by decide +kernel) (by simp [Node.Each.file])
  · obtain rfl := List.mem_singleton.1 he
    exact .dir (by simp) (by simp)

theorem run_frame_siblings :
    climbingWorld.files.root.Named ∧
      (existingRoots climbingWorld.files [⟨"src"⟩, ⟨"other"⟩]).StayInside ∧
      let after :=
        (run ⟨"p", [⟨"src"⟩, ⟨"other"⟩]⟩ ⟨⟨"common", []⟩, ⟨"out"⟩, true⟩ climbingWorld).2.files
      after.current = [] ∧ ∀ place, ¬ (Path.mk "out").target [] <+: place →
        after.root.look place = climbingWorld.files.root.look place ∨
          (climbingWorld.files.root.look place = none ∧ after.root.look place = some .dir ∧
            Path.Passes [] ⟨"out"⟩ place) := by
  have inside : (existingRoots climbingWorld.files [⟨"src"⟩, ⟨"other"⟩]).StayInside := by
    have roots :
        existingRoots climbingWorld.files [⟨"src"⟩, ⟨"other"⟩] = ⟨[⟨"src"⟩, ⟨"other"⟩]⟩ := by
      decide +kernel
    have src : (Path.mk "src").components = [.name "src"] := by decide +kernel
    have other : (Path.mk "other").components = [.name "other"] := by decide +kernel
    simp [roots, SourceRoots.StayInside, src, other]
  exact ⟨named_climbingWorld, inside, run_frame _ _ climbingWorld named_climbingWorld inside⟩

/-- A root that goes up out of one in front of it is taken for a way out of the output directory:
here a source is copied onto itself, which empties it. -/
theorem exists_source_emptied :
    let after :=
      (run ⟨"p", [⟨"src"⟩, ⟨"src/../other"⟩]⟩ ⟨⟨"common", []⟩, ⟨"out"⟩, true⟩ climbingWorld).2.files
    ¬ (Path.mk "out").target [] <+: ["other", "A.java"] ∧
      climbingWorld.files.root.look ["other", "A.java"] = some (.file "class A {}".toUTF8) ∧
      after.root.look ["other", "A.java"] = some (.file .empty) := by
  decide +kernel

end Workspace

end PlatformOverlay
