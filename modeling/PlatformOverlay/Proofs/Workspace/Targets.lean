import PlatformOverlay.Proofs.Output.Lockstep
import PlatformOverlay.Proofs.Workspace.Frame

/-!
# Where the files of a module go

With paths that never go up, each file of a loaded model is the content of a source and has a target
in the output directory, which its path seen from a source root gives (`exists_assigned`).
-/

namespace PlatformOverlay

open Files Model Output

/-- Neither of the places lies in the other. -/
def Files.Apart (a b : Place) : Prop := ¬ a <+: b ∧ ¬ b <+: a

instance (a b : Place) : Decidable (Apart a b) := inferInstanceAs (Decidable (_ ∧ _))

namespace Output

variable {output p : Path} {current : Place}

/-- A path that goes down by names, joined behind the output directory, leads to these names
below it. -/
theorem IsTarget.of_joinable (plain : output.Plain) (joinable : p.Joinable) (trim : p.Trim)
    (up : .up ∉ p.components) (ne : p.components ≠ []) :
    IsTarget output current (output.join p) (Path.names p.components) := by
  have components := joinable.components (a := output)
  have inner (c : Path.Component) (hc : c ∈ p.components) : c.Inner := joinable.inner_of_mem hc
  have root : .root ∉ p.components := fun h ↦ (inner _ h).1 rfl
  have absolute : (output.join p).isAbsolute = output.isAbsolute := by
    rw [Bool.eq_iff_iff, Path.isAbsolute_iff_root, Path.isAbsolute_iff_root, components,
      List.mem_append,
      or_iff_left root]
  refine ⟨?_, Path.trim_join joinable.relative trim, ?_, ?_, ?_⟩
  · rw [Path.Plain, components, List.mem_append]
    exact not_or.2 ⟨plain, up⟩
  · rw [Path.start, absolute, Path.start]
  · rw [Path.target, components, Path.walk_append, Path.walk_of_names root up]
    rfl
  · obtain ⟨c, cs, e⟩ := List.exists_cons_of_ne_nil ne
    rw [e] at inner up ⊢
    have first := inner c List.mem_cons_self
    cases c with
    | root => exact absurd rfl first.1
    | here => exact absurd rfl first.2
    | up => simp at up
    | name text => simp

end Output

namespace Workspace

variable {store : FileStore} {roots : SourceRoots} {model : SourceModel} {output : Path}

/-- The path of a file below a root continues some root, and what follows can be joined to another
path. -/
theorem SourceRoots.exists_relative (nonempty : ∀ root ∈ roots.paths, root.text ≠ "") {root : Path}
    (hr : root ∈ roots.paths) {q : Place} (valid : ∀ name ∈ q, ValidName name) :
    ∃ p, roots.relative? (root.below q) = some p ∧ p.Joinable ∧ (p.components ≠ [] → p.Trim) ∧
      ∃ first ∈ roots.paths, (root.below q).components = first.components ++ p.components := by
  have found : roots.relative? (root.below q) ≠ none := by
    intro none
    have missed := List.findSome?_eq_none_iff.1 none root hr
    simp [Path.relativeTo?, Path.components_below valid] at missed
  obtain ⟨p, hp⟩ := Option.ne_none_iff_exists'.1 found
  obtain ⟨first, hf, hfirst⟩ := List.exists_of_findSome?_eq_some hp
  obtain ⟨components, joinable⟩ := Path.relativeTo?_eq_some (nonempty first hf) hfirst
  exact ⟨p, hp, joinable, Path.trim_of_relativeTo? (nonempty first hf) hfirst, first,
    hf, components⟩

/-- The site of a run: its output directory and what is below the source roots. -/
def siteOf (store : FileStore) (roots : SourceRoots) (output : Path)
    (apart : ∀ root ∈ roots.paths, Apart (output.target store.current)
      (root.target store.current)) :
    Site where
  output := output
  current := store.current
  source q :=
    if ∃ root ∈ roots.paths, root.target store.current <+: q then
      match store.root.look q with
      | some (.file content) => some content
      | _ => none
    else none
  apart q content h := by
    split at h
    · obtain ⟨root, hr, below⟩ := ‹∃ root ∈ roots.paths, root.target store.current <+: q›
      obtain ⟨outside, above⟩ := apart root hr
      constructor
      · intro hq
        rcases List.prefix_or_prefix_of_prefix hq below with h | h
        · exact outside h
        · exact above h
      · exact fun hq ↦ above (below.trans hq)
    · cases h

/-- A file below a root is a source of the site. -/
theorem source_siteOf
    (apart : ∀ root ∈ roots.paths, Apart (output.target store.current) (root.target store.current))
    {root : Path} (hr : root ∈ roots.paths) {q : Place} (below : root.target store.current <+: q)
    {content : ByteArray} (file : store.root.look q = some (.file content)) :
    (siteOf store roots output apart).source q = some content :=
  (if_pos ⟨root, hr, below⟩).trans (by rw [file])

/-- The sources of the site are the files below the roots. -/
theorem exists_of_source_siteOf
    (apart : ∀ root ∈ roots.paths, Apart (output.target store.current) (root.target store.current))
    {q : Place} {content : ByteArray}
    (h : (siteOf store roots output apart).source q = some content) :
    store.root.look q = some (.file content) ∧ ∃ root ∈ roots.paths,
      root.target store.current <+: q := by
  unfold siteOf at h
  dsimp only at h
  split at h
  · refine ⟨?_, ‹_›⟩
    split at h
    · rename_i content' file
      rw [file, Option.some.inj h]
    · cases h
  · cases h

section assigned

variable (plain : output.Plain) (plain_roots : ∀ root ∈ roots.paths, root.Plain)
  (dirs : ∀ root ∈ roots.paths, store.isDir root = true)
  (apart : ∀ root ∈ roots.paths, Apart (output.target store.current) (root.target store.current))

include plain plain_roots dirs

/-- Every file that was loaded has a target and is a source of the site. -/
theorem exists_assigned (named : store.root.Named) (h : load store roots = .ok model)
    {file : SourceFile}
    (hf : file ∈ model.files) :
    ∃ p, (siteOf store roots output apart).Assigned roots file p := by
  obtain ⟨paths, hpaths, files⟩ := forall₂_of_load h
  obtain ⟨p, hp, path, text, hread, -⟩ := exists_of_forall₂ files hf
  obtain ⟨root, hr, node, hn, listed, -⟩ := (mem_javaFiles hpaths).1 hp
  obtain ⟨q, valid, below⟩ :=
    Node.exists_below_of_mem_filesFrom (Node.Each.get? named (FileStore.get?_of_node? hn).1) listed
  obtain ⟨content, there, -⟩ := FileStore.look_of_readText hread
  have root_dir (root : Path) (hr : root ∈ roots.paths) := FileStore.look_of_isDir (dirs root hr)
  have target : file.path.target store.current = root.target store.current ++ q := by
    rw [path, below, Path.target_below valid]
  have ne : q ≠ [] := by
    rintro rfl
    rw [below, Path.below_nil, (root_dir root hr).1] at there
    simp at there
  obtain ⟨r, hrel, joinable, trim, first, hfirst, components⟩ :=
    SourceRoots.exists_relative (fun root hr ↦ (root_dir root hr).2) hr valid
  have plain_file : (root.below q).Plain := Path.plain_below valid (plain_roots root hr)
  rw [Path.Plain, components, List.mem_append] at plain_file
  have ne' : r.components ≠ [] := by
    intro e
    rw [e, List.append_nil] at components
    have same : (root.below q).target store.current = first.target store.current :=
      congrArg (Path.walk store.current) components
    rw [below, same, (root_dir first hfirst).1] at there
    simp at there
  refine ⟨r, ?_, ?_, ?_, ?_, content, ?_⟩
  · rw [path, below, hrel]
  · exact .of_joinable plain joinable (trim ne') (not_or.1 plain_file).2 ne'
  · rw [path, below]
    exact Path.plain_below valid (plain_roots root hr)
  · rw [path, below]
    exact Path.trim_below valid ne
  · exact source_siteOf apart hr (target ▸ List.prefix_append _ _) (path ▸ there)

end assigned

end Workspace

end PlatformOverlay
