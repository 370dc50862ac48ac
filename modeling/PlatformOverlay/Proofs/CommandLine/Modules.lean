import Mathlib.Data.List.Pairwise
import PlatformOverlay.CommandLine.Program
import PlatformOverlay.Proofs.Workspace.Rerun

/-!
# Modules do not influence each other

The modules of a project run one after another on one tree, with one cache of common classes.  Where
no output directory lies in another one or in a source directory, or the other way round, each of
them gives the result that it gives alone, and leaves the output that it leaves alone, in whichever
order and how often they run (`runModules_as_alone`).

`Reached` is the invariant of the sequence. When some modules have run,

* the sources are as they were, and on the way to an output directory there are at most directories
  that were missing;
* the output of each of them is what its run alone leaves, and the others are as they were at first;
* the cache is empty or holds the common classes that every run would load.

`Reached.step` takes one more module, whether it has run before or not, and is `Workspace.run_again`
together with the frame of a run. Failures are no exception: a module that fails does so alone as
well, and what it has written until then is the same.
-/

namespace PlatformOverlay.CommandLine

open Config Files Model Workspace

variable {p : ProjectSettings} {store : FileStore} {m : ModuleSettings}
    {done ms : List ModuleSettings}
  {world : World}

/-- Where a module puts its output. -/
def outputPlace (p : ProjectSettings) (store : FileStore) (m : ModuleSettings) : Place :=
  (p.options m).outputDirectory.target store.current

/-- The run of a module alone. -/
def alone (p : ProjectSettings) (store : FileStore) (m : ModuleSettings) :
    Except Failure Outcome × World :=
  p.runModule m ⟨store, .empty⟩

/-- No path goes up, and the output directories lie apart from each other and from all sources. -/
structure Separate (p : ProjectSettings) (store : FileStore) : Prop where
  wellFormed : store.root.WellFormed
  here : store.root.look store.current = some .dir
  plain : ∀ path ∈ p.directories, path.Plain
  output : p.allModules.Pairwise fun m m' ↦ Apart (outputPlace p store m) (outputPlace p store m')
  source : ∀ m ∈ p.allModules, ∀ m' ∈ p.allModules, ∀ path ∈ m'.sources,
    Apart (outputPlace p store m) (path.target store.current)

namespace Separate

/-- Each module of the project is isolated in the sense of a run alone. -/
theorem isolated (h : Separate p store) (hm : m ∈ p.allModules) :
    Isolated store m.module (p.options m) := by
  have from_module {path : Path} (hp : path ∈ m.module.sources ++ (p.options m).common.sources) :
      ∃ m' ∈ p.allModules, path ∈ m'.sources := by
    rcases List.mem_append.1 hp with hp | hp
    · exact ⟨m, hm, hp⟩
    · exact ⟨p.common, List.mem_cons_self, hp⟩
  refine ⟨h.wellFormed, h.here, h.plain _ ?_, fun path hp ↦ h.plain _ ?_, fun path hp ↦ ?_⟩
  · exact List.mem_flatMap.2 ⟨m, hm, List.mem_append_right _ List.mem_cons_self⟩
  · obtain ⟨m', hm', hp⟩ := from_module hp
    exact List.mem_flatMap.2 ⟨m', hm', List.mem_append_left _ hp⟩
  · obtain ⟨m', hm', hp⟩ := from_module hp
    exact h.source m hm m' hm' path hp

/-- Different modules have output directories beside each other. -/
theorem apart (h : Separate p store) {m m' : ModuleSettings} (hm : m ∈ p.allModules)
    (hm' : m' ∈ p.allModules) (ne : m ≠ m') :
    Apart (outputPlace p store m) (outputPlace p store m') := by
  have : Std.Symm fun m m' ↦ Apart (outputPlace p store m) (outputPlace p store m') :=
    ⟨fun _ _ apart ↦ ⟨apart.2, apart.1⟩⟩
  exact h.output.forall hm hm' ne

end Separate

/-- What holds when some modules have run. -/
structure Reached (p : ProjectSettings) (store : FileStore) (done : List ModuleSettings)
    (world : World) :
    Prop where
  current : world.files.current = store.current
  cache : ∀ common, world.cache.loaded = some common → commonOf store p.common.module = .ok common
  source : ∀ m ∈ p.allModules, ∀ path ∈ m.sources,
    world.files.root.get? (path.target store.current) = store.root.get? (path.target store.current)
  above : ∀ m ∈ p.allModules, ∀ q, q <+: outputPlace p store m → q ≠ outputPlace p store m →
    world.files.root.look q = store.root.look q ∨
      (store.root.look q = none ∧ world.files.root.look q = some .dir)
  todo : ∀ m ∈ p.allModules, m ∉ done → ∀ q, outputPlace p store m <+: q →
    world.files.root.look q = store.root.look q
  done : ∀ m ∈ p.allModules, m ∈ done → ∀ q, outputPlace p store m <+: q →
    world.files.root.look q = (alone p store m).2.files.root.look q

namespace Reached

/-- Before the first module nothing has been written. -/
theorem start : Reached p store [] ⟨store, .empty⟩ where
  current := rfl
  cache := by simp [CommonCache.empty]
  source _ _ _ _ := rfl
  above _ _ _ _ _ := .inl rfl
  todo _ _ _ _ _ := rfl
  done := by simp

/-- After any modules, the store is one that a run can share with them. -/
theorem shared (h : Reached p store done world) (hm : m ∈ p.allModules) :
    Shared store m.module (p.options m) world where
  current := h.current
  cache := h.cache
  source path hp := by
    rcases List.mem_append.1 hp with hp | hp
    · exact h.source m hm path hp
    · exact h.source p.common List.mem_cons_self path hp
  above := h.above m hm
  inside := by
    by_cases old : m ∈ done
    · exact .inr (h.done m hm old)
    · exact .inl (h.todo m hm old)

section step

variable (h : Reached p store done world) (separate : Separate p store) (hm : m ∈ p.allModules)

include h separate hm

/-- Only directories on the way to its output directory are new outside it when a module runs. -/
theorem frame :
    FileStore.Frame store.current (Path.Passes store.current (p.options m).outputDirectory)
      (outputPlace p store m) world.files (p.runModule m world).2.files :=
  (h.shared hm).frame (separate.isolated hm)

/-- What lies in the output directory of another module stays as it is. -/
theorem look_runModule {m' : ModuleSettings} (hm' : m' ∈ p.allModules) (ne : m' ≠ m) {q : Place}
    (hq : outputPlace p store m' <+: q) :
    (p.runModule m world).2.files.root.look q = world.files.root.look q := by
  have apart := separate.apart hm' hm ne
  have not_below : ¬ outputPlace p store m <+: q := by
    intro below
    rcases List.prefix_or_prefix_of_prefix hq below with h | h
    · exact apart.1 h
    · exact apart.2 h
  refine (((h.frame separate hm).2 h.current).look q not_below).resolve_right ?_
  rintro ⟨-, -, passes⟩
  exact apart.1 (hq.trans (passes.above (separate.isolated hm).output))

/-- One more module runs as it does alone. -/
theorem step : (p.runModule m world).1 = (alone p store m).1 ∧
    Reached p store (m :: done) (p.runModule m world).2 := by
  have isolated := separate.isolated hm
  obtain ⟨repeats, cache⟩ := run_again isolated (h.shared hm)
  obtain ⟨current, frame⟩ := h.frame separate hm
  have frame := frame h.current
  refine ⟨repeats.result, current.trans h.current, cache, ?_, ?_, ?_, ?_⟩
  · intro m' hm' path hp
    have apart := separate.source m hm m' hm' path hp
    refine (frame.same _ apart.1 apart.2 fun t made above ↦ ?_).trans (h.source m' hm' path hp)
    exact apart.2 (above.trans (made.above isolated.output))
  · intro m' hm' q hq ne
    have not_below : ¬ outputPlace p store m <+: q := by
      intro below
      by_cases same : m' = m
      · subst same
        exact ne (hq.eq_of_length (le_antisymm hq.length_le below.length_le))
      · exact (separate.apart hm' hm same).2 (below.trans hq)
    rcases frame.look q not_below with same | ⟨none, dir, -⟩
    · rw [same]
      exact h.above m' hm' q hq ne
    · rcases h.above m' hm' q hq ne with same | ⟨none', -⟩
      · exact .inr ⟨same ▸ none, dir⟩
      · exact .inr ⟨none', dir⟩
  · intro m' hm' new q hq
    obtain ⟨ne, new⟩ := not_or.1 (mt List.mem_cons.2 new)
    rw [h.look_runModule separate hm hm' ne hq]
    exact h.todo m' hm' new q hq
  · intro m' hm' old q hq
    by_cases same : m' = m
    · subst same
      exact repeats.inside q hq
    · rw [h.look_runModule separate hm hm' same hq]
      exact h.done m' hm' ((List.mem_cons.1 old).resolve_left same) q hq

end step

/-- Modules that run one after another run as they do alone. -/
theorem runs (h : Reached p store done world) (separate : Separate p store)
    (known : ms ⊆ p.allModules) :
    (runModules p ms world).1 = ms.map (fun m ↦ ⟨m.name, (alone p store m).1⟩) ∧
      Reached p store (ms.reverse ++ done) (runModules p ms world).2 := by
  induction ms generalizing done world with
  | nil => exact ⟨rfl, h⟩
  | cons m ms ih =>
    obtain ⟨hm, known⟩ := List.cons_subset.1 known
    obtain ⟨result, next⟩ := h.step separate hm
    obtain ⟨results, after⟩ := ih next known
    rw [List.reverse_cons, List.append_assoc, List.singleton_append]
    refine ⟨?_, after⟩
    rw [List.map_cons, ← result, ← results]
    rfl

end Reached

/-- Whichever modules of a project run one after another, each gives the result that it gives alone
on the tree at first, and in the end its output directory is as behind that run. -/
theorem runModules_as_alone (separate : Separate p store) (known : ms ⊆ p.allModules) :
    let ran := runModules p ms ⟨store, .empty⟩
    ran.1 = ms.map (fun m ↦ ⟨m.name, (alone p store m).1⟩) ∧
      ∀ m ∈ ms, ∀ place, outputPlace p store m <+: place →
        ran.2.files.root.look place = (alone p store m).2.files.root.look place := by
  obtain ⟨results, reached⟩ := Reached.start.runs separate known
  refine ⟨results, fun m hm ↦ reached.done m (known hm) ?_⟩
  exact List.mem_append_left _ (List.mem_reverse.2 hm)

/-- A common module and two others, one of which has no sources. -/
def twoPlatforms : ProjectSettings where
  generateCode := true
  outputRoot := ⟨"out"⟩
  common := ⟨"common", [⟨"common"⟩], none⟩
  modules := [⟨"fabric", [⟨"fabric"⟩], none⟩, ⟨"forge", [⟨"forge"⟩], some ⟨"out.forge"⟩⟩]

def twoPlatformsStore : FileStore where
  root := .dir [⟨"common", .dir []⟩, ⟨"fabric", .dir [⟨"A.java", .file "class A {}".toUTF8⟩]⟩]
  current := []

/-- The directories of the example have entries with different valid names. -/
theorem wellFormed_twoPlatformsStore : twoPlatformsStore.root.WellFormed := by
  refine .dir (by decide +kernel) fun e he ↦ ?_
  rcases List.mem_cons.1 he with rfl | he
  · exact .dir (by simp) (by simp)
  · obtain rfl := List.mem_singleton.1 he
    exact .dir (by decide +kernel) (by simp [Node.Each.file])

theorem runModules_as_alone_twice :
    Separate twoPlatforms twoPlatformsStore ∧
      (let ms := twoPlatforms.modules ++ twoPlatforms.allModules
      ms ⊆ twoPlatforms.allModules ∧
        let ran := runModules twoPlatforms ms ⟨twoPlatformsStore, .empty⟩
        ran.1 = ms.map (fun m ↦ ⟨m.name, (alone twoPlatforms twoPlatformsStore m).1⟩) ∧
          ∀ m ∈ ms, ∀ place, outputPlace twoPlatforms twoPlatformsStore m <+: place →
            ran.2.files.root.look place =
              (alone twoPlatforms twoPlatformsStore m).2.files.root.look place) := by
  have separate : Separate twoPlatforms twoPlatformsStore :=
    ⟨wellFormed_twoPlatformsStore, rfl, by decide +kernel, by decide +kernel, by decide +kernel⟩
  have known : twoPlatforms.modules ++ twoPlatforms.allModules ⊆ twoPlatforms.allModules :=
    List.append_subset.2 ⟨List.subset_cons_self _ _, List.Subset.refl _⟩
  exact ⟨separate, known, runModules_as_alone separate known⟩

end PlatformOverlay.CommandLine
