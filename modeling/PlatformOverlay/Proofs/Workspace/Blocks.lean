import PlatformOverlay.Proofs.Output.Blocks
import PlatformOverlay.Proofs.Workspace.Contents

/-!
# The imports of what a platform file has taken over

After a run that comes to the validation, the printed platform file has an import block for each of
the imports of the common file that its own are taken from (`run_brings_imports`).  This is the
common file of its first type with a counterpart: what another type of the file takes over from
another common file may lack its imports (`exists_import_missing`).

Nothing is assumed of the layout of the module. The output may lie anywhere, among the sources or
behind `..`, several source roots may have files for one place, and a file may be repaired more than
once. What is needed is that a file which has been repaired stays: each further repair keeps its
imports (`Imports.Brings.repair`), and only a copy could take them away, which is what the condition
on `Copied` files excludes. The steps are in `PlatformOverlay.Proofs.Output.Blocks`.

`Imports.Brings` asks for an import with the key of the needed one and not for this import itself.
One of the same key in the platform file comes first in the union and takes its place.
-/

namespace PlatformOverlay

open Files Java Model Output

namespace Workspace

/-- Clearing the output directory does not change the current directory. -/
theorem current_cleared (options : Options) (world : World) :
    (world.cleared options).files.current = world.files.current :=
  (@frame_cleared world.files.current options world).1

/-- A platform file that the merge touches comes out with an import block that has an import for the
key of each import in the common file of its counterparts, if they are in the file that the imports
are taken from and no other file is copied over it. -/
theorem run_brings_imports (module : Module) (options : Options) (world : World)
    (generate : options.generateCode = true)
    (validated : validates (run module options world).1 = true) :
    ∃ common model, (commonFor options (world.cleared options)).1 = .ok common ∧
      load (world.cleared options).files (existingRoots world.files module.sources) = .ok model ∧
      let roots := existingRoots world.files module.sources
      let merged := Merge.run common model
      ∀ file ∈ merged.value.files, merged.state.touches file = true →
        (∀ other, [file, other].Sublist merged.value.files → Copied common merged.state other →
          ¬ Collide roots options.outputDirectory world.files.current file other) →
        ∀ q c, common.find? q = some c → counterpartText? common file = some c.file.text →
          ∃ p text, roots.relative? file.path = some p ∧
            (run module options world).2.files.readText (options.outputDirectory.join p) =
              .ok text ∧
            Imports.Brings (Imports.importsOf c.file.text) text := by
  obtain ⟨common, model, asked, loaded, -, after, failed⟩ := exists_of_validates generate validated
  refine ⟨common, model, asked, loaded, fun file hf touched alone q c _ counterpart ↦ ?_⟩
  have ends := leaves_deliver_brought touched counterpart hf alone (world.cleared options).files
    (current_cleared options world)
  rw [after]
  generalize deliver (existingRoots world.files module.sources)
    (Merge.run common model).value common
    (Merge.run common model).state options.outputDirectory (world.cleared options).files = delivered
    at ends failed ⊢
  rcases delivered with ⟨e | written, files⟩
  · exact absurd (ends.failed e rfl) (by simp [failed e rfl])
  · obtain ⟨p, hp, shown⟩ := ends.ok written rfl
    obtain ⟨content, read, text, decoded, brings⟩ := shown.read
    refine ⟨p, text, hp, ?_, brings⟩
    simp only [FileStore.readText, read, bind, Except.bind, decoded]

/-- A platform file with two classes that take something over from two common files. -/
def twoCommonsWorld : World where
  files.root := .dir
    [⟨"common", .dir [⟨"A.java", .file "package p;\nimport a.X;\nclass A { X x; }".toUTF8⟩,
        ⟨"B.java", .file "package p;\nimport b.Y;\nclass B { Y y; }".toUTF8⟩]⟩,
      ⟨"src", .dir [⟨"P.java", .file
        "package p; @InheritMissingMembers class A {} @InheritMissingMembers class B {}".toUTF8⟩]⟩]
  files.current := []
  cache := .empty

/-- The file that a run leaves at the relative path, if there is one, has no import with the key. -/
def lacksImport (module : Module) (options : Options) (world : World) (relative : Path)
    (key : Imports.ImportKey) : Bool :=
  ((run module options world).2.files.readText (options.outputDirectory.join relative)).toOption.all
    fun text ↦ (Imports.importsOf text).all fun i ↦ decide (i.key ≠ key)

/-- The run succeeds, and the file of the second class lacks the import that the second common
file brings. -/
theorem ran_twoCommonsWorld :
    validates (run ⟨"p", [⟨"src"⟩]⟩ (optionsTo ⟨"out"⟩) twoCommonsWorld).1 = true ∧
      lacksImport ⟨"p", [⟨"src"⟩]⟩ (optionsTo ⟨"out"⟩) twoCommonsWorld ⟨"P.java"⟩ ⟨false, false,
        "Y"⟩ = true := by
  decide +kernel

/-- The class `A` of the file, which comes first, brings its import. -/
theorem run_brings_imports_first :
    let after := run ⟨"p", [⟨"src"⟩]⟩ (optionsTo ⟨"out"⟩) twoCommonsWorld
    validates after.1 = true ∧ ∃ text, after.2.files.readText ⟨"out/P.java"⟩ = .ok text ∧
      Imports.Brings [⟨"import a.X;", "a.X", "X", false⟩] text := by
  intro after
  have validated : validates after.1 = true := ran_twoCommonsWorld.1
  refine ⟨validated, ?_⟩
  obtain ⟨common, model, asked, loaded, brings⟩ :=
    run_brings_imports _ (optionsTo ⟨"out"⟩) _ rfl validated
  have facts :
      ((commonFor (optionsTo ⟨"out"⟩) (twoCommonsWorld.cleared (optionsTo ⟨"out"⟩))).1.toOption.any
        fun common ↦ (load (twoCommonsWorld.cleared (optionsTo ⟨"out"⟩)).files
            (existingRoots twoCommonsWorld.files [⟨"src"⟩])).toOption.any fun model ↦
          decide ((Merge.run common model).value.files.length = 1) &&
            (Merge.run common model).value.files.all fun file ↦
              (Merge.run common model).state.touches file &&
              (common.find? "p.A").any fun c ↦ counterpartText? common file = some c.file.text &&
                decide (Imports.importsOf c.file.text = [⟨"import a.X;", "a.X", "X", false⟩]) &&
                decide ((existingRoots twoCommonsWorld.files [⟨"src"⟩]).relative? file.path =
                  some ⟨"P.java"⟩)) =
        true := by
    decide +kernel
  rw [asked, loaded] at facts
  simp only [Except.toOption, Option.any_some, Bool.and_eq_true, decide_eq_true_eq] at facts
  obtain ⟨one, facts⟩ := facts
  obtain ⟨file, single⟩ := List.length_eq_one_iff.1 one
  have member : file ∈ (Merge.run common model).value.files := single ▸ List.mem_singleton_self file
  have facts := List.all_eq_true.1 facts file member
  simp only [Bool.and_eq_true, Option.any_eq_true, decide_eq_true_eq] at facts
  obtain ⟨touched, c, found, ⟨counterpart, imports⟩, relative⟩ := facts
  obtain ⟨p, text, hp, read, block⟩ := brings file member touched
    (fun other pair ↦ absurd (single ▸ pair).length_le (by simp)) "p.A" c found counterpart
  obtain rfl := Option.some.inj (hp.symm.trans relative)
  have target :
    (optionsTo ⟨"out"⟩).outputDirectory.join ⟨"P.java"⟩ = ⟨"out/P.java"⟩ := by decide +kernel
  exact ⟨text, target ▸ read, imports ▸ block⟩

/-- What a class that is marked for it takes over comes with an import for the key of each import in
the common file that the class has its counterpart in. -/
def ImportsComeAlong (module : Module) (options : Options) (world : World) : Prop :=
  ∀ common model, (commonFor options (world.cleared options)).1 = .ok common →
    load (world.cleared options).files (existingRoots world.files module.sources) = .ok model →
    ∀ file ∈ model.files, ∀ t ∈ file.unit.types, t.hasMark .inheritMissingMembers = true →
      ∀ c, common.find? (qualify file.package t.name) = some c → Merge.missingItems t c.decl ≠ [] →
        ∃ p text, (existingRoots world.files module.sources).relative? file.path = some p ∧
          (run module options world).2.files.readText (options.outputDirectory.join p) = .ok text ∧
          Imports.Brings (Imports.importsOf c.file.text) text

/-- A platform file that a file of another source directory is copied over. -/
def copiedOverWorld : World where
  files.root := .dir
    [⟨"common", .dir [⟨"A.java", .file "package p;\nimport a.X;\nclass A { X x; }".toUTF8⟩]⟩,
      ⟨"more", .dir [⟨"P.java", .file "package q; class Q {}".toUTF8⟩]⟩,
      ⟨"src", .dir [⟨"P.java", .file "package p; @InheritMissingMembers class A {}".toUTF8⟩]⟩]
  files.current := []
  cache := .empty

/-- The run succeeds, and the file that was copied over another one lacks the import. -/
theorem ran_copiedOverWorld :
    validates (run ⟨"p", [⟨"src"⟩, ⟨"more"⟩]⟩ (optionsTo ⟨"out"⟩) copiedOverWorld).1 = true ∧
      lacksImport ⟨"p", [⟨"src"⟩, ⟨"more"⟩]⟩ (optionsTo ⟨"out"⟩) copiedOverWorld ⟨"P.java"⟩
        ⟨false, false, "X"⟩ = true := by
  decide +kernel

/-- A class in a file with the relative path takes something over, and the common file of its
counterpart has an import with the key. -/
def takesOver (common : CommonClasses) (model : SourceModel) (roots : SourceRoots) (relative : Path)
    (key : Imports.ImportKey) : Bool :=
  model.files.any fun file ↦ decide (roots.relative? file.path = some relative) &&
    file.unit.types.any fun t ↦ t.hasMark .inheritMissingMembers &&
      (common.find? (qualify file.package t.name)).any fun c ↦
        !(Merge.missingItems t c.decl).isEmpty &&
          (Imports.importsOf c.file.text).any fun i ↦ decide (i.key = key)

/-- A run in which a type is taken from a common file and the import is missing in the output is
a counterexample. Both hypotheses can be evaluated. -/
theorem not_importsComeAlong {module : Module} {options : Options} {world : World} {relative : Path}
    {key : Imports.ImportKey}
    (takes : ((commonFor options (world.cleared options)).1.toOption.any fun common ↦
      (load (world.cleared options).files (existingRoots world.files module.sources)).toOption.any
        fun model ↦
        takesOver common model (existingRoots world.files module.sources) relative key) = true)
    (lacking : lacksImport module options world relative key = true) :
    ¬ ImportsComeAlong module options world := by
  intro h
  cases asked : (commonFor options (world.cleared options)).1 with
  | error e => simp [asked, Except.toOption] at takes
  | ok common =>
    cases loaded :
      load (world.cleared options).files (existingRoots world.files module.sources) with
    | error e => simp [asked, loaded, Except.toOption] at takes
    | ok model =>
      rw [asked, loaded] at takes
      obtain ⟨file, hf, facts⟩ := List.any_eq_true.1 (show takesOver common model
        (existingRoots world.files module.sources) relative key = true from takes)
      simp only [Bool.and_eq_true, decide_eq_true_eq, List.any_eq_true, Option.any_eq_true,
        Bool.not_eq_true', List.isEmpty_eq_false_iff] at facts
      obtain ⟨path, t, ht, marked, c, found, missing, i, hi, rfl⟩ := facts
      obtain ⟨p, text, hp, read, imports, block, brings⟩ :=
        h common model asked loaded file hf t ht marked c found missing
      obtain rfl := Option.some.inj (hp.symm.trans path)
      obtain ⟨j, hj, same⟩ := brings i hi
      rw [lacksImport, read] at lacking
      exact of_decide_eq_true (List.all_eq_true.1 lacking j (block.subset hj)) same

/-- The imports come from the common file of the first class alone, and a file that is copied to the
same place takes them away again. -/
theorem exists_import_missing :
    (validates (run ⟨"p", [⟨"src"⟩]⟩ (optionsTo ⟨"out"⟩) twoCommonsWorld).1 = true ∧
      ¬ ImportsComeAlong ⟨"p", [⟨"src"⟩]⟩ (optionsTo ⟨"out"⟩) twoCommonsWorld) ∧
    validates (run ⟨"p", [⟨"src"⟩, ⟨"more"⟩]⟩ (optionsTo ⟨"out"⟩) copiedOverWorld).1 = true ∧
      ¬ ImportsComeAlong ⟨"p", [⟨"src"⟩, ⟨"more"⟩]⟩ (optionsTo ⟨"out"⟩) copiedOverWorld := by
  obtain ⟨valid, lacking⟩ := ran_twoCommonsWorld
  obtain ⟨valid', lacking'⟩ := ran_copiedOverWorld
  refine ⟨⟨valid, not_importsComeAlong ?_ lacking⟩, valid', not_importsComeAlong ?_ lacking'⟩
  · decide +kernel
  · decide +kernel

end Workspace

end PlatformOverlay
