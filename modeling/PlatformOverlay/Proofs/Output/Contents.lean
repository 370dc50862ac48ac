import PlatformOverlay.Proofs.Output.Lockstep
import Mathlib.Data.List.Induction
import Mathlib.Logic.Function.Basic

/-!
# What a run leaves in the output directory

`Holds` says that the files below a place are those on record, and that there are no directories but
the ones they lie in.  Putting a file at its target adds to the record (`Holds.filed`).  So a run
that finds nothing in the output directory and does not fail leaves there what is printed or copied
for each file, and nothing else (`leaves_deliver`).

Operations are described by what they leave if they do not fail: `Leaves P Q` is a triple in which
failing is allowed, but not with a verdict on the module (`Ends`). Loops have an invariant that is
indexed by the elements done so far (`Leaves.mapM`, `Leaves.foldlM`), and the record is that index:
first the prints of the touched files (`leaves_writeEmitted`), then the output of each file in the
place of what was there.
-/

namespace PlatformOverlay

/-- Is the failure the verdict on a module of which all else has succeeded? -/
def Failure.isVerdict : Failure → Bool
  | .invalidOverwrites _ _ => true
  | _ => false

namespace Output

open Files Model Merge Workspace

/-! ## Operations that succeed -/

/-- The operation has left a store with the property, or it has failed, which is no verdict. -/
structure Ends {α : Type} (after : FileStore → Prop) (outcome : Except Failure α × FileStore) :
    Prop where
  ok : ∀ a, outcome.1 = .ok a → after outcome.2
  failed : ∀ e, outcome.1 = .error e → e.isVerdict = false

namespace Ends

variable {α : Type} {after : FileStore → Prop} {outcome : Except Failure α × FileStore}

theorem of_ok {a : α} (run : outcome.1 = .ok a) (h : after outcome.2) : Ends after outcome :=
  ⟨fun _ _ ↦ h, fun e failed ↦ by simp [run] at failed⟩

/-- A failure that is no verdict needs no store to be described. -/
theorem of_error {e : Failure} (run : outcome.1 = .error e) (other : e.isVerdict = false) :
    Ends after outcome := by
  refine ⟨fun a ok ↦ by simp [run] at ok, fun e' failed ↦ ?_⟩
  rw [run] at failed
  exact Except.error.inj failed ▸ other

/-- What a step leaves can be described more weakly. -/
theorem mono {after' : FileStore → Prop} (h : Ends after outcome)
    (sub : ∀ store, after store → after' store) :
    Ends after' outcome :=
  ⟨fun a ok ↦ sub _ (h.ok a ok), h.failed⟩

/-- If the first step fails, then so does the whole, with the same failure. -/
theorem bind {β : Type} {x : Action α} {f : α → Action β} {store : FileStore}
    {after' : FileStore → Prop}
    (hx : Ends after (x store)) (hf : ∀ a store', after store' → Ends after' (f a store')) :
    Ends after' ((x >>= f) store) := by
  obtain ⟨ok, failed⟩ := hx
  rw [run_bind]
  rcases run : x store with ⟨e | a, store'⟩ <;> rw [run] at ok failed
  · exact .of_error rfl (failed e rfl)
  · exact hf a store' (ok a rfl)

end Ends

/-- On a store with the first property, the operation leaves one with the second or fails. -/
def Leaves {α : Type} (before : FileStore → Prop) (m : Action α)
    (after : FileStore → Prop) : Prop :=
  ∀ store, before store → Ends after (m store)

namespace Leaves

variable {α β : Type} {before middle after : FileStore → Prop}

theorem pure (a : α) : Leaves before (Pure.pure a : Action α) before := fun _ h ↦ .of_ok rfl h

theorem bind {x : Action α} {f : α → Action β} (hx : Leaves before x middle)
    (hf : ∀ a, Leaves middle (f a) after) : Leaves before (x >>= f) after :=
  fun store h ↦ (hx store h).bind hf

theorem mono {m : Action α} (h : Leaves before m middle)
    (sub : ∀ store, middle store → after store) :
    Leaves before m after :=
  fun store hb ↦ (h store hb).mono sub

/-- The step can be replaced by one that is the same on the stores at hand. -/
theorem congr {m m' : Action α} (h : Leaves before m' after)
    (same : ∀ store, before store → m store = m' store) : Leaves before m after := by
  intro store hb
  rw [same store hb]
  exact h store hb

section loops

variable {bs : List β} (inv : List β → FileStore → Prop)

/-- What a loop leaves, by what its steps make of the elements that are done. -/
theorem mapM {f : β → Action α}
    (h : ∀ done b rest, bs = done ++ b :: rest → Leaves (inv done) (f b) (inv (done ++ [b]))) :
    Leaves (inv []) (bs.mapM f) (inv bs) := by
  have go (done rest : List β) (split : bs = done ++ rest) :
      Leaves (inv done) (rest.mapM f) (inv bs) := by
    induction rest generalizing done with
    | nil =>
      rw [List.append_nil] at split
      rw [List.mapM_nil, split]
      exact .pure []
    | cons b rest ih =>
      rw [List.mapM_cons]
      exact (h done b rest split).bind fun _ ↦ (ih (done ++ [b]) (by simpa using split)).bind
        fun _ ↦ .pure _
  exact go [] bs rfl

/-- A run over a list with an invariant that is indexed by the elements done so far. -/
theorem foldlM {f : α → β → Action α} (a : α)
    (h : ∀ a done b rest, bs = done ++ b :: rest → Leaves (inv done) (f a b) (inv (done ++ [b]))) :
    Leaves (inv []) (bs.foldlM f a) (inv bs) := by
  have go (a : α) (done rest : List β) (split : bs = done ++ rest) :
      Leaves (inv done) (rest.foldlM f a) (inv bs) := by
    induction rest generalizing a done with
    | nil =>
      rw [List.append_nil] at split
      rw [List.foldlM_nil, split]
      exact .pure a
    | cons b rest ih =>
      rw [List.foldlM_cons]
      exact (h a done b rest split).bind fun a ↦ ih a (done ++ [b]) (by simpa using split)
  exact go a [] bs rfl

end loops

end Leaves

/-! ## Records -/

/-- Below the place are the files on record, each at its names, and the directories they lie in. -/
structure Holds (place : Place) (record : Place → Option ByteArray) (v : View) : Prop where
  file : ∀ names content, record names = some content → v (place ++ names) = some (.file content)
  only : ∀ r ≠ [], ∀ stub, v (place ++ r) = some stub →
    ∃ names, record names ≠ none ∧ r <+: names ∧ (r = names ∨ stub = .dir)

/-- A file that is put in changes the record at its names. Directories on its way may be new,
and no file is in the way. -/
theorem Holds.filed {place names : Place} {record : Place → Option ByteArray} {v : View}
    {content : ByteArray} (h : Holds place record v)
    (clear : ∀ q, q <+: (place ++ names).dropLast → ∀ content, v q ≠ some (.file content)) :
    Holds place (Function.update record names (some content))
      (v.filed (place ++ names) content) where
  file other content' hother := by
    by_cases here : other = names
    · subst here
      rw [Function.update_self] at hother
      rw [filed_self, Option.some.inj hother]
    · rw [Function.update_of_ne here] at hother
      have there := h.file other content' hother
      have ne : place ++ other ≠ place ++ names := mt List.append_cancel_left here
      rw [View.filed, View.withFile, if_neg ne, View.withDirs,
        if_neg fun way ↦ clear _ way content' there,
        there]
  only r ne stub hs := by
    unfold View.filed View.withFile View.withDirs at hs
    split_ifs at hs with here way
    · obtain rfl := List.append_cancel_left here
      exact ⟨r, by simp, List.prefix_rfl, .inl rfl⟩
    · have below := way.trans (List.dropLast_prefix _)
      rw [List.prefix_append_right_inj] at below
      exact ⟨names, by simp, below, .inr (Option.some.inj hs).symm⟩
    · obtain ⟨other, recorded, below, kind⟩ := h.only r ne stub hs
      refine ⟨other, ?_, below, kind⟩
      by_cases here : other = names
      · simp [here]
      · rwa [Function.update_of_ne here]

section recorded

variable {files : List SourceFile} (names : SourceFile → Place)
    (content : SourceFile → Option ByteArray)
  (record : Place → Option ByteArray)

/-- The record with an entry for each of the files. -/
def recorded (files : List SourceFile) : Place → Option ByteArray :=
  files.foldl (fun record file ↦ Function.update record (names file) (content file)) record

/-- The record is built from the front, so the last file counts when two have the same names. -/
theorem recorded_concat (file : SourceFile) : recorded names content record (files ++ [file]) =
    Function.update (recorded names content record files) (names file) (content file) := by
  rw [recorded, List.foldl_append]
  rfl

variable {names content record}

theorem recorded_of_notMem {q : Place} (h : q ∉ files.map names) :
    recorded names content record files q = record q := by
  induction files using List.reverseRec with
  | nil => rfl
  | append_singleton files file ih =>
    rw [List.map_append, List.mem_append, not_or, List.map_singleton, List.mem_singleton] at h
    rw [recorded_concat, Function.update_of_ne h.2, ih h.1]

/-- With different names each file has its own entry. -/
theorem recorded_of_mem (distinct : (files.map names).Nodup) {file : SourceFile}
    (hf : file ∈ files) :
    recorded names content record files (names file) = content file := by
  obtain ⟨before, after, rfl⟩ := List.append_of_mem hf
  have split : recorded names content record (before ++ file :: after) =
      recorded names content (recorded names content record (before ++ [file])) after := by
    rw [recorded, recorded, recorded, ← List.foldl_append, List.append_assoc]
    rfl
  rw [List.map_append, List.map_cons] at distinct
  have later := (List.nodup_cons.1 (List.nodup_append.1 distinct).2.1).1
  rw [split, recorded_of_notMem later, recorded_concat, Function.update_self]

end recorded

/-! ## Steps -/

/-- The store is ready, and what is in the output directory is what is on record. -/
structure Filled (site : Site) (record : Place → Option ByteArray) (store : FileStore) : Prop where
  ready : site.Ready store
  holds : Holds site.place record store.root.look

/-- What the output has for a file: a touched file is printed, and imports are taken from the common
file; any other is as it was read. -/
def outputOf (source : Path → Option ByteArray) (common : CommonClasses) (emit : EmitSet)
    (file : SourceFile) : Option ByteArray :=
  if emit.touches file then
    (counterpartText? common file).bind fun text ↦
      (Imports.repair file.unit.print text file.package).map String.toUTF8
  else source file.path

section steps

variable {site : Site} {record : Place → Option ByteArray} {target : Path} {names : Place}

theorem fromUTF8?_toUTF8 (text : String) : String.fromUTF8? text.toUTF8 = some text := by
  simp [String.fromUTF8?, String.fromUTF8, text.isValidUTF8]

section targets

variable (ht : IsTarget site.output site.current target names) (plain : site.output.Plain)

include ht plain

theorem leaves_putFile {operation : String} {reported : Path} {content : ByteArray} :
    Leaves (Filled site record) (putFile operation reported target content)
      (Filled site (Function.update record names (some content))) := by
  rintro store ⟨ready, holds⟩
  by_cases blocked : Blocked store.root (target.target site.current).dropLast
  · obtain ⟨parent, hp, run⟩ :=
      @putFile_of_blocked _ _ _ _ _ content operation reported ready.current
      ht ready.start blocked
    exact .of_error (by rw [run]) rfl
  by_cases dir : store.root.look (target.target site.current) = some .dir
  · have yields := @yields_putFile_of_dir _ _ _ _ _ content operation reported ready.current ht
      ready.start dir
    exact .of_error yields.result rfl
  · have yields := @yields_putFile _ _ _ _ _ content operation reported ready.current ht ready.start
      blocked dir
    refine .of_ok yields.result ⟨ready_filed ht plain ready yields, ?_⟩
    rw [ht.place] at blocked
    rw [yields.look, ht.place]
    exact holds.filed fun q way content file ↦ blocked ⟨q, content, way, file⟩

/-- A printed file that is repaired is put on record as its repaired text. -/
theorem leaves_repairFile {printed common : String} {package : Option String}
    (there : record names = some printed.toUTF8) :
    Leaves (Filled site record) (repairFile target common package) fun store ↦
      Imports.repair printed common package ≠ none ∧
        Filled site (Function.update record names
          ((Imports.repair printed common package).map String.toUTF8)) store := by
  rintro store ⟨ready, holds⟩
  have file : store.root.look (target.target site.current) = some (.file printed.toUTF8) :=
    ht.place ▸ holds.file names _ there
  have run := @repairFile_eq _ _ _ _ _ printed.toUTF8 common package ready.current ht file
  rw [run, replacement, fromUTF8?_toUTF8]
  dsimp only
  cases repaired : Imports.repair printed common package with
  | none => exact .of_error rfl rfl
  | some new =>
    have yields :=
      @yields_replace _ _ _ _ _ new.toUTF8 "Fixing imports" target _ ready.current ht file
    refine .of_ok yields.result ⟨by simp, ready_withFile ht plain ready yields, ?_⟩
    have above : store.root.look (target.target site.current).dropLast = some .dir := by
      have based : store.root.Based (target.target site.current) := .of_look (by simp [file])
      exact based.resolve_left ht.ne_nil
    have same : View.withFile store.root.look (target.target site.current) new.toUTF8 =
        View.filed store.root.look (target.target site.current) new.toUTF8 := by
      rw [View.filed, withDirs_of_dir above]
    rw [ht.place] at same above
    rw [yields.look, ht.place, same]
    refine holds.filed fun q way content blocking ↦ ?_
    rw [Node.look_dir_of_above above way] at blocking
    simp at blocking

end targets

variable {roots : SourceRoots} {file : SourceFile} {p : Path} {common : CommonClasses}
    {emit : EmitSet}
  (assigned : site.Assigned roots file p) (plain : site.output.Plain)

include assigned plain

/-- Writing a touched file puts its print on record. -/
theorem leaves_writeOne : Leaves (Filled site record) (writeOne roots site.output file)
    (Filled site (Function.update record (Path.names p.components)
      (some file.unit.print.toUTF8))) := by
  rw [writeOne_eq assigned.relative]
  exact (leaves_putFile assigned.target plain).bind fun _ ↦ .pure _

/-- Copying a file puts on record what the source has, since nothing before has changed the
sources. -/
theorem leaves_copy {content : ByteArray}
    (source : site.source (file.path.target site.current) = some content) :
    Leaves (Filled site record) (copy file.path (site.output.join p))
      (Filled site (Function.update record (Path.names p.components) (some content))) := by
  have put := @leaves_putFile site record _ _ assigned.target plain "Copying file" file.path content
  refine put.congr fun store filled ↦ ?_
  exact copy_eq filled.ready.current assigned.target filled.ready.start assigned.plain assigned.trim
    (filled.ready.source _ _ source) (site.apart _ _ source).1

/-- A touched file that has been printed is repaired, and any other is copied. -/
theorem leaves_finishOne (summary : Summary) {source : Path → Option ByteArray}
    (same : site.source (file.path.target site.current) = source file.path)
    (counterpart : emit.touches file = true → ∃ text, counterpartText? common file = some text)
    (printed : emit.touches file = true →
      record (Path.names p.components) = some file.unit.print.toUTF8) :
    Leaves (Filled site record) (finishOne roots common emit site.output summary file) fun store ↦
      outputOf source common emit file ≠ none ∧
        Filled site (Function.update record (Path.names p.components)
          (outputOf source common emit file)) store := by
  have ht := assigned.target
  unfold outputOf
  by_cases touched : emit.touches file = true
  · obtain ⟨text, hc⟩ := counterpart touched
    rw [if_pos touched, hc, Option.bind_some]
    have repaired :=
      (@leaves_repairFile _ _ _ _ ht plain _ text file.package (printed touched)).bind fun _ ↦
      .pure { summary with repaired := summary.repaired + 1 }
    refine (repaired.congr fun store filled ↦ ?_).mono fun store h ↦ ⟨by simpa using h.1, h.2⟩
    · have there : store.isFile (site.output.join p) = true := by
        rw [FileStore.isFile_iff ht.plain ht.trim, filled.ready.current]
        exact ⟨_, ht.place ▸ filled.holds.file _ _ (printed touched)⟩
      exact finishOne_of_printed assigned.relative hc (by rw [touched, there]; rfl)
  · obtain ⟨content, there⟩ := assigned.source
    rw [if_neg touched, ← same, there]
    have copied := (@leaves_copy _ record _ _ _ assigned plain _ there).bind fun _ ↦
      .pure { summary with copied := summary.copied + 1 }
    refine (copied.congr fun store _ ↦ ?_).mono fun store filled ↦ ⟨by simp, filled⟩
    · exact finishOne_of_not_printed assigned.relative (.inr (by simp [touched]))

end steps

/-! ## The whole output -/

/-- Below the place is the output of each file at its names, and besides only directories that such
a file lies in. -/
structure Contains (place : Place) (files : List SourceFile) (names : SourceFile → Place)
    (output : SourceFile → Option ByteArray) (v : View) : Prop where
  file : ∀ file ∈ files, ∃ content, output file = some content ∧
    v (place ++ names file) = some (.file content)
  only : ∀ r ≠ [], ∀ stub, v (place ++ r) = some stub →
    ∃ file ∈ files, r <+: names file ∧ (r = names file ∨ stub = .dir)

/-- When all files are on record and nothing else is, the record describes the whole directory. -/
theorem Holds.contains {place : Place} {files : List SourceFile} {names : SourceFile → Place}
    {output : SourceFile → Option ByteArray} {record : Place → Option ByteArray} {v : View}
    (h : Holds place (recorded names output record files) v)
    (distinct : (files.map names).Nodup) (all : ∀ file ∈ files, output file ≠ none)
    (before : ∀ q, record q ≠ none → q ∈ files.map names) :
    Contains place files names output v where
  file file hf := by
    obtain ⟨content, hc⟩ := Option.ne_none_iff_exists'.1 (all file hf)
    exact ⟨content, hc, h.file _ _ ((recorded_of_mem distinct hf).trans hc)⟩
  only r ne stub hs := by
    obtain ⟨q, there, below, kind⟩ := h.only r ne stub hs
    have listed : q ∈ files.map names := by
      by_contra missing
      rw [recorded_of_notMem missing] at there
      exact missing (before q there)
    obtain ⟨file, hf, rfl⟩ := List.mem_map.1 listed
    exact ⟨file, hf, below, kind⟩

section deliver

variable {site : Site} {roots : SourceRoots} {common : CommonClasses} {emit : EmitSet}
    {model : SourceModel}
  {names : SourceFile → Place} {source : Path → Option ByteArray} (plain : site.output.Plain)
  (assigned : ∀ file ∈ model.files, ∃ p, site.Assigned roots file p ∧
    Path.names p.components = names file)

include plain assigned

/-- After the writing, the prints of the touched files are on record. -/
theorem leaves_writeEmitted :
    Leaves (Filled site fun _ ↦ none) (writeEmitted roots model emit site.output)
    (Filled site (recorded names (fun file ↦ some file.unit.print.toUTF8) (fun _ ↦ none)
      (model.files.filter emit.touches))) := by
  refine .mapM (fun done ↦ Filled site (recorded names (fun file ↦ some file.unit.print.toUTF8)
    (fun _ ↦ none) done)) fun done file rest split ↦ ?_
  have hf : file ∈ model.files.filter emit.touches := split ▸ by simp
  obtain ⟨p, assigned, e⟩ := assigned file (List.mem_filter.1 hf).1
  rw [recorded_concat, ← e]
  exact leaves_writeOne assigned plain

/-- Where nothing is in the output directory before, there is just the output of the files after. -/
theorem leaves_deliver (distinct : (model.files.map names).Nodup)
    (same : ∀ file ∈ model.files, site.source (file.path.target site.current) = source file.path)
    (counterpart : ∀ file ∈ model.files, emit.touches file = true →
      ∃ text, counterpartText? common file = some text) :
    Leaves (Filled site fun _ ↦ none) (deliver roots model common emit site.output) fun store ↦
      Contains site.place model.files names (outputOf source common emit) store.root.look := by
  let printed := recorded names (fun file ↦ some file.unit.print.toUTF8) (fun _ ↦ none)
    (model.files.filter emit.touches)
  have sub : (model.files.filter emit.touches).map names ⊆ model.files.map names :=
    List.map_subset _ (List.filter_subset_self _)
  -- The files that are done have their output, and of the others the touched ones are printed.
  let inv (done : List SourceFile) (store : FileStore) : Prop :=
    (∀ file ∈ done, outputOf source common emit file ≠ none) ∧
      Filled site (recorded names (outputOf source common emit) printed done) store
  have finish : Leaves (inv []) (finish roots model common emit site.output) (inv model.files) := by
    refine .foldlM inv (Summary.mk 0 0) fun summary done file rest split store ⟨outputs, filled⟩ ↦
      ?_
    have hf : file ∈ model.files := split ▸ by simp
    obtain ⟨p, assigned, e⟩ := assigned file hf
    have new : names file ∉ done.map names := by
      rw [split, List.map_append, List.map_cons] at distinct
      exact fun old ↦ (List.nodup_append.1 distinct).2.2 _ old _ List.mem_cons_self rfl
    have there (touched : emit.touches file = true) :
        recorded names (outputOf source common emit) printed done (Path.names p.components) =
          some file.unit.print.toUTF8 := by
      rw [e, recorded_of_notMem new]
      exact recorded_of_mem (distinct.sublist (List.filter_sublist.map names))
        (List.mem_filter.2 ⟨hf, touched⟩)
    have step := leaves_finishOne assigned plain summary (same file hf) (counterpart file hf) there
      store filled
    refine ⟨fun summary' h ↦ ?_, step.failed⟩
    obtain ⟨output, filled⟩ := step.ok summary' h
    refine ⟨?_, ?_⟩
    · rw [List.forall_mem_append]
      exact ⟨outputs, by simpa using output⟩
    · rw [recorded_concat, ← e]
      exact filled
  have start (store : FileStore) (filled : Filled site printed store) : inv [] store :=
    ⟨by simp, filled⟩
  have both := (leaves_writeEmitted plain assigned).bind fun written store filled ↦
    (finish.bind fun _ ↦ .pure written.length) store (start store filled)
  refine both.mono fun store ⟨outputs, filled⟩ ↦ ?_
  refine filled.holds.contains distinct outputs fun q there ↦ ?_
  by_contra missing
  exact there (recorded_of_notMem fun listed ↦ missing (sub listed))

end deliver

end Output

end PlatformOverlay
