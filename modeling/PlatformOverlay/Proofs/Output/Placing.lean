import PlatformOverlay.Proofs.Files.Effects
import PlatformOverlay.Output.Tree

/-!
# Putting files into the output directory

A file is put at a place in the output directory with the directories on the way to it
(`yields_putFile`), unless another file is on the way (`putFile_of_blocked`) or a directory is at
the place (`yields_putFile_of_dir`).  Printing and copying a file both put it at its target
(`writeOne_eq`, `copy_eq`).

`IsTarget` is what is known of such a path: it is plain, ends in a name and leads to a place below
the output directory. The steps of the output are rewritten here to operations on such paths, with
the failures that they report, so that later modules do not go back to how output is written.
-/

namespace PlatformOverlay

open Files

/-- With a file at the place and directories all the way to it. -/
def Files.View.filed (v : View) (place : Place) (content : ByteArray) : View :=
  (v.withDirs place.dropLast).withFile place content

namespace Output

open Model Merge Workspace

variable {store : FileStore} {output target : Path} {current names : Place}
    {content : ByteArray} {α : Type}

/-- The path leads to a place in the output directory, by these names. -/
structure IsTarget (output : Path) (current : Place) (target : Path) (names : Place) : Prop where
  plain : target.Plain
  trim : target.Trim
  start : target.start current = output.start current
  place : target.target current = output.target current ++ names
  below : names ≠ []

theorem IsTarget.ne_nil (h : IsTarget output current target names) :
    target.target current ≠ [] := by
  rw [h.place]
  exact List.append_ne_nil_of_right_ne_nil _ h.below

/-- A tagged operation fails with the cause under its name and path. -/
theorem tagged_eq {m : FileM α} {operation : String} {p : Path} :
    tagged operation p m store = ((m store).1.mapError (.io operation p), (m store).2) := by
  unfold tagged
  rcases m store with ⟨_ | _, _⟩ <;> rfl

theorem yields_tagged {m : FileM α} {operation : String} {p : Path}
    {r : Except IoCause α} {v : View}
    (h : Yields m store r v) :
    Yields (tagged operation p m) store (r.mapError (.io operation p)) v := by
  refine ⟨?_, ?_, ?_⟩ <;> rw [tagged_eq]
  · rw [h.result]
  · rw [h.current]
  · rw [h.look]

/-- Write a file, with the directories above it. -/
def putFile (operation : String) (reported target : Path) (content : ByteArray) : Action Unit := do
  createParent target
  tagged operation reported (writeFile target content)

section putFile

variable {operation : String} {reported : Path} (hc : store.current = current)
  (h : IsTarget output current target names)
  (start : store.root.look (output.start current) = some .dir)

include hc h start

/-- With a file on the way, the failure names the directory to be created. -/
theorem createParent_of_blocked (blocked : Blocked store.root (target.target current).dropLast) :
    ∃ parent, target.parent? = some parent ∧ createParent target store =
      (.error (.io "Creating folder" parent
      (blockCause store.root.look (target.target current).dropLast)), store) := by
  subst hc
  obtain ⟨parent, hp, plain, same, above, -, trim⟩ :=
    Path.exists_plain_parent store.current h.plain h.trim
  refine ⟨parent, hp, ?_⟩
  rw [← h.start, ← same] at start
  rw [← above] at blocked ⊢
  have trim : parent.Trim := by
    refine trim.resolve_right fun e ↦ ?_
    rw [e, ← same] at blocked
    obtain ⟨content, file⟩ := (blocked_iff (.of_look (by simp [start]))).1 blocked
    simp [start] at file
  rw [createParent, hp]
  dsimp only
  rw [tagged_eq, createDirs_of_blocked plain trim start blocked]
  rfl

/-- If no file stands on the way, the directories down to the parent are there afterwards. -/
theorem yields_createParent (clear : ¬ Blocked store.root (target.target current).dropLast) :
    Yields (createParent target) store (.ok ())
      (View.withDirs store.root.look (target.target current).dropLast) := by
  subst hc
  obtain ⟨parent, hp, plain, same, above, -, trim⟩ :=
    Path.exists_plain_parent store.current h.plain h.trim
  rw [← h.start, ← same] at start
  rw [← above] at clear ⊢
  rw [createParent, hp]
  refine yields_tagged (r := .ok ()) ?_
  rcases trim with trim | here
  · exact yields_createDirs plain trim start clear
  · rw [← same] at here
    rw [here, withDirs_of_dir start]
    by_cases empty : parent.text = ""
    · refine .of_eq ?_
      rw [createDirs, Path.components_eq_nil.2 empty]
      rfl
    · exact .of_eq (createDirs_of_dir plain empty (here ▸ start))

/-- A file on the way is reported before anything is written. -/
theorem putFile_of_blocked (blocked : Blocked store.root (target.target current).dropLast) :
    ∃ parent, target.parent? = some parent ∧ putFile operation reported target content store =
      (.error (.io "Creating folder" parent
        (blockCause store.root.look (target.target current).dropLast)), store) := by
  subst hc
  obtain ⟨parent, hp, run⟩ := createParent_of_blocked rfl h start blocked
  refine ⟨parent, hp, ?_⟩
  rw [putFile, run_bind, run]

/-- A directory at the target is reported, and nothing has changed: its parents were there. -/
theorem yields_putFile_of_dir (dir : store.root.look (target.target current) = some .dir) :
    Yields (putFile operation reported target content) store
      (.error (.io operation reported .isADirectory)) store.root.look := by
  subst hc
  have above : store.root.look (target.target store.current).dropLast = some .dir :=
    Node.look_dir_of_above dir (List.dropLast_prefix _)
  have clear : ¬ Blocked store.root (target.target store.current).dropLast := by
    intro blocked
    obtain ⟨content, file⟩ := (blocked_iff (.of_look (by simp [above]))).1 blocked
    simp [above] at file
  have first := yields_createParent rfl h start clear
  rw [withDirs_of_dir above] at first
  refine first.bind fun store' current look ↦ ?_
  rw [← look]
  refine yields_tagged (r := .error .isADirectory) (.of_eq (writeFile_of_dir h.plain h.trim ?_))
  rw [current, look, dir]

/-- In all other cases the file is at its target, with the directories above it. -/
theorem yields_putFile (clear : ¬ Blocked store.root (target.target current).dropLast)
    (not_dir : store.root.look (target.target current) ≠ some .dir) :
    Yields (putFile operation reported target content) store (.ok ())
      (View.filed store.root.look (target.target current) content) := by
  subst hc
  refine (yields_createParent rfl h start clear).bind fun store' current look ↦ ?_
  unfold View.filed
  rw [← look, ← current]
  rw [← current] at not_dir look
  refine yields_tagged (r := .ok ()) (yields_writeFile h.plain h.trim ?_ ?_)
  · rw [look, View.withDirs, if_pos List.prefix_rfl]
  · rw [look, View.withDirs, if_neg (not_prefix_dropLast (current ▸ h.ne_nil))]
    exact not_dir

end putFile

/-! ## Printing, copying and repairing -/

/-- A file with a path below the roots is printed at that path below the output directory. -/
theorem writeOne_eq {roots : SourceRoots} {file : SourceFile} {p : Path}
    (hp : roots.relative? file.path = some p) : writeOne roots output file = (do
      putFile "Writing source" (output.join p) (output.join p) file.unit.print.toUTF8
      return output.join p) := by
  unfold writeOne destination putFile
  rw [hp]
  simp only [pure_bind, bind_assoc]

section finishOne

variable {roots : SourceRoots} {file : SourceFile} {p : Path} {common : CommonClasses}
    {emit : EmitSet}
  {summary : Summary} (hp : roots.relative? file.path = some p)

include hp

/-- A file is repaired if it has a counterpart and has been printed, and copied in all other
cases. -/
theorem finishOne_eq : finishOne roots common emit output summary file store =
    (match counterpartText? common file, emit.touches file && store.isFile (output.join p) with
      | some text, true => (do
        repairFile (output.join p) text file.package
        return { summary with repaired := summary.repaired + 1 } : Action Summary)
      | _, _ => do
        copy file.path (output.join p)
        return { summary with copied := summary.copied + 1 }) store := by
  unfold finishOne destination
  rw [hp]
  simp only [pure_bind]
  -- The store is read and stays as it is.
  exact run_bind get _ store

theorem finishOne_of_printed {text : String}
    (counterpart : counterpartText? common file = some text)
    (printed : (emit.touches file && store.isFile (output.join p)) = true) :
    finishOne roots common emit output summary file store = (do
      repairFile (output.join p) text file.package
      return { summary with repaired := summary.repaired + 1 } : Action Summary) store := by
  rw [finishOne_eq hp, counterpart, printed]

theorem finishOne_of_not_printed (h : (counterpartText? common file = none) ∨
      (emit.touches file && store.isFile (output.join p)) = false) :
    finishOne roots common emit output summary file store = (do
      copy file.path (output.join p)
      return { summary with copied := summary.copied + 1 } : Action Summary) store := by
  rw [finishOne_eq hp]
  rcases h with h | h
  · rw [h]
  · rw [h]
    cases counterpartText? common file <;> rfl

end finishOne

section copy

variable {source : Path} (hc : store.current = current) (h : IsTarget output current target names)
  (start : store.root.look (output.start current) = some .dir)

include hc h start

/-- A source file is copied by putting its content at the target. -/
theorem copy_eq (plain : source.Plain) (trim : source.Trim)
    (file : store.root.look (source.target current) = some (.file content))
    (other : ¬ output.target current <+: source.target current) :
    copy source target store = putFile "Copying file" source target content store := by
  subst hc
  rw [copy, putFile, run_bind, run_bind]
  by_cases blocked : Blocked store.root (target.target store.current).dropLast
  · obtain ⟨_, _, run⟩ := createParent_of_blocked rfl h start blocked
    rw [run]
  · obtain ⟨result, current, look⟩ := yields_createParent rfl h start blocked
    rcases created : createParent target store with ⟨r, store'⟩
    rw [created] at result current look
    obtain rfl : r = .ok () := result
    replace current : store'.current = store.current := current
    dsimp only at look ⊢
    have parent : store'.root.look (target.target store'.current).dropLast = some .dir := by
      rw [look, current, View.withDirs, if_pos List.prefix_rfl]
    have file' : store'.root.look (source.target store'.current) = some (.file content) := by
      rw [look, current, View.withDirs, if_neg fun above ↦ blocked ⟨_, content, above, file⟩, file]
    have ne : target.target store'.current ≠ source.target store'.current := by
      rw [current, h.place]
      exact fun e ↦ other (e ▸ List.prefix_append _ _)
    rw [tagged_eq, tagged_eq, copyFile_of_file plain trim file'
      (FileStore.place_of_parent h.plain h.trim parent) ne]

end copy

/-- What a printed file with the content is replaced by. -/
def replacement (target : Path) (content : ByteArray) (common : String) (package : Option String) :
    Except Failure String :=
  match String.fromUTF8? content with
  | none => .error (.io "Fixing imports" target .notText)
  | some text =>
    match Imports.repair text common package with
    | none => .error (.malformedSource target)
    | some repaired => .ok repaired

/-- A file that is there is read and then replaced. -/
theorem repairFile_eq {common : String} {package : Option String} (hc : store.current = current)
    (h : IsTarget output current target names)
    (file : store.root.look (target.target current) = some (.file content)) :
    repairFile target common package store =
      match replacement target content common package with
      | .error e => (.error e, store)
      | .ok repaired =>
        tagged "Fixing imports" target (writeFile target repaired.toUTF8) store := by
  subst hc
  have read := FileStore.read_of_file h.plain h.trim (Node.look_eq_file.1 file)
  rw [repairFile, run_bind, tagged_eq, run_ask, FileStore.readText, read, replacement]
  simp only [bind, Except.bind]
  cases String.fromUTF8? content with
  | none => rfl
  | some text =>
    dsimp only [Except.mapError]
    cases Imports.repair text common package <;> rfl

/-- Writing over a file that is there changes this file only. -/
theorem yields_replace {operation : String} {reported : Path} {replaced : ByteArray}
    (hc : store.current = current) (h : IsTarget output current target names)
    (file : store.root.look (target.target current) = some (.file replaced)) :
    Yields (tagged operation reported (writeFile target content)) store (.ok ())
      (View.withFile store.root.look (target.target current) content) := by
  subst hc
  refine yields_tagged (r := .ok ()) (yields_writeFile h.plain h.trim ?_ (by simp [file]))
  have based : store.root.Based (target.target store.current) := .of_look (by simp [file])
  exact based.resolve_left h.ne_nil

end Output

end PlatformOverlay
