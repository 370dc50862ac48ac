import PlatformOverlay.Proofs.Files.Frame
import PlatformOverlay.Proofs.Imports.Header
import PlatformOverlay.Proofs.Output.Contents

/-!
# Import blocks in the output

Wherever the output directory lies, what has been put at a path stays there until something else is
put at the place that this path leads to (`Keeps`).

Different paths may lead to one place here, so a file is known by a path that shows it (`Shows`) and
every step is asked what it does to that. A touched file is shown as it was printed
(`ends_writeOne`), then as its repair (`ends_finishOne_brought`), which has the imports of its
common file, and repairing whatever comes to the same place later takes none of them away
(`Brought.repair`).
-/

namespace PlatformOverlay.Output

open Files Model Merge Workspace

/-! ## What an operation keeps -/

/-- Seen from `current`, nothing goes away, and all stays as it is but a file at the place `out`. -/
def Keeps (current out : Place) (before after : FileStore) : Prop :=
  after.current = before.current ∧ (before.current = current →
    Grows before.root.look after.root.look ∧
      ∀ q ≠ out, ∀ stub, before.root.look q = some stub → after.root.look q = some stub)

/-- What is put at `out` stays at `out`, so two steps that keep everything else do so together. -/
theorem Keeps.trans {current out : Place} {before middle after : FileStore}
    (h : Keeps current out before middle) (h' : Keeps current out middle after) :
    Keeps current out before after := by
  refine ⟨h'.1.trans h.1, fun e ↦ ?_⟩
  obtain ⟨grows, same⟩ := h.2 e
  obtain ⟨grows', same'⟩ := h'.2 (h.1.trans e)
  exact ⟨grows.trans grows', fun q ne stub hq ↦ same' q ne stub (same q ne stub hq)⟩

instance (current out : Place) : IsPreorder FileStore (Keeps current out) where
  refl _ := ⟨rfl, fun _ ↦ ⟨.refl _, fun _ _ _ h ↦ h⟩⟩
  trans _ _ _ := Keeps.trans

/-- What keeps everything outside of any place keeps everything. -/
theorem keeps_of_frame {current out : Place} {before after : FileStore}
    (h : ∀ other, FileStore.Frame current (fun _ ↦ True) other before after) :
    Keeps current out before after := by
  refine ⟨(h []).1, fun here ↦ ?_⟩
  have kept (q : Place) (stub : Stub) (hq : before.root.look q = some stub) :
      after.root.look q = some stub := by
    have apart : ¬ q ++ ["."] <+: q := fun h ↦ absurd h.length_le (by simp)
    rcases ((h (q ++ ["."])).2 here).look q apart with same | ⟨none, -, -⟩
    · rw [same, hq]
    · rw [hq] at none
      cases none
  exact ⟨fun q stub hq ↦ ⟨stub, kept q stub hq, Iff.rfl⟩, fun q _ stub hq ↦ kept q stub hq⟩

/-- Directories are only created where nothing is. -/
theorem preserves_createDirs_keeps (current out : Place) (p : Path) :
    Preserves (Keeps current out) (createDirs p) :=
  fun store ↦ keeps_of_frame fun _ ↦ preserves_createDirs (fun _ _ _ ↦ .inl trivial) store

section write

variable {store : FileStore} {p : Path} {content : ByteArray}

/-- The file is written at the place of the path, or nothing is done. -/
theorem writeFile_cases (store : FileStore) (p : Path) (content : ByteArray) :
    (∃ cause, writeFile p content store = (.error cause, store)) ∨
      store.place p = .ok (p.target store.current) ∧
      store.root.look (p.target store.current) ≠ some .dir ∧
        (writeFile p content store).2.current = store.current ∧
        (writeFile p content store).2.root.look =
          View.withFile store.root.look (p.target store.current) content := by
  rw [writeFile_eq]
  split
  next cause _ => exact .inl ⟨cause, rfl⟩
  next place hplace =>
    obtain ⟨rfl, -⟩ := FileStore.place_eq_ok hplace
    have based := FileStore.based_of_place hplace
    split
    · exact .inl ⟨_, rfl⟩
    all_goals
      next here =>
        have notDir : store.root.look (p.target store.current) ≠ some .dir := by
          simp [Node.look, here, Node.stub]
        refine .inr ⟨hplace, notDir, rfl, funext fun q ↦ ?_⟩
        refine Node.look_put_leaf based (fun r ne ↦ ?_) (Node.look_below_eq_none notDir)
        obtain ⟨name, r, rfl⟩ := List.exists_cons_of_ne_nil ne
        rfl

/-- A write changes the file at its own place only. -/
theorem preserves_writeFile_keeps (current : Place) (p : Path) (content : ByteArray) :
    Preserves (Keeps current (p.target current)) (writeFile p content) := by
  intro store
  rcases writeFile_cases store p content with ⟨cause, run⟩ | ⟨-, notDir, here, look⟩
  · rw [run]
    exact refl store
  · refine ⟨here, ?_⟩
    rintro rfl
    rw [look]
    refine ⟨fun q stub hq ↦ ?_, fun q ne stub hq ↦ ?_⟩
    · by_cases there : q = p.target store.current
      · subst there
        refine ⟨.file content, if_pos rfl, ?_⟩
        cases stub with
        | file => simp
        | dir => exact absurd hq notDir
      · exact ⟨stub, (if_neg there).trans hq, Iff.rfl⟩
    · exact (if_neg ne).trans hq

/-- A copy changes the file at the place of its target only. -/
theorem preserves_copyFile_keeps (current : Place) (source target : Path) :
    Preserves (Keeps current (target.target current)) (copyFile source target) := by
  intro store
  rw [copyFile_eq]
  split
  · exact preserves_writeFile_keeps current target _ store
  all_goals exact refl store

end write

/-! ## Files that are shown by a path -/

/-- The path leads to a file with a content of the kind. -/
def Shows (target : Path) (kind : ByteArray → Prop) (store : FileStore) : Prop :=
  store.place target = .ok (target.target store.current) ∧
    ∃ content, store.root.look (target.target store.current) = some (.file content) ∧ kind content

section shows

variable {store : FileStore} {target : Path} {kind : ByteArray → Prop}

theorem Shows.mono {kind' : ByteArray → Prop} (h : Shows target kind store)
    (sub : ∀ content, kind content → kind' content) : Shows target kind' store :=
  ⟨h.1, h.2.imp fun _ ⟨there, hk⟩ ↦ ⟨there, sub _ hk⟩⟩

theorem Shows.isFile (h : Shows target kind store) : store.isFile target = true := by
  obtain ⟨place, content, there, -⟩ := h
  rw [FileStore.isFile, FileStore.node?_of_place place (Node.look_eq_file.1 there)]
  rfl

theorem Shows.read (h : Shows target kind store) :
    ∃ content, store.read target = .ok content ∧ kind content := by
  obtain ⟨place, content, there, hk⟩ := h
  refine ⟨content, ?_, hk⟩
  rw [FileStore.read, FileStore.node?_of_place place (Node.look_eq_file.1 there)]
  rfl

/-- A write that succeeds shows its content. -/
theorem shows_writeFile {content : ByteArray} {a : Unit}
    (h : (writeFile target content store).1 = .ok a) :
    Shows target (· = content) (writeFile target content store).2 := by
  rcases writeFile_cases store target content with ⟨cause, run⟩ | ⟨place, notDir, here, look⟩
  · rw [run] at h
    cases h
  · have there : (writeFile target content store).2.root.look (target.target store.current) =
        some (.file content) := by rw [look]; exact if_pos rfl
    refine ⟨?_, content, by rw [here, there], rfl⟩
    rw [here]
    refine FileStore.place_of_dirs place here fun q dir ↦ ?_
    rw [look, View.withFile, if_neg fun e : q = target.target store.current ↦ notDir (e ▸ dir), dir]

/-- Another path to the same place shows the same, if nothing on its way stops it. -/
theorem Shows.of_same_place {other : Path} (h : Shows target kind store)
    (place : store.place other = .ok (other.target store.current))
    (same : other.target store.current = target.target store.current) : Shows other kind store :=
  ⟨place, same ▸ h.2⟩

/-- What is shown stays if nothing is written to the place, or if the content does not matter. -/
theorem Shows.of_keeps {after : FileStore} {out : Place} (h : Shows target kind store)
    (keeps : Keeps store.current out store after)
    (other : out ≠ target.target store.current ∨ ∀ content, kind content) :
    Shows target kind after := by
  obtain ⟨place, content, there, hk⟩ := h
  obtain ⟨here, kept⟩ := keeps
  obtain ⟨grows, same⟩ := kept rfl
  have place' := FileStore.place_of_dirs place here fun q ↦ grows.dir
  rw [← here] at place'
  rcases other with ne | all
  · refine ⟨place', content, ?_, hk⟩
    rw [here]
    exact same _ ne.symm _ there
  · obtain ⟨content', there'⟩ := grows.file there
    exact ⟨place', content', here ▸ there', all content'⟩

end shows

/-! ## Steps -/

section steps

variable {store : FileStore} {α : Type}

/-- An operation of the store fails with its cause, which is no verdict. -/
theorem ends_tagged {m : FileM α} {operation : String} {p : Path} {after : FileStore → Prop}
    (h : ∀ a, (m store).1 = .ok a → after (m store).2) :
    Ends after (tagged operation p m store) := by
  rw [tagged_eq]
  cases run : (m store).1 with
  | ok a => exact .of_ok rfl (h a run)
  | error cause => exact .of_error rfl rfl

/-- Creating the directories above a target keeps every file. -/
theorem ends_createParent (store : FileStore) (target : Path) (current out : Place) :
    Ends (Keeps current out store) (createParent target store) := by
  unfold createParent
  cases target.parent? with
  | some parent => exact ends_tagged fun _ _ ↦ preserves_createDirs_keeps current out parent store
  | none => exact .of_ok rfl (refl store)

/-- A file that has been put is shown, and other files stay. -/
theorem ends_putFile (store : FileStore) (target : Path) (operation : String) (reported : Path)
    (content : ByteArray) :
    Ends (fun after ↦ Keeps store.current (target.target store.current) store after ∧
        Shows target (· = content) after)
      (putFile operation reported target content store) := by
  refine (ends_createParent store target store.current (target.target store.current)).bind
    fun _ store' keeps ↦ ends_tagged fun a done ↦ ⟨?_, shows_writeFile done⟩
  exact keeps.trans (preserves_writeFile_keeps store.current target content store')

theorem ends_copy (store : FileStore) (source target : Path) :
    Ends (Keeps store.current (target.target store.current) store) (copy source target store) := by
  refine (ends_createParent store target store.current (target.target store.current)).bind
    fun _ store' keeps ↦ ends_tagged fun _ _ ↦ ?_
  exact keeps.trans (preserves_copyFile_keeps store.current source target store')

/-- The file that is shown is replaced by its repair. -/
theorem ends_repairFile (store : FileStore) (target : Path) (common : String)
    (package : Option String) :
    Ends (fun after ↦ Keeps store.current (target.target store.current) store after ∧
        ∃ old fixed, store.readText target = .ok old ∧
          Imports.repair old common package = some fixed ∧
          Shows target (· = fixed.toUTF8) after)
      (repairFile target common package store) := by
  rw [repairFile, run_bind, tagged_eq, run_ask]
  cases read : store.readText target with
  | error cause => exact .of_error rfl rfl
  | ok old =>
    dsimp only [Except.mapError]
    cases repaired : Imports.repair old common package with
    | none => exact .of_error rfl rfl
    | some fixed =>
      exact ends_tagged fun a done ↦ ⟨preserves_writeFile_keeps store.current target _ store,
        old, fixed, rfl, repaired, shows_writeFile done⟩

variable {roots : SourceRoots} {output : Path} {common : CommonClasses} {emit : EmitSet}

/-- A touched file is shown at its target once it has been written. -/
theorem ends_writeOne (store : FileStore) (file : SourceFile) :
    Ends (fun after ↦ ∃ p, roots.relative? file.path = some p ∧
        Keeps store.current ((output.join p).target store.current) store after ∧
        Shows (output.join p) (fun _ ↦ True) after)
      (writeOne roots output file store) := by
  cases hp : roots.relative? file.path with
  | none =>
    unfold writeOne destination
    rw [hp]
    exact .of_error rfl rfl
  | some p =>
    rw [writeOne_eq hp]
    refine (ends_putFile store _ _ _ _).bind fun _ store' ⟨keeps, shows⟩ ↦ ?_
    exact .of_ok rfl ⟨p, rfl, keeps, shows.mono fun _ _ ↦ trivial⟩

/-- Finishing a file changes its target only. A printed file is repaired from what it was, with
the text of its common file. -/
theorem ends_finishOne (store : FileStore) (summary : Summary) (file : SourceFile) :
    Ends (fun after ↦ ∃ p, roots.relative? file.path = some p ∧
        Keeps store.current ((output.join p).target store.current) store after ∧
        ∀ text, counterpartText? common file = some text → emit.touches file = true →
          store.isFile (output.join p) = true → ∃ old fixed,
            store.readText (output.join p) = .ok old ∧
            Imports.repair old text file.package = some fixed ∧
            Shows (output.join p) (· = fixed.toUTF8) after)
      (finishOne roots common emit output summary file store) := by
  cases hp : roots.relative? file.path with
  | none =>
    unfold finishOne destination
    rw [hp]
    exact .of_error rfl rfl
  | some p =>
    by_cases printed : (emit.touches file && store.isFile (output.join p)) = true
    · cases counterpart : counterpartText? common file with
      | some text =>
        rw [finishOne_of_printed hp counterpart printed]
        refine (ends_repairFile store _ _ _).bind fun _ store' ⟨keeps, repaired⟩ ↦ .of_ok rfl ?_
        refine ⟨p, rfl, keeps, fun text' same _ _ ↦ ?_⟩
        obtain rfl := Option.some.inj same
        exact repaired
      | none =>
        rw [finishOne_of_not_printed hp (.inl counterpart)]
        refine (ends_copy store _ _).bind fun _ store' keeps ↦ .of_ok rfl ⟨p, rfl, keeps, ?_⟩
        exact fun text same ↦ by cases same
    · rw [Bool.not_eq_true] at printed
      rw [finishOne_of_not_printed hp (.inr printed)]
      refine (ends_copy store _ _).bind fun _ store' keeps ↦ .of_ok rfl ⟨p, rfl, keeps, ?_⟩
      intro text _ touched there
      rw [touched, there] at printed
      cases printed

end steps

/-! ## The whole output -/

/-- The file has a path below the output directory, which shows a content of the kind. -/
def Placed (roots : SourceRoots) (output : Path) (kind : ByteArray → Prop) (store : FileStore)
    (file : SourceFile) : Prop :=
  ∃ p, roots.relative? file.path = some p ∧ Shows (output.join p) kind store

/-- The content is a text with an import block for what is needed. -/
def Brought (needed : List Imports.ImportLine) (content : ByteArray) : Prop :=
  ∃ text, String.fromUTF8? content = some text ∧ Imports.Brings needed text

/-- Both files go to one place. -/
def Collide (roots : SourceRoots) (output : Path) (current : Place)
    (file other : SourceFile) : Prop :=
  ∃ p q, roots.relative? file.path = some p ∧ roots.relative? other.path = some q ∧
    (output.join p).target current = (output.join q).target current

/-- A repaired text has the imports of the common text. -/
theorem brought_of_repair {old fixed common : String} {package : Option String}
    (h : Imports.repair old common package = some fixed) :
    Brought (Imports.importsOf common) fixed.toUTF8 :=
  ⟨fixed, fromUTF8?_toUTF8 fixed, Imports.brings_of_repair h⟩

/-- Repairing it again, with another common text, takes none of them away. -/
theorem Brought.repair {needed : List Imports.ImportLine} {content : ByteArray}
    {old fixed common : String}
    {package : Option String} (brought : Brought needed content)
    (decoded : String.fromUTF8? content = some old)
    (h : Imports.repair old common package = some fixed) : Brought needed fixed.toUTF8 := by
  obtain ⟨text, decoded', brings⟩ := brought
  obtain rfl := Option.some.inj (decoded'.symm.trans decoded)
  exact ⟨fixed, fromUTF8?_toUTF8 fixed, brings.repair h⟩

section deliver

variable {roots : SourceRoots} {output : Path} {common : CommonClasses} {emit : EmitSet}
  {model : SourceModel} {current : Place}

/-- After the writing, each touched file is at its target: a later one may have taken its place,
but only with a file. -/
theorem leaves_writeEmitted_placed : Leaves (fun store ↦ store.current = current)
    (writeEmitted roots model emit output)
    (fun store ↦ store.current = current ∧
      ∀ file ∈ model.files.filter emit.touches, Placed roots output (fun _ ↦ True) store file) := by
  let inv (done : List SourceFile) (store : FileStore) : Prop :=
    store.current = current ∧ ∀ file ∈ done, Placed roots output (fun _ ↦ True) store file
  have loop : Leaves (inv []) (writeEmitted roots model emit output)
      (inv (model.files.filter emit.touches)) := by
    refine .mapM inv fun done file rest _ store ⟨here, placed⟩ ↦ ?_
    refine (ends_writeOne store file).mono fun after ⟨p, hp, keeps, shows⟩ ↦
      ⟨keeps.1.trans here, fun other ho ↦ ?_⟩
    rcases List.mem_append.1 ho with ho | ho
    · obtain ⟨q, hq, shown⟩ := placed other ho
      exact ⟨q, hq, shown.of_keeps keeps (.inr fun _ ↦ trivial)⟩
    · obtain rfl := List.mem_singleton.1 ho
      exact ⟨p, hp, shows⟩
  exact fun store here ↦ loop store ⟨here, by simp⟩

section finish

variable {file : SourceFile} {text : String} (touched : emit.touches file = true)
  (counterpart : counterpartText? common file = some text)

/-- The file is copied in the end, not repaired. -/
def Copied (common : CommonClasses) (emit : EmitSet) (file : SourceFile) : Prop :=
  emit.touches file = false ∨ counterpartText? common file = none

include touched counterpart

/-- Once the file is repaired its imports stay, unless a file is copied to the same place. -/
theorem ends_finishOne_brought {store : FileStore} {summary : Summary} {done : List SourceFile}
    {other : SourceFile} (placed : Placed roots output
      (fun content ↦ file ∈ done → Brought (Imports.importsOf text) content) store file)
    (printed : emit.touches other = true → Placed roots output (fun _ ↦ True) store other)
    (alone : file ∈ done → Copied common emit other →
      ¬ Collide roots output store.current file other) :
    Ends (fun after ↦ Placed roots output
        (fun content ↦ file ∈ done ++ [other] →
          Brought (Imports.importsOf text) content) after file)
      (finishOne roots common emit output summary other store) := by
  obtain ⟨p, hp, shown⟩ := placed
  refine (ends_finishOne store summary other).mono fun after ⟨q, hq, keeps, repaired⟩ ↦ ⟨p, hp, ?_⟩
  have earlier (ne : file ≠ other) : file ∈ done ++ [other] → file ∈ done := by simp [ne]
  have apart (ne : (output.join q).target store.current ≠ (output.join p).target store.current)
      (differ : file ≠ other) : Shows (output.join p)
      (fun content ↦ file ∈ done ++ [other] → Brought (Imports.importsOf text) content) after :=
    (shown.of_keeps keeps (.inl ne)).mono fun _ h hf ↦ h (earlier differ hf)
  -- A copy may lead to the same place only as long as the file has not been finished.
  by_cases copied : Copied common emit other
  · have differ : file ≠ other := by
      rintro rfl
      rcases copied with h | h
      · simp [h] at touched
      · simp [h] at counterpart
    by_cases hf : file ∈ done
    · exact apart (fun same ↦ alone hf copied ⟨p, q, hp, hq, same.symm⟩) differ
    · have vacuous := shown.of_keeps keeps (.inr fun _ h ↦ absurd h hf)
      exact vacuous.mono fun _ h hm ↦ h (earlier differ hm)
  · obtain ⟨touched', none⟩ := not_or.1 copied
    rw [Bool.not_eq_false] at touched'
    obtain ⟨text', counterpart'⟩ := Option.ne_none_iff_exists'.1 none
    obtain ⟨q', hq', there⟩ := printed touched'
    obtain rfl : q' = q := Option.some.inj (hq'.symm.trans hq)
    obtain ⟨old, fixed, read, repair, shows⟩ := repaired text' counterpart' touched' there.isFile
    by_cases same : (output.join p).target store.current = (output.join q').target store.current
    · have there : Shows (output.join p) (fun _ ↦ True) store := shown.mono fun _ _ ↦ trivial
      have place := (there.of_keeps keeps (.inr fun _ ↦ trivial)).1
      refine (shows.of_same_place place (by rw [keeps.1, same])).mono ?_
      rintro _ rfl hf
      -- What is repaired is the file itself, or one whose place it shares; then it has its imports
      -- already.
      by_cases own : file = other
      · subst own
        obtain rfl := Option.some.inj (counterpart'.symm.trans counterpart)
        exact brought_of_repair repair
      · obtain ⟨-, content, here, brought⟩ := shown
        obtain ⟨content', here', decoded⟩ := FileStore.look_of_readText read
        rw [same, here', Option.some.injEq, Stub.file.injEq] at here
        subst here
        exact (brought (earlier own hf)).repair decoded repair
    · exact apart (Ne.symm same) fun e ↦ same (by subst e; rw [Option.some.inj (hp.symm.trans hq)])

/-- What a run leaves at the path of a file that is repaired. -/
theorem leaves_deliver_brought (hf : file ∈ model.files)
    (alone : ∀ other, [file, other].Sublist model.files → Copied common emit other →
      ¬ Collide roots output current file other) :
    Leaves (fun store ↦ store.current = current) (deliver roots model common emit output)
      fun after ↦ Placed roots output (Brought (Imports.importsOf text)) after file := by
  -- The files that are touched are there, and the file has its block once it is done.
  let inv (done : List SourceFile) (store : FileStore) : Prop :=
    store.current = current ∧
      (∀ other ∈ model.files.filter emit.touches, Placed roots output (fun _ ↦ True) store other) ∧
      Placed roots output (fun content ↦ file ∈ done →
        Brought (Imports.importsOf text) content) store file
  have finish : Leaves (inv []) (finish roots model common emit output) (inv model.files) := by
    refine .foldlM inv (Summary.mk 0 0) fun summary done other rest split store ⟨here,
      printed, placed⟩ ↦ ?_
    have own (touched : emit.touches other = true) :
      Placed roots output (fun _ ↦ True) store other :=
      printed other (List.mem_filter.2 ⟨split ▸ by simp, touched⟩)
    have later (hd : file ∈ done) : [file, other].Sublist model.files := by
      have pair := (List.singleton_sublist.2 hd).append
        (List.singleton_sublist.2 (List.mem_cons_self : other ∈ other :: rest))
      rwa [← split] at pair
    have brought :=
      @ends_finishOne_brought roots output common emit file text touched counterpart store
      summary done other placed own fun hd copied ↦ here ▸ alone other (later hd) copied
    have kept := @ends_finishOne roots output common emit store summary other
    refine ⟨fun summary' done ↦ ?_, brought.failed⟩
    obtain ⟨p, hp, keeps, -⟩ := kept.ok summary' done
    refine ⟨keeps.1.trans here, fun other ho ↦ ?_, brought.ok summary' done⟩
    obtain ⟨q, hq, shown⟩ := printed other ho
    exact ⟨q, hq, shown.of_keeps keeps (.inr fun _ ↦ trivial)⟩
  intro store here
  refine (leaves_writeEmitted_placed store here).bind fun written store' ⟨here', printed⟩ ↦ ?_
  obtain ⟨p, hp, shown⟩ := printed file (List.mem_filter.2 ⟨hf, touched⟩)
  have start : inv [] store' := ⟨here', printed, p, hp, shown.mono fun _ _ h ↦ absurd h (by simp)⟩
  refine (finish store' start).bind fun _ after ⟨_, _, q, hq, shown⟩ ↦ .of_ok rfl ?_
  exact ⟨q, hq, shown.mono fun _ h ↦ h hf⟩

end finish

end deliver

end PlatformOverlay.Output
