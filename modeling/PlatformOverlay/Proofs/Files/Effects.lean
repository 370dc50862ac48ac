import PlatformOverlay.Proofs.Files.Operations

/-!
# What operations do to a tree

Seen from outside, an operation gives a result and leaves something at every place.  For plain paths
both depend on what is at the places before: a path that a file blocks fails and changes nothing
(`createDirs_of_blocked`), any other directory is created with those above it (`yields_createDirs`),
and a file is written where no directory is (`yields_writeFile`).

A `View` is what is at every place, and `Yields` says of an operation which result and which view it
gives. Steps are put together by it without looking into the tree (`Yields.bind`), which for
creating directories is needed at each round: a directory is tried first, then those above it, and
then it is tried again.

Clearing is not described by one view. What it leaves at the place of the output directory depends
on what was there and on how the path is written, with or without slashes at its end; below the
place there is nothing in any case (`Clears`, `exists_clears`). `Leftover` has the possibilities.
-/

namespace PlatformOverlay

open Files

namespace Path

variable {p : Path} {current : Place}

/-- The last component of a trimmed path is read off its last piece. -/
theorem getLast?_components (trim : p.Trim) :
    ∃ t, (Text.splitOn '/' p.text).getLast? = some t ∧
      p.components.getLast? = Component.ofPiece? t := by
  obtain ⟨first, rest, split⟩ := p.exists_split
  rw [Trim, split] at trim
  rw [components_eq split, split]
  rcases List.eq_nil_or_concat rest with rfl | ⟨front, t, rfl⟩
  · have named := trim first rfl
    obtain ⟨ne, here⟩ := not_or.1 (mt ofPiece?_eq_none.2 named)
    refine ⟨first, rfl, ?_⟩
    rw [component_firstPiece_of_ne ne, if_neg here]
    cases Component.ofPiece? first <;> rfl
  · rw [List.concat_eq_append] at trim ⊢
    have last : (first :: (front ++ [t])).getLast? = some t := by
      rw [← List.cons_append, List.getLast?_concat]
    obtain ⟨c, hc⟩ := Option.ne_none_iff_exists'.1 (trim t last)
    refine ⟨t, last, ?_⟩
    rw [inner_append, ← List.append_assoc, hc]
    simp [inner, hc]

/-- The parent of a trimmed plain path leads to the directory in which its target lies. -/
theorem exists_plain_parent (current : Place) (plain : p.Plain) (trim : p.Trim) :
    ∃ parent, p.parent? = some parent ∧ parent.Plain ∧ parent.start current = p.start current ∧
      parent.target current = (p.target current).dropLast ∧
      parent.components.length + 1 = p.components.length ∧
      (parent.Trim ∨ parent.target current = p.start current) := by
  obtain ⟨t, ht, last⟩ := getLast?_components trim
  obtain ⟨c, hc⟩ := Option.ne_none_iff_exists'.1 (trim t ht)
  rw [hc] at last
  have not_root : c ≠ .root := fun e ↦ ofPiece?_ne_root (e ▸ hc)
  obtain ⟨parent, hp⟩ := exists_parent last not_root
  obtain ⟨c', split⟩ := components_parent hp
  obtain rfl : c' = c := by simpa [split] using last
  have plain' : parent.Plain := fun h ↦ plain (split ▸ List.mem_append_left _ h)
  have absolute : parent.isAbsolute = p.isAbsolute := by
    rw [Bool.eq_iff_iff, isAbsolute_iff_root, isAbsolute_iff_root, split, List.mem_append,
      List.mem_singleton]
    exact (or_iff_left not_root.symm).symm
  have start : parent.start current = p.start current := by rw [Path.start, absolute, Path.start]
  have target : parent.target current = (p.target current).dropLast := by
    cases c' with
    | root => exact absurd rfl not_root
    | here => exact absurd hc ofPiece?_ne_here
    | up => exact absurd (split ▸ List.mem_append_right _ List.mem_cons_self) plain
    | name text =>
      rw [Path.target, Path.target, split, walk_append]
      exact List.dropLast_concat.symm
  refine ⟨parent, hp, plain', start, target, by simp [split], ?_⟩
  rcases List.eq_nil_or_concat parent.components with nil | ⟨front, d, concat⟩
  · exact .inr (by rw [target_of_plain plain', nil, names_nil, List.append_nil, start])
  · rw [List.concat_eq_append] at concat
    by_cases inner : d.Inner
    · exact .inl (trim_parent hp (by rw [concat, List.getLast?_concat]) inner)
    · -- A component that is not an inner one stands in front, so nothing else is there.
      have nil : front = [] := by
        by_contra ne
        obtain ⟨e, front, rfl⟩ := List.exists_cons_of_ne_nil ne
        exact inner (inner_of_tail concat d (by simp))
      have none : names [d] = [] := by
        cases d <;> simp_all [Component.Inner, names, Component.name?]
      exact .inr (by rw [target_of_plain plain', concat, nil, List.nil_append, none,
        List.append_nil, start])

end Path

namespace Files

variable {ε α β : Type} {store : FileStore} {p : Path} {content : ByteArray}

/-! ## Views -/

/-- What is at every place. -/
abbrev View := Place → Option Stub

namespace View

/-- With a directory at the place and all the way to it. -/
def withDirs (v : View) (place : Place) : View := fun q ↦ if q <+: place then some .dir else v q

def withFile (v : View) (place : Place) (content : ByteArray) : View :=
  fun q ↦ if q = place then some (.file content) else v q

end View

/-- The operation gives the result and leaves a tree with the view. -/
structure Yields (m : ExceptT ε (StateM FileStore) α) (store : FileStore)
    (result : Except ε α) (v : View) :
    Prop where
  result : (m store).1 = result
  current : (m store).2.current = store.current
  look : (m store).2.root.look = v

/-- A step that leaves the store as it is yields the view it was given. -/
theorem Yields.of_eq {m : ExceptT ε (StateM FileStore) α} {r : Except ε α}
    (h : m store = (r, store)) :
    Yields m store r store.root.look := ⟨by rw [h], by rw [h], by rw [h]⟩

/-- What two steps yield one after the other. The second is asked about every store that looks
as the first one left it, since only the view is known. -/
theorem Yields.bind {x : ExceptT ε (StateM FileStore) α}
    {f : α → ExceptT ε (StateM FileStore) β} {a : α}
    {v v' : View} {r : Except ε β} (hx : Yields x store (.ok a) v)
    (hf : ∀ store' : FileStore, store'.current = store.current → store'.root.look = v →
      Yields (f a) store' r v') : Yields (x >>= f) store r v' := by
  obtain ⟨result, current, look⟩ := hx
  have run : (x >>= f) store = f a (x store).2 := by
    rw [run_bind]
    rcases h : x store with ⟨r, store'⟩
    rw [h] at result
    cases result
    rfl
  obtain ⟨result', current', look'⟩ := hf _ current look
  exact ⟨by rw [run, result'], by rw [run, current', current], by rw [run, look']⟩

namespace Node

variable {root node : Node} {place q : Place}

/-- Where nothing is below a place, putting something there that has nothing in it changes what is
at this place only. -/
theorem look_put_leaf (based : root.Based place) (leaf : ∀ r ≠ [], node.look r = none)
    (nothing : ∀ r ≠ [], root.look (place ++ r) = none) :
    (put node place root).look q = if q = place then some node.stub else root.look q := by
  by_cases below : place <+: q
  · obtain ⟨r, rfl⟩ := below
    rw [look, get?_put_append based]
    by_cases ne : r = []
    · simp [ne]
    · rw [if_neg (by simpa using ne), nothing r ne]
      exact leaf r ne
  · rw [look_put_of_not_below below, if_neg fun e ↦ below (by simp [e])]

/-- Nothing lies below a place that is no directory. -/
theorem look_below_eq_none (h : root.look place ≠ some .dir) (r : Place) (ne : r ≠ []) :
    root.look (place ++ r) = none := by
  by_contra there
  exact h (look_of_append there ne)

end Node

/-! ## Creating directories -/

section directories

variable (plain : p.Plain)

include plain in
/-- Creating a directory that is there fails and changes nothing. -/
theorem createDir_of_dir (ne : p.text ≠ "")
    (dir : store.root.look (p.target store.current) = some .dir) :
    createDir p store = (.error .exists, store) := by
  have same := components_dropSlashes p
  have plain' : (dropSlashes p).Plain := fun h ↦ plain (same ▸ h)
  have target : (dropSlashes p).target store.current = p.target store.current :=
    congrArg (Path.walk store.current) same
  have ne' : (dropSlashes p).text ≠ "" := by
    intro empty
    rw [← Path.components_eq_nil, same, Path.components_eq_nil] at empty
    exact ne empty
  have dir' : store.root.look ((dropSlashes p).target store.current) = some .dir := by
    rw [target, dir]
  obtain ⟨es, there⟩ := Node.look_eq_dir.1 dir'
  rw [createDir_eq, FileStore.place_of_dir plain' ne' dir']
  simp only [there]

include plain in
theorem createDir_of_file (trim : p.Trim)
    (file : store.root.look (p.target store.current) = some (.file content)) :
    createDir p store = (.error .exists, store) := by
  have place := @FileStore.place_of_look store p plain trim (by simp [file])
  rw [createDir_eq, dropSlashes_of_trim trim, place]
  simp only [Node.look_eq_file.1 file]

include plain in
/-- With no directory to create it in, the cause of the failure depends on whether a file blocks
the way. -/
theorem createDir_of_no_parent (trim : p.Trim)
    (start : store.root.look (p.start store.current) = some .dir)
    (h : store.root.look (p.target store.current).dropLast ≠ some .dir) :
    (Blocked store.root (p.target store.current).dropLast →
      createDir p store = (.error .notADirectory, store)) ∧
    (¬ Blocked store.root (p.target store.current).dropLast →
      createDir p store = (.error .notFound, store)) := by
  obtain ⟨blocked, clear⟩ := FileStore.place_of_no_parent plain trim start h
  rw [createDir_eq, dropSlashes_of_trim trim]
  exact ⟨fun hb ↦ by rw [blocked hb], fun hb ↦ by rw [clear hb]⟩

include plain in
/-- A directory is created where nothing is, and nothing else changes. -/
theorem yields_createDir (trim : p.Trim)
    (parent : store.root.look (p.target store.current).dropLast = some .dir)
    (none : store.root.look (p.target store.current) = none) :
    Yields (createDir p) store (.ok ()) fun q ↦
      if q = p.target store.current then some .dir else store.root.look q := by
  obtain ⟨es, there⟩ := Node.look_eq_dir.1 parent
  have run : createDir p store = (.ok (),
      { store with root := Node.put (.dir []) (p.target store.current) store.root }) := by
    rw [createDir_eq, dropSlashes_of_trim trim, FileStore.place_of_parent plain trim parent]
    simp only [Node.look_eq_none.1 none, there]
  refine ⟨by rw [run], by rw [run], funext fun q ↦ ?_⟩
  rw [run]
  refine Node.look_put_leaf (.inr parent) (fun r ne ↦ ?_) (Node.look_below_eq_none (by simp [none]))
  obtain ⟨name, r, rfl⟩ := List.exists_cons_of_ne_nil ne
  rfl

include plain in
theorem ensureDir_of_dir (ne : p.text ≠ "")
    (dir : store.root.look (p.target store.current) = some .dir) :
    ensureDir p store = (.ok (), store) := by
  rw [ensureDir_eq, createDir_of_dir plain ne dir]
  simp only [(FileStore.isDir_iff plain).2 ⟨ne, dir⟩, if_true]

include plain in
/-- Any other failure to create the directory is reported. -/
theorem ensureDir_of_error {e : IoCause} (h : createDir p store = (.error e, store))
    (not_dir : store.root.look (p.target store.current) ≠ some .dir) :
    ensureDir p store = (.error e, store) := by
  have : store.isDir p = false := by
    rw [Bool.eq_false_iff]
    exact fun dir ↦ not_dir ((FileStore.isDir_iff plain).1 dir).2
  rw [ensureDir_eq, h]
  simp [this]

include plain in
theorem yields_ensureDir (trim : p.Trim)
    (parent : store.root.look (p.target store.current).dropLast = some .dir)
    (none : store.root.look (p.target store.current) = none) :
    Yields (ensureDir p) store (.ok ()) fun q ↦
      if q = p.target store.current then some .dir else store.root.look q := by
  obtain ⟨result, current, look⟩ := yields_createDir plain trim parent none
  have same : (ensureDir p store).2 = (createDir p store).2 := by rw [ensureDir_eq]
  exact ⟨by rw [ensureDir_eq, result], by rw [same, current], by rw [same, look]⟩

/-- What is missing above is created first; for any other reason it is left at that. -/
theorem createDirsUpTo_of_error (n : Nat) {e : IoCause} (h : createDir p store = (.error e, store))
    (other : e ≠ .notFound) : createDirsUpTo n p store = ensureDir p store := by
  cases n with
  | zero => rw [createDirsUpTo]
  | succ n =>
    rw [createDirsUpTo_succ, h]
    cases e <;> first | exact absurd rfl other | simp only

/-- Why a directory cannot be created where a file is on the way or at its place. -/
def blockCause (v : View) (place : Place) : IoCause :=
  match v place with
  | some (.file _) => .exists
  | _ => .notADirectory

/-- What blocks a place in whose directory no directory can be created. -/
theorem Blocked.dropLast {root : Node} {place : Place} (h : Blocked root place)
    (parent : root.look place.dropLast ≠ some .dir) : Blocked root place.dropLast := by
  rcases List.eq_nil_or_concat place with rfl | ⟨front, name, rfl⟩
  · exact h
  · obtain ⟨q, content, hq, file⟩ := h
    rw [List.concat_eq_append] at *
    rw [List.dropLast_concat] at *
    rcases List.prefix_concat_iff.1 hq with rfl | above
    · exact absurd (@Node.look_of_append root front [name] (by simp [file]) (by simp)) parent
    · exact ⟨q, content, above, file⟩

include plain in
/-- A file on the way stops the creation at the first step: each round goes up to the parent,
and the parent is blocked as well. -/
theorem createDirsUpTo_of_blocked (n : Nat) (trim : p.Trim)
    (start : store.root.look (p.start store.current) = some .dir)
    (h : Blocked store.root (p.target store.current)) :
    createDirsUpTo n p store =
      (.error (blockCause store.root.look (p.target store.current)), store) := by
  have created : createDir p store =
      (.error (blockCause store.root.look (p.target store.current)), store) ∧
      store.root.look (p.target store.current) ≠ some .dir := by
    by_cases parent : store.root.look (p.target store.current).dropLast = some .dir
    · obtain ⟨content, file⟩ := (blocked_iff (.inr parent)).1 h
      exact ⟨by rw [createDir_of_file plain trim file, blockCause, file], by simp [file]⟩
    · have nothing : store.root.look (p.target store.current) = none := by
        by_contra there
        obtain ⟨-, name, -, -, split⟩ := Path.exists_stepsOf_eq store.current plain trim
        rw [split] at there
        exact parent (Node.look_of_append there (by simp))
      have cause := (createDir_of_no_parent plain trim start parent).1 (h.dropLast parent)
      exact ⟨by rw [cause, blockCause, nothing], by simp [nothing]⟩
  have other : blockCause store.root.look (p.target store.current) ≠ .notFound := by
    unfold blockCause
    split <;> simp
  rw [createDirsUpTo_of_error n created.1 other]
  exact ensureDir_of_error plain created.1 created.2

include plain in
/-- Where the directory is there, no round is needed. -/
theorem createDirsUpTo_of_dir (n : Nat) (ne : p.text ≠ "")
    (dir : store.root.look (p.target store.current) = some .dir) :
    createDirsUpTo n p store = (.ok (), store) := by
  rw [createDirsUpTo_of_error n (createDir_of_dir plain ne dir) (by simp)]
  exact ensureDir_of_dir plain ne dir

/-- Where a directory is, all directories above it are there already. -/
theorem withDirs_of_dir {root : Node} {place : Place} (h : root.look place = some .dir) :
    View.withDirs root.look place = root.look := by
  funext q
  unfold View.withDirs
  split_ifs with hq
  · rw [Node.look_dir_of_above h hq]
  · rfl

/-- Directories down to a child are the child itself and the directories down to its parent. -/
theorem withDirs_concat {v : View} {place : Place} {name : String} {q : Place} :
    v.withDirs (place ++ [name]) q =
      if q = place ++ [name] then some .dir else v.withDirs place q := by
  unfold View.withDirs
  simp only [List.prefix_concat_iff, ite_or]

section step

variable (n : Nat) (trim : p.Trim) (h : ¬ Blocked store.root (p.target store.current))

include plain trim h

/-- In a directory that is there just the last directory is created, if it is not there too. -/
theorem yields_createDirsUpTo_of_parent
    (parent : store.root.look (p.target store.current).dropLast = some .dir) :
    Yields (createDirsUpTo (n + 1) p) store (.ok ())
      (View.withDirs store.root.look (p.target store.current)) := by
  obtain ⟨-, name, -, -, split⟩ := Path.exists_stepsOf_eq store.current plain trim
  cases there : store.root.look (p.target store.current) with
  | some stub =>
    cases stub with
    | file content => exact absurd ⟨_, content, List.prefix_rfl, there⟩ h
    | dir =>
      rw [withDirs_of_dir there]
      exact .of_eq (createDirsUpTo_of_dir plain (n + 1) trim.text_ne there)
  | none =>
    have created := yields_createDir plain trim parent there
    have ensured := yields_ensureDir plain trim parent there
    have run : createDirsUpTo (n + 1) p store = ensureDir p store := by
      rw [createDirsUpTo_succ, created.result]
    refine ⟨by rw [run, ensured.result], by rw [run, ensured.current], ?_⟩
    rw [run, ensured.look, split]
    funext q
    rw [withDirs_concat, withDirs_of_dir parent]

/-- Where the directory above is missing it is created first. -/
theorem yields_createDirsUpTo_of_no_parent
    (start : store.root.look (p.start store.current) = some .dir)
    (parent : store.root.look (p.target store.current).dropLast ≠ some .dir) {above : Path}
    (hp : p.parent? = some above) (ne : above.components ≠ [])
    (first : Yields (createDirsUpTo n above) store (.ok ())
      (View.withDirs store.root.look (p.target store.current).dropLast)) :
    Yields (createDirsUpTo (n + 1) p) store (.ok ())
      (View.withDirs store.root.look (p.target store.current)) := by
  obtain ⟨-, name, -, -, split⟩ := Path.exists_stepsOf_eq store.current plain trim
  have clear : ¬ Blocked store.root (p.target store.current).dropLast :=
    fun ⟨q, content, hq, file⟩ ↦ h ⟨q, content, hq.trans (List.dropLast_prefix _), file⟩
  have nothing : store.root.look (p.target store.current) = none := by
    by_contra there
    rw [split] at there
    exact parent (Node.look_of_append there (by simp))
  have longer : ¬ p.target store.current <+: (p.target store.current).dropLast :=
    not_prefix_dropLast (by rw [split]; simp)
  have run : createDirsUpTo (n + 1) p store =
      (createDirsUpTo n above >>= fun _ ↦ ensureDir p) store := by
    rw [createDirsUpTo_succ, (createDir_of_no_parent plain trim start parent).2 clear, hp]
    simp only [List.isEmpty_iff, ne, if_false]
  have both : Yields (createDirsUpTo n above >>= fun _ ↦ ensureDir p) store (.ok ())
      (View.withDirs store.root.look (p.target store.current)) := by
    refine first.bind fun store' current look ↦ ?_
    have here : store'.root.look (p.target store'.current).dropLast = some .dir := by
      rw [current, look, View.withDirs, if_pos List.prefix_rfl]
    have nothing' : store'.root.look (p.target store'.current) = none := by
      rw [current, look, View.withDirs, if_neg longer, nothing]
    have second := yields_ensureDir plain trim here nothing'
    refine ⟨second.result, second.current, second.look.trans (funext fun q ↦ ?_)⟩
    rw [split, withDirs_concat, current, look, ← split]
  exact ⟨by rw [run, both.result], by rw [run, both.current], by rw [run, both.look]⟩

end step

include plain in
/-- With a round for each component, the directories of a path that no file blocks are all
created. By induction on the rounds: the parent needs one fewer. -/
theorem yields_createDirsUpTo {n : Nat} (trim : p.Trim) (enough : p.components.length ≤ n)
    (start : store.root.look (p.start store.current) = some .dir)
    (h : ¬ Blocked store.root (p.target store.current)) :
    Yields (createDirsUpTo n p) store (.ok ())
      (View.withDirs store.root.look (p.target store.current)) := by
  induction n generalizing p with
  | zero =>
    have empty : p.components = [] := by simpa using enough
    exact absurd (Path.components_eq_nil.1 empty) trim.text_ne
  | succ n ih =>
    by_cases parent : store.root.look (p.target store.current).dropLast = some .dir
    · exact yields_createDirsUpTo_of_parent plain n trim h parent
    · obtain ⟨above, hp, plain', start', target, length, trim'⟩ :=
        Path.exists_plain_parent store.current plain trim
      have trim' : above.Trim := by
        refine trim'.resolve_right fun e ↦ parent ?_
        rw [← target, e, start]
      have clear : ¬ Blocked store.root (above.target store.current) :=
        fun ⟨q, content, hq, file⟩ ↦
          h ⟨q, content, hq.trans (target ▸ List.dropLast_prefix _), file⟩
      have first := ih plain' trim' (by omega) (start' ▸ start) clear
      rw [target] at first
      exact yields_createDirsUpTo_of_no_parent plain n trim h start parent hp
        (mt Path.components_eq_nil.1 trim'.text_ne) first

include plain in
/-- Nothing changes when the directory is there. -/
theorem createDirs_of_dir (ne : p.text ≠ "")
    (dir : store.root.look (p.target store.current) = some .dir) :
    createDirs p store = (.ok (), store) := by
  unfold createDirs
  split_ifs
  · rfl
  · exact createDirsUpTo_of_dir plain _ ne dir

include plain in
/-- A file on the way makes the creation fail, and nothing changes. -/
theorem createDirs_of_blocked (trim : p.Trim)
    (start : store.root.look (p.start store.current) = some .dir)
    (h : Blocked store.root (p.target store.current)) :
    createDirs p store = (.error (blockCause store.root.look (p.target store.current)), store) := by
  have ne : p.components ≠ [] := mt Path.components_eq_nil.1 trim.text_ne
  rw [createDirs, if_neg (by simpa using ne)]
  exact createDirsUpTo_of_blocked plain _ trim start h

include plain in
/-- Every directory of a path that no file blocks is there afterwards, and nothing else changes. -/
theorem yields_createDirs (trim : p.Trim)
    (start : store.root.look (p.start store.current) = some .dir)
    (h : ¬ Blocked store.root (p.target store.current)) :
    Yields (createDirs p) store (.ok ())
      (View.withDirs store.root.look (p.target store.current)) := by
  have ne : p.components ≠ [] := mt Path.components_eq_nil.1 trim.text_ne
  rw [createDirs, if_neg (by simpa using ne)]
  exact yields_createDirsUpTo plain trim le_rfl start h

end directories

/-! ## Writing and copying -/

section writing

variable (plain : p.Plain) (trim : p.Trim)

include plain trim

/-- No file is written where a directory is. -/
theorem writeFile_of_dir (dir : store.root.look (p.target store.current) = some .dir) :
    writeFile p content store = (.error .isADirectory, store) := by
  obtain ⟨es, there⟩ := Node.look_eq_dir.1 dir
  rw [writeFile_eq, FileStore.place_of_dir plain trim.text_ne dir]
  simp only [there]

/-- A file is written into its directory, over the file that was there, and nothing else
changes. -/
theorem yields_writeFile (parent : store.root.look (p.target store.current).dropLast = some .dir)
    (h : store.root.look (p.target store.current) ≠ some .dir) :
    Yields (writeFile p content) store (.ok ())
      (View.withFile store.root.look (p.target store.current) content) := by
  have run : writeFile p content store = (.ok (),
      { store with root := Node.put (.file content) (p.target store.current) store.root }) := by
    rw [writeFile_eq, FileStore.place_of_parent plain trim parent]
    dsimp only
    rcases hn : store.root.get? (p.target store.current) with _ | ⟨_ | es⟩
    · rfl
    · rfl
    · exact absurd (Node.look_eq_dir.2 ⟨es, hn⟩) h
  refine ⟨by rw [run], by rw [run], funext fun q ↦ ?_⟩
  rw [run]
  refine Node.look_put_leaf (.inr parent) (fun r ne ↦ ?_) (Node.look_below_eq_none h)
  obtain ⟨name, r, rfl⟩ := List.exists_cons_of_ne_nil ne
  rfl

omit plain trim in
/-- A file is copied by writing its content. -/
theorem copyFile_of_file {source : Path} (plain_source : source.Plain) (trim_source : source.Trim)
    (file : store.root.look (source.target store.current) = some (.file content))
    {q : Place} (place : store.place p = .ok q) (ne : q ≠ source.target store.current) :
    copyFile source p store = writeFile p content store := by
  have origin := @FileStore.place_of_look store source plain_source trim_source (by simp [file])
  rw [copyFile_eq, origin,
    FileStore.read_of_file plain_source trim_source (Node.look_eq_file.1 file),
    place]
  simp only [ne, if_false]

end writing

/-! ## Clearing -/

theorem exists_of_endsInName (h : endsInName p = true) :
    ∃ t, .name t ∈ p.components := by
  unfold endsInName at h
  split at h
  · rename_i t last
    obtain ⟨ht, ne⟩ := List.mem_filter.1 (List.mem_of_getLast? last)
    have named : Path.Component.ofPiece? t = some (.name t) := by
      unfold Path.Component.ofPiece?
      simp_all
    exact ⟨t, Path.mem_components_of_mem ht named⟩
  · cases h

/-- A path that ends in a name does not lead to the root. -/
theorem target_ne_nil (plain : p.Plain) (h : endsInName p = true) (current : Place) :
    p.target current ≠ [] := by
  obtain ⟨t, ht⟩ := exists_of_endsInName h
  have : t ∈ Path.names p.components := List.mem_filterMap.2 ⟨.name t, ht, rfl⟩
  rw [Path.target_of_plain plain]
  exact List.append_ne_nil_of_right_ne_nil _ (List.ne_nil_of_mem this)

/-- Only a path that ends in its name leads to a file. -/
theorem endsInName_of_file (plain : p.Plain) (place : store.place p = .ok (p.target store.current))
    (file : store.root.look (p.target store.current) = some (.file content)) :
    endsInName p = true := by
  obtain ⟨front, t, last, steps⟩ := p.exists_stepsOf_concat
  have ne := (FileStore.place_eq_ok place).2
  rw [FileStore.place_eq ne, follow_eq_ok, steps] at place
  have before := place.2 front (List.prefix_append _ _) (by simp)
  have target := place.1
  rw [List.foldl_append, List.foldl_cons, List.foldl_nil] at target
  have up : t ≠ ".." := by
    rintro rfl
    exact plain (Path.mem_components_of_mem (List.mem_of_getLast? last) rfl)
  have idle : ¬ (t = "" ∨ t = ".") := by
    intro idle
    rw [Step.ofPiece, if_pos idle] at target
    rw [target] at file
    exact absurd (before.symm.trans file) (by simp)
  obtain ⟨texts, split⟩ := List.getLast?_eq_some_iff.1 last
  obtain ⟨empty, here⟩ := not_or.1 idle
  rw [endsInName, split, List.filter_append]
  simp [empty, here, up]

/-- What may be left at the place of an output directory by clearing it, for what was there. -/
structure Leftover (left : Option Stub → Option Stub) : Prop where
  ofNone : left none = none
  ofDir : left (some .dir) = none ∨ left (some .dir) = some .dir
  ofFile : (∀ content, left (some (.file content)) = none) ∨
    ∀ content, left (some (.file content)) = some (.file content)

namespace Leftover

variable {left : Option Stub → Option Stub} {x y : Option Stub}

/-- What is left is what was there. -/
theorem eq_of_some (h : Leftover left) {stub : Stub} (hx : left x = some stub) : x = some stub := by
  obtain ⟨ofNone, ofDir, ofFile⟩ := h
  cases x with
  | none => simp [ofNone] at hx
  | some stub' =>
    cases stub' with
    | dir =>
      rcases ofDir with e | e
      · simp [e] at hx
      · exact e ▸ hx
    | file content =>
      rcases ofFile with e | e
      · simp [e] at hx
      · exact e content ▸ hx

/-- If something of the same kind comes in its place, then that is left as well. -/
theorem again (h : Leftover left)
    (grows : ∀ stub, left x = some stub → ∃ stub', y = some stub' ∧ (stub' = .dir ↔ stub = .dir)) :
    left y = left x ∨ left y = y := by
  cases hx : left x with
  | none =>
    cases hy : left y with
    | none => exact .inl rfl
    | some stub => exact .inr (h.eq_of_some hy).symm
  | some stub =>
    obtain ⟨stub', rfl, same⟩ := grows stub hx
    have there := h.eq_of_some hx
    rw [there] at hx
    refine .inr ?_
    cases stub with
    | dir => rw [same.2 rfl, hx]
    | file content =>
      cases stub' with
      | dir => simp at same
      | file content' =>
        rcases h.ofFile with none | kept
        · simp [none] at hx
        · exact kept content'

end Leftover

/-- What clearing a path does, seen from a place. -/
structure Clears (left : Option Stub → Option Stub) (p : Path)
    (before after : FileStore) : Prop where
  current : after.current = before.current
  beside : ∀ q, ¬ p.target before.current <+: q → after.root.look q = before.root.look q
  here : after.root.look (p.target before.current) =
    left (before.root.look (p.target before.current))
  below : p.text ≠ "" → ∀ r ≠ [], after.root.look (p.target before.current ++ r) = none
  same : p.text = "" → after = before

/-- Clearing makes no directories. -/
theorem Clears.dir_of_dir {left : Option Stub → Option Stub} {before after : FileStore}
    (leftover : Leftover left) (clears : Clears left p before after) {q : Place}
    (h : after.root.look q = some .dir) : before.root.look q = some .dir := by
  by_cases empty : p.text = ""
  · rwa [clears.same empty] at h
  by_cases inside : p.target before.current <+: q
  · obtain ⟨r, rfl⟩ := inside
    by_cases here : r = []
    · rw [here, List.append_nil] at h ⊢
      rw [clears.here] at h
      exact leftover.eq_of_some h
    · rw [clears.below empty r here] at h
      cases h
  · rwa [clears.beside q inside] at h

section clears

variable {left : Option Stub → Option Stub} (ne : p.text ≠ "")

include ne

/-- Clearing that leaves the store alone clears what is no directory, when such a thing stays. -/
theorem Clears.of_same
    (h : left (store.root.look (p.target store.current)) = store.root.look (p.target store.current))
    (not_dir : store.root.look (p.target store.current) ≠ some .dir) :
    Clears left p store store where
  current := rfl
  beside _ _ := rfl
  here := h.symm
  below _ := Node.look_below_eq_none not_dir
  same empty := absurd empty ne

/-- Removing what is at a place leaves nothing there and nothing below it. -/
theorem Clears.of_remove (not_root : p.target store.current ≠ [])
    (h : left (store.root.look (p.target store.current)) = none) :
    Clears left p store { store with root := Node.remove (p.target store.current) store.root } where
  current := rfl
  beside _ := Node.look_remove_of_not_below
  here := by
    have gone := @Node.get?_remove_append store.root _ [] not_root
    rw [List.append_nil] at gone
    rw [h, Node.look_eq_none.2 gone]
  below _ _ _ := Node.look_eq_none.2 (Node.get?_remove_append not_root)
  same empty := absurd empty ne

/-- An empty directory in place of a full one leaves nothing below it. -/
theorem Clears.of_put (dir : store.root.look (p.target store.current) = some .dir)
    (h : left (some .dir) = some .dir) :
    Clears left p store
      { store with root := Node.put (.dir []) (p.target store.current) store.root } where
  current := rfl
  beside _ := Node.look_put_of_not_below
  here := by
    have based : store.root.Based (p.target store.current) := .of_look (by simp [dir])
    have there := @Node.get?_put_append store.root (.dir []) _ [] based
    rw [List.append_nil] at there
    rw [dir, h, Node.look, there]
    rfl
  below _ r hr := by
    obtain ⟨name, r, rfl⟩ := List.exists_cons_of_ne_nil hr
    rw [Node.look, Node.get?_put_append (.of_look (by simp [dir]))]
    rfl
  same empty := absurd empty ne

end clears

/-- A way leads to a file if it does not come by its place before. -/
theorem place_of_file_iff (ne : p.text ≠ "") (plain : p.Plain)
    (file : store.root.look (p.target store.current) = some (.file content)) :
    store.place p = .ok (p.target store.current) ↔ ∀ front, front <+: stepsOf p →
      front ≠ stepsOf p →
      front.foldl Step.apply (p.start store.current) ≠ p.target store.current := by
  rw [FileStore.place_eq ne, follow_eq_ok]
  constructor
  · rintro ⟨-, dirs⟩ front hf hne here
    have := dirs front hf hne
    rw [here, file] at this
    simp at this
  · refine fun h ↦ ⟨Path.foldl_stepsOf.symm, fun front hf hne ↦ ?_⟩
    have above := @foldl_apply_mono (p.start store.current) _ plain.up_notMem _ hf
    rw [Path.foldl_stepsOf] at above
    obtain ⟨r, hr⟩ := above
    refine @Node.look_of_append store.root _ r (by simp [hr, file]) ?_
    rintro rfl
    exact h front hf hne (by simpa using hr)

/-- Clearing where nothing is does nothing: this is the guard of the operation. -/
theorem clear_of_none (h : store.root.look (p.target store.current) = none) :
    (clear p store).2 = store := by
  rw [clear_eq]
  split
  · rfl
  · rename_i place hplace
    rw [(FileStore.place_eq_ok hplace).1, Node.look_eq_none.1 h]

/-- What is at the place goes, or is emptied when the path does not end in a name. -/
theorem clear_of_place (place : store.place p = .ok (p.target store.current))
    (there : store.root.look (p.target store.current) ≠ none) : (clear p store).2 =
      if endsInName p then { store with root := Node.remove (p.target store.current) store.root }
      else { store with root := Node.put (.dir []) (p.target store.current) store.root } := by
  obtain ⟨node, hn⟩ := Option.ne_none_iff_exists'.1 (mt Node.look_eq_none.2 there)
  rw [clear_eq, place]
  dsimp only
  rw [hn]
  dsimp only
  split <;> rfl

/-- Whether a file at its target is taken away depends on how a path is written, and on nothing
else. -/
theorem exists_ofFile (ne : p.text ≠ "") (plain : p.Plain) (current : Place) :
    ∃ ofFile : ByteArray → Option Stub,
      ((∀ content, ofFile content = none) ∨ ∀ content, ofFile content = some (.file content)) ∧
      ∀ store : FileStore, store.current = current →
        ∀ content, store.root.look (p.target store.current) = some (.file content) →
          (ofFile content = none ↔ store.place p = .ok (p.target store.current)) := by
  by_cases reaches : ∀ front, front <+: stepsOf p → front ≠ stepsOf p →
      front.foldl Step.apply (p.start current) ≠ p.target current
  · refine ⟨fun _ ↦ none, .inl fun _ ↦ rfl, ?_⟩
    rintro store rfl content file
    exact iff_of_true rfl ((place_of_file_iff ne plain file).2 reaches)
  · refine ⟨fun content ↦ some (.file content), .inr fun _ ↦ rfl, ?_⟩
    rintro store rfl content file
    exact iff_of_false (by simp) (mt (place_of_file_iff ne plain file).1 reaches)

/-- A path that does not lead where its components say clears nothing. -/
theorem clear_of_no_place (h : store.place p ≠ .ok (p.target store.current)) :
    (clear p store).2 = store := by
  rw [clear_eq]
  split
  · rfl
  · rename_i q hq
    exact absurd ((FileStore.place_eq_ok hq).1 ▸ hq) h

/-- Clearing an output directory takes away what is below it.  What is left at its place depends on
how the path is written; the directory in which the path starts is left. -/
theorem exists_clears (plain : p.Plain) (current : Place) : ∃ left, Leftover left ∧
    (p.target current = p.start current → left (some .dir) = some .dir) ∧
    ∀ store : FileStore, store.current = current → Clears left p store (clear p store).2 := by
  by_cases ne : p.text = ""
  · refine ⟨id, ⟨rfl, .inr rfl, .inr fun _ ↦ rfl⟩, fun _ ↦ rfl, fun store _ ↦ ?_⟩
    have run : clear p store = (.ok (), store) := by rw [clear_eq, FileStore.place, if_pos ne]
    rw [run]
    exact ⟨rfl, fun _ _ ↦ rfl, rfl, fun h ↦ absurd ne h, fun _ ↦ rfl⟩
  obtain ⟨ofFile, hof, reached⟩ := exists_ofFile ne plain current
  -- A directory behind a path that does not end in a name is emptied; a file there is taken away or
  -- not by the path alone.
  let left : Option Stub → Option Stub
    | none => none
    | some .dir => if endsInName p then none else some .dir
    | some (.file content) => ofFile content
  have leftover : Leftover left := by
    refine ⟨rfl, ?_, hof⟩
    by_cases named : endsInName p = true <;> simp [left, named]
  refine ⟨left, leftover, fun here ↦ if_neg fun named ↦ ?_, ?_⟩
  · obtain ⟨t, ht⟩ := exists_of_endsInName named
    have : t ∈ Path.names p.components := List.mem_filterMap.2 ⟨.name t, ht, rfl⟩
    rw [Path.target_of_plain plain, List.append_right_eq_self] at here
    simp [here] at this
  rintro store rfl
  cases there : store.root.look (p.target store.current) with
  | none =>
    rw [clear_of_none there]
    exact .of_same ne (by rw [there]) (by simp [there])
  | some stub =>
    cases stub with
    | dir =>
      rw [clear_of_place (FileStore.place_of_dir plain ne there) (by simp [there])]
      split_ifs with named
      · exact .of_remove ne (target_ne_nil plain named _) (by simp [left, there, named])
      · exact .of_put ne there (by simp [left, named])
    | file content =>
      have reached := reached store rfl content there
      by_cases place : store.place p = .ok (p.target store.current)
      · have named := endsInName_of_file plain place there
        rw [clear_of_place place (by simp [there]), if_pos named]
        exact .of_remove ne (target_ne_nil plain named _) (by rw [there]; exact reached.2 place)
      · rw [clear_of_no_place place]
        refine .of_same ne ?_ (by simp [there])
        rw [there]
        exact (hof.resolve_left fun none ↦ place (reached.1 (none content))) content

end Files

end PlatformOverlay
