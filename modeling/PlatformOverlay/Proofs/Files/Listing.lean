import PlatformOverlay.Proofs.Files.Operations

/-!
# Files below a directory

The names in a tree are such that a path to a file below a directory is read as the way to that
file: the path of the directory with the names on the way joined to it (`mem_filesFrom`,
`components_below`).

This asks for two things of a tree. Names must be such that they can be a piece of a path, so not
empty, without slashes, and not a dot or two (`Node.Named`). And no two entries of a directory may
have one name (`Node.WellFormed`), or else the listing would have files that no path leads to.
-/

namespace PlatformOverlay

open Files

/-- A name that an entry of a directory can have. -/
structure Files.ValidName (name : String) : Prop where
  slash : '/' ∉ name.toList
  named : Path.Component.ofPiece? name = some (.name name)

instance (name : String) : Decidable (Files.ValidName name) :=
  decidable_of_iff ('/' ∉ name.toList ∧ Path.Component.ofPiece? name = some (.name name))
    ⟨fun ⟨slash, named⟩ ↦ ⟨slash, named⟩, fun h ↦ ⟨h.slash, h.named⟩⟩

namespace Path

/-- The path of what lies below a directory. -/
def below (p : Path) (names : Place) : Path := names.foldl (fun p name ↦ p.join ⟨name⟩) p

variable {p : Path} {place current : Place} {name : String}

@[simp] theorem below_nil : p.below [] = p := rfl

theorem below_cons : p.below (name :: place) = (p.join ⟨name⟩).below place := rfl

theorem below_concat : p.below (place ++ [name]) = (p.below place).join ⟨name⟩ := by
  simp [below]

/-- A valid name is no absolute path, since it has no slash. -/
theorem isAbsolute_of_validName (h : ValidName name) : isAbsolute ⟨name⟩ = false := by
  rw [Bool.eq_false_iff]
  intro absolute
  obtain ⟨-, ne⟩ := (@isAbsolute_iff ⟨name⟩ _ _ (Text.splitOn_of_notMem h.slash)).1 absolute
  exact ne rfl

/-- Joining a valid name adds it as one component. -/
theorem components_join_name (h : ValidName name) :
    (p.join ⟨name⟩).components = p.components ++ [.name name] := by
  have split : Text.splitOn '/' (Path.mk name).text = [name] := Text.splitOn_of_notMem h.slash
  have inner : inner [name] = [.name name] := by simp [Path.inner, h.named]
  by_cases empty : p.text = ""
  · have nothing : p.components = [] := components_eq_nil.2 empty
    have joined : p.join ⟨name⟩ = ⟨name⟩ := by simp [join, empty]
    have named : Component.ofPiece? name ≠ none := by simp [h.named]
    obtain ⟨ne, here⟩ := not_or.1 (mt ofPiece?_eq_none.2 named)
    rw [joined, nothing, components_eq split, component_firstPiece_of_ne ne, if_neg here, h.named]
    rfl
  · rw [components_join (isAbsolute_of_validName h) empty, split, inner]

/-- The path of a place below `p` has the names of the place as components. -/
theorem components_below (h : ∀ name ∈ place, ValidName name) :
    (p.below place).components = p.components ++ place.map .name := by
  induction place generalizing p with
  | nil => simp
  | cons name place ih =>
    obtain ⟨first, rest⟩ := List.forall_mem_cons.1 h
    rw [below_cons, ih rest, components_join_name first, List.map_cons, List.append_assoc]
    rfl

/-- A path that ends in a valid name has no idle end. -/
theorem trim_below (h : ∀ name ∈ place, ValidName name) (ne : place ≠ []) :
    (p.below place).Trim := by
  obtain ⟨front, name, rfl⟩ := (List.eq_nil_or_concat place).resolve_left ne
  rw [List.concat_eq_append] at h ⊢
  have last := h name (by simp)
  rw [below_concat]
  refine trim_join (isAbsolute_of_validName last) fun t ht ↦ ?_
  rw [Text.splitOn_of_notMem last.slash] at ht
  obtain rfl : name = t := by simpa using ht
  simp [last.named]

/-- The path of a place below `p` leads to this place. -/
theorem target_below (h : ∀ name ∈ place, ValidName name) :
    (p.below place).target current = p.target current ++ place := by
  rw [target, components_below h, walk_append]
  change walk (p.target current) _ = _
  rw [walk_of_names (by simp) (by simp), names_map_name]

theorem plain_below (h : ∀ name ∈ place, ValidName name) (plain : p.Plain) :
    (p.below place).Plain := by
  rw [Plain, components_below h]
  simpa [Plain] using plain

end Path

namespace Files

namespace Node

/-- The entries of every directory are as they should be. -/
inductive Each (P : List Entry → Prop) : Node → Prop
  | file {content : ByteArray} : Each P (.file content)
  | dir {es : List Entry} (here : P es) (below : ∀ e ∈ es, Each P e.node) : Each P (.dir es)

/-- No two entries of a directory have the same name, and all names are valid. -/
def WellFormed : Node → Prop :=
  Each fun es ↦ (es.map Entry.name).Nodup ∧ ∀ e ∈ es, ValidName e.name

/-- All names are valid. -/
def Named : Node → Prop := Each fun es ↦ ∀ e ∈ es, ValidName e.name

/-- A weaker property holds of all directories as well. -/
theorem Each.mono {P Q : List Entry → Prop} {node : Node} (h : Each P node)
    (hPQ : ∀ es, P es → Q es) :
    Each Q node := by
  induction h with
  | file => exact .file
  | dir here _ ih => exact .dir (hPQ _ here) ih

theorem WellFormed.named {node : Node} (h : node.WellFormed) : node.Named := h.mono fun _ h ↦ h.2

/-- What a look-up finds is an entry of the directory. -/
theorem mem_of_childNamed? {name : String} {es : List Entry} {node : Node}
    (h : childNamed? name es = some node) : ⟨name, node⟩ ∈ es := by
  obtain ⟨⟨name', node⟩, he, rfl⟩ := Option.map_eq_some_iff.1 h
  obtain rfl : name' = name := by simpa using List.find?_some he
  exact List.mem_of_find?_eq_some he

/-- With names that differ, a look-up finds the entry itself. Without it the first of two
entries hides the second. -/
theorem childNamed?_of_mem {es : List Entry} (h : (es.map Entry.name).Nodup) {e : Entry}
    (he : e ∈ es) :
    childNamed? e.name es = some e.node := by
  induction es with
  | nil => cases he
  | cons e' es ih =>
    obtain ⟨new, nodup⟩ := List.nodup_cons.1 h
    rw [childNamed?_cons]
    rcases List.mem_cons.1 he with rfl | he
    · rw [if_pos rfl]
    · have differs : e'.name ≠ e.name := fun same ↦ new (same ▸ List.mem_map_of_mem he)
      rw [if_neg differs, ih nodup he]

/-- The property holds of every part of the tree. -/
theorem Each.get? {P : List Entry → Prop} {root node : Node} {q : Place} (h : Each P root)
    (hq : root.get? q = some node) : Each P node := by
  induction q generalizing root with
  | nil => 
    obtain rfl : root = node := by simpa using hq
    exact h
  | cons name q ih =>
    cases h with
    | file => cases hq
    | dir _ below =>
      obtain ⟨child, hc, hq⟩ := Option.bind_eq_some_iff.1 hq
      exact ih (below _ (mem_of_childNamed? hc)) hq

theorem WellFormed.get? {root node : Node} {q : Place} (h : root.WellFormed)
    (hq : root.get? q = some node) : node.WellFormed := Each.get? h hq

/-- All names on the way to a node are valid. -/
theorem Named.validName {root node : Node} {q : Place} (h : root.Named)
    (hq : root.get? q = some node) :
    ∀ name ∈ q, ValidName name := by
  induction q generalizing root with
  | nil => simp
  | cons name q ih =>
    cases h with
    | file => cases hq
    | dir here below =>
      obtain ⟨child, hc, hq⟩ := Option.bind_eq_some_iff.1 hq
      have he := mem_of_childNamed? hc
      exact List.forall_mem_cons.2 ⟨here _ he, ih (below _ he) hq⟩

/-- An entry of the changed directory is the new one or was there before. -/
theorem mem_putEntry {name : String} {node : Node} {e : Entry} {es : List Entry}
    (h : e ∈ putEntry name node es) : e = ⟨name, node⟩ ∨ e ∈ es := by
  induction es with
  | nil => exact .inl (List.mem_singleton.1 h)
  | cons e' es ih =>
    rw [putEntry] at h
    split at h
    · exact (List.mem_cons.1 h).imp_right (List.mem_cons_of_mem _)
    · split at h
      · exact List.mem_cons.1 h
      · rcases List.mem_cons.1 h with rfl | h
        · exact .inr List.mem_cons_self
        · exact (ih h).imp_right (List.mem_cons_of_mem _)

section changes

variable {root node : Node} {place : Place}

theorem Named.putEntry {es : List Entry} {name : String} (h : (dir es).Named) (hn : node.Named)
    (valid : ValidName name) : (dir (putEntry name node es)).Named := by
  cases h with
  | dir here below =>
    refine .dir (fun e he ↦ ?_) fun e he ↦ ?_
    · rcases mem_putEntry he with rfl | he
      · exact valid
      · exact here e he
    · rcases mem_putEntry he with rfl | he
      · exact hn
      · exact below e he

theorem Named.removeEntry {es : List Entry} {name : String} (h : (dir es).Named) :
    (dir (removeEntry name es)).Named := by
  cases h with
  | dir here below =>
    exact .dir (fun e he ↦ here e (List.mem_filter.1 he).1) fun e he ↦
      below e (List.mem_filter.1 he).1

/-- A change at a place keeps names valid when the change of its directory does. -/
theorem Named.alter {f : String → List Entry → List Entry} (h : root.Named)
    (valid : ∀ name ∈ place, ValidName name)
    (hf : ∀ name es, ValidName name → (dir es).Named → (dir (f name es)).Named) :
    (alter f place root).Named := by
  induction place generalizing root with
  | nil => rwa [alter_nil]
  | cons name r ih =>
    obtain ⟨first, rest⟩ := List.forall_mem_cons.1 valid
    cases root with
    | file => rwa [alter_file]
    | dir es =>
      by_cases ne : r = []
      · subst ne
        exact hf name es first h
      · rw [alter_cons ne]
        cases hc : childNamed? name es with
        | none => exact h
        | some child => 
          have below : child.Named := @Each.get? _ _ _ [name] h (by simp [hc])
          exact h.putEntry (ih below rest) first

theorem Named.put (h : root.Named) (hn : node.Named) (valid : ∀ name ∈ place, ValidName name) :
    (Node.put node place root).Named := by
  by_cases ne : place = []
  · rwa [ne, put_nil]
  · rw [put_eq_alter ne]
    exact h.alter valid fun name es valid h ↦ h.putEntry hn valid

theorem Named.remove (h : root.Named) (valid : ∀ name ∈ place, ValidName name) :
    (Node.remove place root).Named := by
  rw [remove_eq_alter]
  exact h.alter valid fun name es _ h ↦ h.removeEntry

end changes

/-! ## Listing -/

/-- The files of a directory are those of its entries, one after the other. -/
theorem filesFrom_dir (path : Path) (es : List Entry) :
    filesFrom path (.dir es) = es.flatMap fun e ↦ filesFrom (path.join ⟨e.name⟩) e.node := by
  rw [filesFrom]
  induction es with
  | nil => rfl
  | cons e es ih =>
    rw [filesFromEntries, ih, List.flatMap_cons]
    cases e
    rw [filesFromEntry]

/-- The files of a well-formed tree are listed by the names on the way to them. -/
theorem mem_filesFrom {node : Node} (wf : node.WellFormed) {path p : Path} :
    p ∈ filesFrom path node ↔ ∃ q content, node.get? q = some (.file content) ∧
      p = path.below q := by
  induction wf generalizing path with
  | @file content =>
    rw [filesFrom, List.mem_singleton]
    constructor
    · rintro rfl
      exact ⟨[], content, by simp, rfl⟩
    · rintro ⟨q, content, hq, rfl⟩
      cases q with
      | nil => rfl
      | cons => cases hq
  | @dir es here _ ih =>
    rw [filesFrom_dir, List.mem_flatMap]
    constructor
    · rintro ⟨e, he, hp⟩
      obtain ⟨q, content, hq, rfl⟩ := (ih e he).1 hp
      refine ⟨e.name :: q, content, ?_, rfl⟩
      rw [get?_cons_dir, childNamed?_of_mem here.1 he]
      exact hq
    · rintro ⟨q, content, hq, rfl⟩
      cases q with
      | nil => simp at hq
      | cons name q =>
        obtain ⟨child, hc, hq⟩ := Option.bind_eq_some_iff.1 hq
        have he := mem_of_childNamed? hc
        exact ⟨_, he, (ih _ he).2 ⟨q, content, hq, rfl⟩⟩

/-- A listed file is below the path that the listing starts from. -/
theorem exists_below_of_mem_filesFrom {node : Node} (named : node.Named) {path p : Path}
    (h : p ∈ filesFrom path node) : ∃ q, (∀ name ∈ q, ValidName name) ∧ p = path.below q := by
  induction named generalizing path with
  | file => exact ⟨[], by simp, List.mem_singleton.1 (by rwa [filesFrom] at h)⟩
  | dir here _ ih =>
    rw [filesFrom_dir, List.mem_flatMap] at h
    obtain ⟨e, he, hp⟩ := h
    obtain ⟨q, hq, rfl⟩ := ih e he hp
    exact ⟨e.name :: q, List.forall_mem_cons.2 ⟨here e he, hq⟩, rfl⟩

end Node

/-- Clearing takes names away only. -/
theorem named_clear {store : FileStore} {p : Path} (h : store.root.Named) :
    (clear p store).2.root.Named := by
  rw [clear_eq]
  split
  · exact h
  · split
    · exact h
    · rename_i node there
      have valid := h.validName there
      split_ifs
      · exact h.remove valid
      · exact h.put (.dir (by simp) (by simp)) valid

end Files

end PlatformOverlay
