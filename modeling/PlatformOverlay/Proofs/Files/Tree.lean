import PlatformOverlay.Files.Tree
import Mathlib.Data.List.Basic

/-!
# What is where in a file tree

`Node.look` tells what is at a place, what is in a directory aside.  A change at a place leaves
nodes that are neither above nor below it as they are (`get?_alter_of_disjoint`), and a node above
it is changed below (`get?_alter_append`); so nothing that is not at or below the place looks any
different (`look_put_of_not_below`, `look_remove_of_not_below`).

Putting a node and removing one are both changes of the entries of one directory (`put_eq_alter`),
so what they leave alone is proved once, for any change that is `Local` to a name. What they do at
the place itself is then a matter of the entries of this directory.
-/

namespace PlatformOverlay.Files

/-- What is at a place: a file, or a directory with whatever in it. -/
inductive Stub where
  | file (content : ByteArray)
  | dir

instance : DecidableEq Stub
  | .file a, .file b => decidable_of_iff (a.data = b.data)
    (by rw [Stub.file.injEq, ByteArray.ext_iff])
  | .file _, .dir | .dir, .file _ => .isFalse Stub.noConfusion
  | .dir, .dir => .isTrue rfl

section entries

variable {name other : String} {node : Node} {es : List Entry}

@[simp] theorem childNamed?_nil : childNamed? name [] = none := rfl

theorem childNamed?_cons {e : Entry} :
    childNamed? name (e :: es) = if e.name = name then some e.node else childNamed? name es := by
  rw [childNamed?, List.find?_cons]
  by_cases h : e.name = name <;> simp [h, childNamed?]

@[simp] theorem childNamed?_putEntry : childNamed? name (putEntry name node es) = some node := by
  induction es with
  | nil => simp [putEntry, childNamed?_cons]
  | cons e es ih =>
    rw [putEntry]
    split
    · simp [childNamed?_cons]
    · split
      · simp [childNamed?_cons]
      · rw [childNamed?_cons, if_neg ‹_›, ih]

theorem childNamed?_putEntry_of_ne (h : other ≠ name) :
    childNamed? other (putEntry name node es) = childNamed? other es := by
  induction es with
  | nil => simp [putEntry, childNamed?_cons, h.symm]
  | cons e es ih =>
    rw [putEntry]
    split
    · rename_i same
      simp [childNamed?_cons, same, h.symm]
    · split
      · simp [childNamed?_cons, h.symm]
      · rw [childNamed?_cons, childNamed?_cons, ih]

@[simp] theorem childNamed?_removeEntry : childNamed? name (removeEntry name es) = none := by
  simp [childNamed?, removeEntry, List.find?_filter]

theorem childNamed?_removeEntry_of_ne (h : other ≠ name) :
    childNamed? other (removeEntry name es) = childNamed? other es := by
  induction es with
  | nil => rfl
  | cons e es ih =>
    rw [removeEntry, List.filter_cons]
    split
    · rw [childNamed?_cons, childNamed?_cons, ← ih, removeEntry]
    · rename_i same
      have same : e.name = name := by simpa using same
      rw [childNamed?_cons, if_neg (same ▸ h.symm), ← ih, removeEntry]

end entries

namespace Node

def stub : Node → Stub
  | .file content => .file content
  | .dir _ => .dir

/-- What is at a place. -/
def look (root : Node) (place : Place) : Option Stub := (root.get? place).map stub

variable {root node : Node} {place q r : Place} {name : String} {es : List Entry}

@[simp] theorem get?_cons_dir :
    (dir es).get? (name :: r) = (childNamed? name es).bind (get? r) := rfl

/-- What is below a place is found from what is at the place. -/
theorem get?_append : root.get? (q ++ r) = (root.get? q).bind (get? r) := by
  induction q generalizing root with
  | nil => simp
  | cons name q ih =>
    cases root with
    | file => rfl
    | dir es =>
      rw [List.cons_append, get?_cons_dir, get?_cons_dir]
      cases childNamed? name es with
      | none => rfl
      | some child => exact ih

/-- A directory is at a place when a node with entries is found there. -/
theorem look_eq_dir : root.look q = some .dir ↔ ∃ es, root.get? q = some (.dir es) := by
  unfold look
  cases root.get? q with
  | none => simp
  | some node => cases node <;> simp [stub]

theorem look_eq_file {content : ByteArray} :
    root.look q = some (.file content) ↔ root.get? q = some (.file content) := by
  unfold look
  cases root.get? q with
  | none => simp
  | some node => cases node <;> simp [stub]

theorem look_eq_none : root.look q = none ↔ root.get? q = none := by simp [look]

/-- Something below a place makes it a directory. -/
theorem look_of_append (h : root.look (q ++ r) ≠ none) (hr : r ≠ []) : root.look q = some .dir := by
  obtain ⟨name, r, rfl⟩ := List.exists_cons_of_ne_nil hr
  rw [look, get?_append] at h
  rw [look_eq_dir]
  cases hq : root.get? q with
  | none => simp [hq] at h
  | some node =>
    cases node with
    | file => simp [hq, get?] at h
    | dir es => exact ⟨es, rfl⟩

/-- Above a directory there are directories. -/
theorem look_dir_of_above (h : root.look r = some .dir) (hq : q <+: r) :
    root.look q = some .dir := by
  obtain ⟨s, rfl⟩ := hq
  by_cases hs : s = []
  · simpa [hs] using h
  · exact look_of_append (by simp [h]) hs

/-! ## Changes at a place -/

/-- Change the entries of the directory in which a place lies. -/
def alter (f : String → List Entry → List Entry) : Place → Node → Node
  | [], node => node
  | _ :: _, .file content => .file content
  | [name], .dir entries => .dir (f name entries)
  | name :: rest, .dir entries =>
    match childNamed? name entries with
    | some child => .dir (putEntry name (alter f rest child) entries)
    | none => .dir entries

section alter

variable {f : String → List Entry → List Entry}

@[simp] theorem alter_nil : alter f [] node = node := by cases node <;> rfl

@[simp] theorem alter_file {content : ByteArray} : alter f place (file content) = file content := by
  cases place <;> rfl

@[simp] theorem alter_singleton : alter f [name] (dir es) = dir (f name es) := rfl

/-- A change further down is made in the child on the way, and nothing happens where there is
none. -/
theorem alter_cons (ne : r ≠ []) : alter f (name :: r) (dir es) =
    match childNamed? name es with
    | some child => dir (putEntry name (alter f r child) es)
    | none => dir es := by
  obtain ⟨next, r, rfl⟩ := List.exists_cons_of_ne_nil ne
  rfl

/-- A change below keeps a directory a directory. -/
@[simp] theorem stub_alter : (alter f place node).stub = node.stub := by
  cases node with
  | file => simp
  | dir es =>
    cases place with
    | nil => simp
    | cons name r =>
      by_cases ne : r = []
      · subst ne
        rfl
      · rw [alter_cons ne]
        cases childNamed? name es <;> rfl

/-- Putting and removing are both changes of the entries of one directory, so that what they
leave alone is proved once. -/
theorem put_eq_alter (ne : place ≠ []) :
    put node place root = alter (fun name ↦ putEntry name node) place root := by
  induction place generalizing root with
  | nil => exact absurd rfl ne
  | cons name r ih =>
    cases root with
    | file => rfl
    | dir es =>
      cases r with
      | nil => rfl
      | cons next r =>
        rw [alter_cons (by simp)]
        change (match childNamed? name es with
          | some child => dir (putEntry name (put node (next :: r) child) es)
          | none => dir es) = _
        cases childNamed? name es with
        | none => rfl
        | some child => exact congrArg (fun n ↦ dir (putEntry name n es)) (ih (by simp))

theorem remove_eq_alter : remove place root = alter removeEntry place root := by
  induction place generalizing root with
  | nil => cases root <;> rfl
  | cons name r ih =>
    cases root with
    | file => rfl
    | dir es =>
      cases r with
      | nil => rfl
      | cons next r =>
        rw [alter_cons (by simp)]
        change (match childNamed? name es with
          | some child => dir (putEntry name (remove (next :: r) child) es)
          | none => dir es) = _
        cases childNamed? name es with
        | none => rfl
        | some child => exact congrArg (fun n ↦ dir (putEntry name n es)) ih

/-- Only the entry of the name is changed. -/
def Local (f : String → List Entry → List Entry) : Prop :=
  ∀ name other es, other ≠ name → childNamed? other (f name es) = childNamed? other es

/-- The change of an entry keeps all other names of the directory. -/
theorem local_putEntry (node : Node) : Local fun name ↦ putEntry name node :=
  fun _ _ _ ↦ childNamed?_putEntry_of_ne

theorem local_removeEntry : Local removeEntry := fun _ _ _ ↦ childNamed?_removeEntry_of_ne

/-- Places that neither lie above the change nor below it have the same node. -/
theorem get?_alter_of_disjoint (hf : Local f) (below : ¬ place <+: q) (above : ¬ q <+: place) :
    (alter f place root).get? q = root.get? q := by
  induction place generalizing root q with
  | nil => exact absurd List.nil_prefix below
  | cons name r ih =>
    obtain ⟨other, q, rfl⟩ :=
      List.exists_cons_of_ne_nil fun e : q = [] ↦ above (e ▸ List.nil_prefix)
    cases root with
    | file => simp
    | dir es =>
      rw [List.cons_prefix_cons] at below above
      by_cases ne : r = []
      · subst ne
        have differs : other ≠ name := fun e ↦ below ⟨e.symm, List.nil_prefix⟩
        rw [alter_singleton, get?_cons_dir, get?_cons_dir, hf _ _ _ differs]
      · rw [alter_cons ne]
        cases hc : childNamed? name es with
        | none => rfl
        | some child =>
          rw [get?_cons_dir, get?_cons_dir]
          by_cases same : other = name
          · subst same
            rw [childNamed?_putEntry, hc]
            exact ih (fun h ↦ below ⟨rfl, h⟩) (fun h ↦ above ⟨rfl, h⟩)
          · rw [childNamed?_putEntry_of_ne same]

/-- A place above the change has the node it had, changed further down. -/
theorem get?_alter_append (ne : r ≠ []) :
    (alter f (q ++ r) root).get? q = (root.get? q).map (alter f r) := by
  induction q generalizing root with
  | nil => simp
  | cons name q ih =>
    cases root with
    | file => rfl
    | dir es =>
      rw [List.cons_append, alter_cons (by simp [ne]), get?_cons_dir]
      cases hc : childNamed? name es with
      | none =>
        dsimp only
        rw [get?_cons_dir, hc]
        rfl
      | some child =>
        dsimp only
        rw [get?_cons_dir, childNamed?_putEntry]
        exact ih

/-- Outside of what the change is about, the same thing is seen. Directories above it keep their
place though their entries change. -/
theorem look_alter_of_not_below (hf : Local f) (h : ¬ place <+: q) :
    (alter f place root).look q = root.look q := by
  by_cases above : q <+: place
  · obtain ⟨r, rfl⟩ := above
    have ne : r ≠ [] := fun e ↦ h (by simp [e])
    rw [look, look, get?_alter_append ne, Option.map_map]
    exact congrArg (Option.map · _) (funext fun node ↦ stub_alter)
  · rw [look, look, get?_alter_of_disjoint hf h above]

/-- Below the changed directory, its new entries decide. -/
theorem get?_alter_concat (h : root.get? q = some (dir es)) :
    (alter f (q ++ [name]) root).get? (q ++ name :: r) = (childNamed? name (f name es)).bind
    (get? r) := by
  rw [get?_append, get?_alter_append (by simp), h]
  rfl

end alter

/-- The directory in which the place lies is there. -/
def Based (root : Node) (place : Place) : Prop := place = [] ∨ root.look place.dropLast = some .dir

/-- Where something is, it lies in a directory. -/
theorem Based.of_look (h : root.look place ≠ none) : root.Based place := by
  rcases List.eq_nil_or_concat place with rfl | ⟨front, name, rfl⟩
  · exact .inl rfl
  · rw [List.concat_eq_append] at h ⊢
    exact .inr (by rw [List.dropLast_concat]; exact look_of_append h (by simp))

/-- At the place of a new node and below it, the new node is found. -/
theorem get?_put_append (h : root.Based place) :
    (put node place root).get? (place ++ q) = node.get? q := by
  rcases List.eq_nil_or_concat place with rfl | ⟨front, name, rfl⟩
  · simp
  · rw [List.concat_eq_append] at h ⊢
    obtain h | h := h
    · simp at h
    · rw [List.dropLast_concat] at h
      obtain ⟨es, h⟩ := look_eq_dir.1 h
      rw [put_eq_alter (by simp), List.append_assoc, List.singleton_append, get?_alter_concat h]
      simp

/-- At a place that was removed, and below it, nothing is found. -/
theorem get?_remove_append (ne : place ≠ []) : (remove place root).get? (place ++ q) = none := by
  rcases List.eq_nil_or_concat place with rfl | ⟨front, name, rfl⟩
  · exact absurd rfl ne
  · rw [List.concat_eq_append, remove_eq_alter, List.append_assoc, List.singleton_append]
    cases h : root.get? front with
    | none => rw [get?_append, get?_alter_append (by simp), h]; rfl
    | some node =>
      cases node with
      | file => rw [get?_append, get?_alter_append (by simp), h]; rfl
      | dir es => rw [get?_alter_concat h, childNamed?_removeEntry]; rfl

/-- Putting a node is seen at its place and below only. -/
theorem look_put_of_not_below (h : ¬ place <+: q) : (put node place root).look q = root.look q := by
  have ne : place ≠ [] := fun e ↦ h (e ▸ List.nil_prefix)
  rw [put_eq_alter ne, look_alter_of_not_below (local_putEntry node) h]

/-- Removing a node is seen at its place and below only. -/
theorem look_remove_of_not_below (h : ¬ place <+: q) :
    (remove place root).look q = root.look q := by
  rw [remove_eq_alter, look_alter_of_not_below local_removeEntry h]

theorem get?_put_of_disjoint (below : ¬ place <+: q) (above : ¬ q <+: place) :
    (put node place root).get? q = root.get? q := by
  have ne : place ≠ [] := fun e ↦ below (e ▸ List.nil_prefix)
  rw [put_eq_alter ne, get?_alter_of_disjoint (local_putEntry node) below above]

theorem get?_remove_of_disjoint (below : ¬ place <+: q) (above : ¬ q <+: place) :
    (remove place root).get? q = root.get? q := by
  rw [remove_eq_alter, get?_alter_of_disjoint local_removeEntry below above]

end Node

end PlatformOverlay.Files
