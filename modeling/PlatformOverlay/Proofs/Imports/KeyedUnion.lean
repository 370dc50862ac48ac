import PlatformOverlay.Proofs.Imports.Statement
import PlatformOverlay.Proofs.Imports.Union

/-!
# The union as a keyed union

A union holds for each key the first import with it (`filter_union`).  The key of an import that
comes out of a line can be written as one text: a simple name has no blank and no star in it, so
static imports and wildcards stay apart (`keyText_eq_iff`).  A line with an equal statement states
the same import, so the order of a union is strict (`isBefore_union`), and a union is determined by
the first import of each key alone.

From this, and not from how the union is computed, the rest follows:

* the order of the imports that went in counts only among those of one key (`Reordered`), since the
  others do not compete;
* a union takes in nothing from the lists that it was made of, nor from itself, since it has
  one for each of their keys.
-/

namespace PlatformOverlay.Imports

namespace ImportLine

/-- An import that comes out of a line. -/
def IsRead (i : ImportLine) : Prop := ∃ line, parse? line = some i

/-- The simple name, or the path of a wildcard with its star. -/
def keyName (i : ImportLine) : String := if i.isWildcard then i.path ++ ".*" else i.reference

/-- The key as one text. -/
def keyText (i : ImportLine) : String := if i.isStatic then "static " ++ i.keyName else i.keyName

/-- Static imports stand behind the others; those of one kind are ordered by their statements. -/
def IsBefore (a b : ImportLine) : Prop :=
  a.isStatic < b.isStatic ∨ a.isStatic = b.isStatic ∧ a.statement < b.statement

end ImportLine

/-! ## Keys as texts -/

/-- The name in a key is a dotted name, with a star behind it if the import is a wildcard. -/
theorem exists_keyName {i : ImportLine} (h : i.IsRead) : ∃ dotted, isDottedName dotted = true ∧
    i.keyName.toList = dotted ++ if i.isWildcard then ['.', '*'] else [] := by
  obtain ⟨line, hline⟩ := h
  obtain ⟨gap, written, behind, -, path, reference, hq, rfl⟩ := parse?_eq_some.1 hline
  obtain ⟨outer, houter, ⟨rfl, e⟩ | ⟨hname, -⟩⟩ := qualifiedName?_eq_some hq
  · exact ⟨outer, houter, by simp [ImportLine.keyName, ImportLine.isWildcard, e]⟩
  · have single : reference ≠ "*" := by
      rintro rfl
      exact absurd hname (by decide)
    refine ⟨reference.toList, ?_, by simp [ImportLine.keyName, ImportLine.isWildcard, single]⟩
    simpa using @isDottedName_intercalate [reference.toList] (by simp) (by simpa using hname)

/-- A key name has a star in it when the import is a wildcard: a name that is read has none. -/
theorem star_mem_keyName {i : ImportLine} (h : i.IsRead) :
    '*' ∈ i.keyName.toList ↔ i.isWildcard = true := by
  obtain ⟨dotted, hdotted, e⟩ := exists_keyName h
  have noStar : '*' ∉ dotted := fun hm ↦
    absurd (List.all_eq_true.1 (isPathChar_of_isDottedName hdotted) _ hm) (by decide)
  rw [e, List.mem_append, or_iff_right noStar]
  cases i.isWildcard <;> simp

theorem blank_notMem_keyName {i : ImportLine} (h : i.IsRead) : ' ' ∉ i.keyName.toList := by
  obtain ⟨dotted, hdotted, e⟩ := exists_keyName h
  have noBlank : ' ' ∉ dotted := fun hm ↦
    absurd (List.all_eq_true.1 (isPathChar_of_isDottedName hdotted) _ hm) (by decide)
  rw [e, List.mem_append, or_iff_right noBlank]
  cases i.isWildcard <;> simp

/-- The only blank of a key text stands behind `static`. -/
theorem blank_mem_keyText {i : ImportLine} (h : i.IsRead) :
    ' ' ∈ i.keyText.toList ↔ i.isStatic = true := by
  rw [ImportLine.keyText]
  cases i.isStatic with
  | false => simpa using blank_notMem_keyName h
  | true => simp

variable {a b : ImportLine}

/-- The key text is taken apart at its first blank, so that equal texts come from equal parts. -/
theorem keyName_eq_of_keyText_eq (ha : a.IsRead) (hb : b.IsRead) (same : a.keyText = b.keyText) :
    a.isStatic = b.isStatic ∧ a.keyName = b.keyName := by
  have kind : a.isStatic = b.isStatic := by
    rw [Bool.eq_iff_iff, ← blank_mem_keyText ha, ← blank_mem_keyText hb, same]
  refine ⟨kind, ?_⟩
  rw [ImportLine.keyText, ImportLine.keyText, ← kind] at same
  split at same
  · exact String.toList_inj.1 (by simpa using congrArg String.toList same)
  · exact same

/-- Imports that come out of lines have one key text exactly if they have one key. -/
theorem keyText_eq_iff (ha : a.IsRead) (hb : b.IsRead) : a.keyText = b.keyText ↔ a.key = b.key := by
  constructor
  · intro same
    obtain ⟨kind, name⟩ := keyName_eq_of_keyText_eq ha hb same
    have wildcard : a.isWildcard = b.isWildcard := by
      rw [Bool.eq_iff_iff, ← star_mem_keyName ha, ← star_mem_keyName hb, name]
    rw [ImportLine.keyName, ImportLine.keyName, ← wildcard] at name
    rw [ImportLine.key, ImportLine.key, ← kind, ← wildcard]
    split at name
    next star =>
      have path : a.path = b.path :=
        String.toList_inj.1 (by simpa using congrArg String.toList name)
      rw [path, if_pos star, if_pos star]
    next single => rw [name, if_neg single, if_neg single]
  · intro same
    simp only [ImportLine.key, ImportKey.mk.injEq] at same
    obtain ⟨kind, wildcard, name⟩ := same
    rw [ImportLine.keyText, ImportLine.keyText, ImportLine.keyName, ImportLine.keyName,
      ← kind, ← wildcard]
    rw [← wildcard] at name
    split at name <;> simp_all

/-! ## One import for each key -/

/-- The first of each key is the one that a look-up finds. -/
theorem find?_firstOfEachKey (lines : List ImportLine) (key : ImportKey) :
    (firstOfEachKey lines).find? (·.key = key) = lines.find? (·.key = key) := by
  induction lines with
  | nil => rfl
  | cons line lines ih =>
    rw [firstOfEachKey, List.find?_cons, List.find?_cons]
    by_cases found : line.key = key
    · simp [found]
    · simp only [found, decide_false]
      rw [List.find?_filter, ← ih]
      congr 1
      funext other
      by_cases same : other.key = key
      · simp [same, Ne.symm found]
      · simp [same]

/-- With different keys, at most one import has a key. -/
theorem filter_eq_find? {lines : List ImportLine} (distinct : lines.Pairwise (·.key ≠ ·.key))
    (key : ImportKey) : lines.filter (·.key = key) = (lines.find? (·.key = key)).toList := by
  induction distinct with
  | nil => rfl
  | @cons line lines new _ ih =>
    by_cases found : line.key = key
    · have others : lines.filter (·.key = key) = [] := by
        simpa [List.filter_eq_nil_iff] using fun other ho same ↦
          new other ho (found.trans same.symm)
      simp [found, others]
    · simpa [found] using ih

/-- For each key a union holds the first import with it in the first list, or else in the second. -/
theorem filter_union (primary secondary : List ImportLine) (key : ImportKey) :
    (union primary secondary).filter (·.key = key) =
      ((primary.find? (·.key = key)).or (secondary.find? (·.key = key))).toList := by
  have same : (union primary secondary).filter (·.key = key) =
      (firstOfEachKey (primary ++ secondary)).filter (·.key = key) := by
    have sorted : (union primary secondary).Perm (firstOfEachKey (primary ++ secondary)) :=
      List.mergeSort_perm _ _
    have perm := sorted.filter (·.key = key)
    rw [filter_eq_find? (pairwise_firstOfEachKey _)] at perm ⊢
    -- a list with one entry at most has no other order
    cases h : (firstOfEachKey (primary ++ secondary)).find? (·.key = key) with
    | none => rw [h] at perm; exact perm.eq_nil
    | some first => rw [h] at perm; exact perm.eq_singleton
  rw [same, filter_eq_find? (pairwise_firstOfEachKey _), find?_firstOfEachKey, List.find?_append]

variable {primary secondary : List ImportLine}

/-- Every import of the union was read from one of the texts. -/
theorem isRead_of_mem_union (hp : ∀ i ∈ primary, i.IsRead) (hs : ∀ i ∈ secondary, i.IsRead) :
    ∀ i ∈ union primary secondary, i.IsRead :=
  fun i hi ↦ (mem_of_mem_union hi).elim (hp i) (hs i)

/-- On imports that are read, the key and its text distinguish the same ones. -/
theorem filter_keyText {lines : List ImportLine} (h : ∀ i ∈ lines, i.IsRead) (ha : a.IsRead) :
    lines.filter (·.keyText = a.keyText) = lines.filter (·.key = a.key) :=
  List.filter_congr fun i hi ↦ decide_eq_decide.2 (keyText_eq_iff (h i hi) ha)

/-- The union has for every key the first import of the first list, and failing that of the
second. -/
theorem filter_keyText_union (hp : ∀ i ∈ primary, i.IsRead) (hs : ∀ i ∈ secondary, i.IsRead)
    (key : String) : (union primary secondary).filter (·.keyText = key) =
      ((primary.find? (·.keyText = key)).or (secondary.find? (·.keyText = key))).toList := by
  simp only [← List.head?_filter]
  by_cases occurs : ∃ a : ImportLine, a.IsRead ∧ a.keyText = key
  · obtain ⟨a, ha, rfl⟩ := occurs
    rw [filter_keyText (isRead_of_mem_union hp hs) ha, filter_keyText hp ha, filter_keyText hs ha,
      filter_union, List.head?_filter, List.head?_filter]
  · have nothing {lines : List ImportLine} (h : ∀ i ∈ lines, i.IsRead) :
        lines.filter (·.keyText = key) = [] :=
      List.filter_eq_nil_iff.2 fun i hi found ↦ occurs ⟨i, h i hi, of_decide_eq_true found⟩
    rw [nothing (isRead_of_mem_union hp hs), nothing hp, nothing hs]
    rfl

/-! ## The order is strict -/

/-- Imports with different keys that are in weak order are in strict order, since equal
statements have equal keys. -/
theorem isBefore_of_isAtMost (ha : a.IsRead) (hb : b.IsRead) (le : a.isAtMost b = true)
    (differ : a.key ≠ b.key) : a.IsBefore b := by
  rcases isAtMost_iff.1 le with ⟨hs, hs'⟩ | ⟨kind, le⟩
  · exact .inl (by rw [hs, hs']; decide)
  · refine .inr ⟨kind, String.not_le.1 fun ge ↦ differ ?_⟩
    obtain ⟨line, hline⟩ := ha
    obtain ⟨line', hline'⟩ := hb
    have same : some a = some b := by
      rw [← parse?_statement hline, ← parse?_statement hline', String.le_antisymm le ge]
    rw [Option.some.inj same]

/-- The union is strictly ordered: static imports come last, and the statements grow. -/
theorem isBefore_union (hp : ∀ i ∈ primary, i.IsRead) (hs : ∀ i ∈ secondary, i.IsRead) :
    (union primary secondary).Pairwise ImportLine.IsBefore := by
  have read := isRead_of_mem_union hp hs
  refine ((isAtMost_union primary secondary).and (pairwise_union primary secondary)).imp_of_mem ?_
  exact fun ha hb h ↦ isBefore_of_isAtMost (read _ ha) (read _ hb) h.1 h.2

theorem ImportLine.IsBefore.asymm (h : a.IsBefore b) : ¬b.IsBefore a := by
  rintro (h' | ⟨kind, h'⟩) <;> rcases h with h | ⟨kind', h⟩
  · exact absurd h' (Bool.lt_asymm h)
  · rw [kind'] at h'
    exact absurd h' (Bool.lt_irrefl _)
  · rw [kind] at h
    exact absurd h (Bool.lt_irrefl _)
  · exact String.lt_asymm h h'

/-- No import of a strictly ordered list is repeated. -/
theorem nodup_of_isBefore {lines : List ImportLine} (h : lines.Pairwise ImportLine.IsBefore) :
    lines.Nodup :=
  h.imp fun before same ↦ (same ▸ before).asymm (same ▸ before)

/-! ## The order of the imports that went in -/

/-- The same imports with the same order among those of one key. -/
def Reordered (lines more : List ImportLine) : Prop :=
  ∀ key, more.filter (·.keyText = key) = lines.filter (·.keyText = key)

theorem Reordered.mem_iff {lines more : List ImportLine} (h : Reordered lines more)
    {i : ImportLine} :
    i ∈ more ↔ i ∈ lines := by
  have same :
      i ∈ more.filter (·.keyText = i.keyText) ↔ i ∈ lines.filter (·.keyText = i.keyText) := by
    rw [h]
  simpa using same

theorem Reordered.refl (lines : List ImportLine) : Reordered lines lines :=
  fun _ ↦ rfl

/-- Imports of different keys may stand in any order. -/
theorem Reordered.of_perm {lines more : List ImportLine} (perm : more.Perm lines)
    (distinct : lines.Pairwise (·.keyText ≠ ·.keyText)) : Reordered lines more := by
  intro key
  have same := perm.filter (·.keyText = key)
  have apart := distinct.filter (·.keyText = key)
  have all : ∀ i ∈ lines.filter (·.keyText = key), i.keyText = key :=
    fun i hi ↦ of_decide_eq_true (List.mem_filter.1 hi).2
  match h : lines.filter (·.keyText = key) with
  | [] => rw [h] at same ⊢; exact same.eq_nil
  | [first] => rw [h] at same ⊢; exact same.eq_singleton
  | first :: second :: rest =>
    rw [h] at apart all
    have differ := List.rel_of_pairwise_cons apart List.mem_cons_self
    exact absurd ((all first (by simp)).trans (all second (by simp)).symm) differ

/-- The union does not depend on the order of the lists, except for the order among imports of
one key. -/
theorem union_reordered {primary' secondary' : List ImportLine} (hp : ∀ i ∈ primary, i.IsRead)
    (hs : ∀ i ∈ secondary, i.IsRead) (hp' : Reordered primary primary')
    (hs' : Reordered secondary secondary') :
    union primary' secondary' = union primary secondary := by
  have read : ∀ i ∈ primary', i.IsRead := fun i hi ↦ hp i (hp'.mem_iff.1 hi)
  have read' : ∀ i ∈ secondary', i.IsRead := fun i hi ↦ hs i (hs'.mem_iff.1 hi)
  have order := isBefore_union hp hs
  have order' := isBefore_union read read'
  have same : Reordered (union primary secondary) (union primary' secondary') := by
    intro key
    rw [filter_keyText_union hp hs, filter_keyText_union read read']
    simp only [← List.head?_filter, hp' key, hs' key]
  have perm : (union primary' secondary').Perm (union primary secondary) :=
    (List.perm_ext_iff_of_nodup (nodup_of_isBefore order') (nodup_of_isBefore order)).2
      fun _ ↦ same.mem_iff
  exact perm.eq_of_pairwise (fun _ _ _ _ h h' ↦ absurd h' h.asymm) order' order

/-- A union of imports that come out of lines is strictly ordered and holds exactly the first import
of each key, those of the first list before those of the second.  It takes in nothing from what
went into it, and the order of imports with different keys does not matter to it. -/
theorem union_keyed (hp : ∀ i ∈ primary, i.IsRead) (hs : ∀ i ∈ secondary, i.IsRead) :
    (union primary secondary).Pairwise ImportLine.IsBefore ∧
    (∀ key, (union primary secondary).filter (·.keyText = key) =
      ((primary.find? (·.keyText = key)).or (secondary.find? (·.keyText = key))).toList) ∧
    (union (union primary secondary) primary = union primary secondary ∧
      union (union primary secondary) secondary = union primary secondary ∧
      union (union primary secondary) (union primary secondary) = union primary secondary) ∧
    ∀ primary' secondary', Reordered primary primary' → Reordered secondary secondary' →
      union primary' secondary' = union primary secondary := by
  refine ⟨isBefore_union hp hs, filter_keyText_union hp hs, ⟨?_, union_union _ _, ?_⟩,
    fun primary' secondary' ↦ union_reordered hp hs⟩
  · exact union_eq_left fun _ hl ↦ exists_mem_union (.inl hl)
  · exact union_eq_left fun line hl ↦ ⟨line, hl, rfl⟩

/-- The first list wins the conflict about `B`, and the static `B` stays beside it. -/
theorem union_keyed_conflict :
    let primary := importsOf "import x.B;\nimport static y.B;\n"
    let secondary := importsOf "import z.B;\nimport z.*;\n"
    let held key := (union primary secondary).filter (·.keyText = key)
    ((∀ i ∈ primary, i.IsRead) ∧ ∀ i ∈ secondary, i.IsRead) ∧
      held "B" = [⟨"import x.B;", "x.B", "B", false⟩] ∧
      held "static B" = [⟨"import static y.B;", "y.B", "B", true⟩] ∧
      held "z.*" = [⟨"import z.*;", "z", "*", false⟩] ∧ held "static z.*" = [] ∧
      union primary.reverse secondary = union primary secondary := by
  intro primary secondary held
  have read (text : String) : ∀ i ∈ importsOf text, i.IsRead := fun i hi ↦
    (List.mem_filterMap.1 hi).imp fun _ ↦ And.right
  obtain ⟨-, first, -, order⟩ := union_keyed (read "import x.B;\nimport static y.B;\n")
    (read "import z.B;\nimport z.*;\n")
  refine ⟨⟨read _, read _⟩, (first "B").trans ?_, (first "static B").trans ?_,
    (first "z.*").trans ?_,
    (first "static z.*").trans ?_, order _ _ (.of_perm (List.reverse_perm _) ?_) (.refl _)⟩
  all_goals decide +kernel

end PlatformOverlay.Imports
