import PlatformOverlay.Imports.Union
import Mathlib.Data.List.Nodup

/-!
# The union of import lists

No two imports of a union have the same key (`eq_of_mem_union`), and a union is in order.  So
uniting it once more with a list that went into it changes nothing (`union_union`).
-/

namespace PlatformOverlay.Imports

variable {lines more : List ImportLine}

theorem firstOfEachKey_sublist (lines : List ImportLine) :
    (firstOfEachKey lines).Sublist lines := by
  induction lines with
  | nil => exact .slnil
  | cons line lines ih => exact (List.filter_sublist.trans ih).cons_cons line

/-- No two imports that are left have the same key. -/
theorem pairwise_firstOfEachKey (lines : List ImportLine) :
    (firstOfEachKey lines).Pairwise (·.key ≠ ·.key) := by
  induction lines with
  | nil => exact .nil
  | cons line lines ih =>
    refine .cons (fun other ho ↦ ?_) (ih.filter _)
    exact fun same ↦ of_decide_eq_true (List.mem_filter.1 ho).2 same.symm

theorem exists_mem_firstOfEachKey {line : ImportLine} (h : line ∈ lines) :
    ∃ first ∈ firstOfEachKey lines, first.key = line.key := by
  induction lines with
  | nil => simp at h
  | cons other lines ih =>
    by_cases same : other.key = line.key
    · exact ⟨other, List.mem_cons_self, same⟩
    · rcases List.mem_cons.1 h with rfl | h
      · exact absurd rfl same
      · obtain ⟨first, hf, hk⟩ := ih h
        refine ⟨first, List.mem_cons_of_mem _ (List.mem_filter.2 ⟨hf, ?_⟩), hk⟩
        exact decide_eq_true (hk ▸ Ne.symm same)

/-- Of a second list, only the new keys are added. -/
theorem firstOfEachKey_append (lines more : List ImportLine) :
    firstOfEachKey (lines ++ more) = firstOfEachKey lines ++
      (firstOfEachKey more).filter fun l ↦ !(lines.map (·.key)).contains l.key := by
  induction lines with
  | nil => exact (List.filter_eq_self.2 (by simp)).symm
  | cons line lines ih =>
    rw [List.cons_append, firstOfEachKey, ih, firstOfEachKey, List.filter_append,
      List.filter_filter,
      List.cons_append]
    congr 2
    refine List.filter_congr fun l _ ↦ ?_
    simp

/-- A list with different keys is left as it is. -/
theorem firstOfEachKey_eq_self (distinct : lines.Pairwise (·.key ≠ ·.key)) :
    firstOfEachKey lines = lines := by
  induction distinct with
  | nil => rfl
  | cons new _ ih =>
    rw [firstOfEachKey, ih, List.filter_eq_self.2]
    exact fun other ho ↦ decide_eq_true (new other ho).symm

/-! ## Order -/

/-- Static imports come last, and others of a kind are ordered by their statements. -/
theorem isAtMost_iff {a b : ImportLine} : a.isAtMost b = true ↔
    (a.isStatic = false ∧ b.isStatic = true) ∨
      (a.isStatic = b.isStatic ∧ a.statement ≤ b.statement) := by
  unfold ImportLine.isAtMost
  split
  next same =>
    rw [Bool.not_eq_true', decide_eq_false_iff_not, String.not_lt]
    constructor
    · exact fun le ↦ .inr ⟨same, le⟩
    · rintro (⟨ha, hb⟩ | ⟨-, le⟩)
      · rw [ha, hb] at same
        cases same
      · exact le
  next differ => cases ha : a.isStatic <;> cases hb : b.isStatic <;> simp_all

theorem isAtMost_trans (a b c : ImportLine) (h : a.isAtMost b = true) (h' : b.isAtMost c = true) :
    a.isAtMost c = true := by
  rw [isAtMost_iff] at h h' ⊢
  rcases h with ⟨ha, hb⟩ | ⟨ab, le⟩ <;> rcases h' with ⟨hb', hc⟩ | ⟨bc, le'⟩
  · exact .inl ⟨ha, hc⟩
  · exact .inl ⟨ha, bc ▸ hb⟩
  · exact .inl ⟨ab ▸ hb', hc⟩
  · exact .inr ⟨ab.trans bc, String.le_trans le le'⟩

/-- Any two imports are in order one way or the other, so that sorting puts every list in order. -/
theorem isAtMost_total (a b : ImportLine) : (a.isAtMost b || b.isAtMost a) = true := by
  rw [Bool.or_eq_true, isAtMost_iff, isAtMost_iff]
  by_cases same : a.isStatic = b.isStatic
  · exact (String.le_total a.statement b.statement).imp (.inr ⟨same, ·⟩) (.inr ⟨same.symm, ·⟩)
  · cases ha : a.isStatic <;> cases hb : b.isStatic <;> simp_all

/-! ## Unions -/

variable {primary secondary : List ImportLine}

/-- Sorting neither adds nor drops an import. -/
theorem mem_union_iff {line : ImportLine} :
    line ∈ union primary secondary ↔ line ∈ firstOfEachKey (primary ++ secondary) :=
  List.mem_mergeSort

/-- No two imports of the union have the same key. -/
theorem pairwise_union (primary secondary : List ImportLine) :
    (union primary secondary).Pairwise (·.key ≠ ·.key) :=
  (pairwise_firstOfEachKey _).perm (List.mergeSort_perm _ _).symm Ne.symm

theorem isAtMost_union (primary secondary : List ImportLine) :
    (union primary secondary).Pairwise (·.isAtMost ·) :=
  List.pairwise_mergeSort isAtMost_trans isAtMost_total _

/-- An import of the union is given by its key. -/
theorem eq_of_mem_union {i j : ImportLine} (hi : i ∈ union primary secondary)
    (hj : j ∈ union primary secondary) (same : i.key = j.key) : i = j :=
  List.inj_on_of_nodup_map (List.pairwise_map.2 (pairwise_union primary secondary)) hi hj same

theorem mem_of_mem_union {line : ImportLine} (h : line ∈ union primary secondary) :
    line ∈ primary ∨ line ∈ secondary :=
  List.mem_append.1 ((firstOfEachKey_sublist _).subset (mem_union_iff.1 h))

/-- The union has an import for every key of both lists. -/
theorem exists_mem_union {line : ImportLine} (h : line ∈ primary ∨ line ∈ secondary) :
    ∃ first ∈ union primary secondary, first.key = line.key := by
  obtain ⟨first, hf, hk⟩ := exists_mem_firstOfEachKey (List.mem_append.2 h)
  exact ⟨first, mem_union_iff.2 hf, hk⟩

/-- A union takes in nothing more from imports whose keys it has. -/
theorem union_eq_left {more : List ImportLine}
    (known : ∀ line ∈ more, ∃ first ∈ union primary secondary, first.key = line.key) :
    union (union primary secondary) more = union primary secondary := by
  have nothing : (firstOfEachKey more).filter
      (fun l ↦ !((union primary secondary).map (·.key)).contains l.key) = [] := by
    rw [List.filter_eq_nil_iff]
    intro line hl
    obtain ⟨first, hf, hk⟩ := known line ((firstOfEachKey_sublist more).subset hl)
    simpa using ⟨first, hf, hk⟩
  have first : firstOfEachKey (union primary secondary ++ more) = union primary secondary := by
    rw [firstOfEachKey_append, nothing, List.append_nil,
      firstOfEachKey_eq_self (pairwise_union primary secondary)]
  rw [union, first, List.mergeSort_of_pairwise (isAtMost_union primary secondary)]

/-- Adding the same list once more changes nothing. -/
theorem union_union (primary secondary : List ImportLine) :
    union (union primary secondary) secondary = union primary secondary :=
  union_eq_left fun _ hl ↦ exists_mem_union (.inr hl)

end PlatformOverlay.Imports
