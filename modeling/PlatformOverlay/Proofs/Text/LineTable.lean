import PlatformOverlay.Proofs.Text.LineFeeds

/-!
# Line starts in 32-bit words

The line starts of a text as an array of words that is searched by halving (`partitionPoint`). The
line that the search gives is checked to be in the table, and the subtraction that gives the column
not to go below zero (`LineTable.lineCol?`).  In a text of less than `2 ^ 32` bytes all line starts
are words, no check fails, and the answer for an offset is its position (`map_lineCol?`).

The search is described by the place where it ends: `IsPartition` says of a number that the
predicate holds in front of it and nowhere behind, and there is just one such number in the window
of each turn (`partitionFrom_eq`). Line starts ascend, so the predicate of being at most the offset
is of this form.

What a position is, is said of the bytes of the text in `PlatformOverlay.Proofs.Text.LineFeeds`.
Offsets may be any words. Those that lie inside a character or behind the end of the text have a
position as well, which is the one that their line gives them.
-/

namespace PlatformOverlay.Text

/-! ## Search by halving -/

section

variable {α : Type} (as : Array α) (holds : α → Bool)

/-- The end of the front part of `as` for which the predicate holds, if it is among the given
number of elements from `base` on or right behind them. -/
def partitionFrom (base size : Nat) (bound : base + size ≤ as.size) : Nat :=
  if several : 1 < size then
    if holds as[base + size / 2] then
      partitionFrom (base + size / 2) (size - size / 2) (by omega)
    else partitionFrom base (size - size / 2) (by omega)
  else if single : size = 1 then
    if holds as[base] then base + 1 else base
  else base
termination_by size

/-- The number of elements in front for which the predicate holds, if it holds for none behind
them. -/
def partitionPoint : Nat := partitionFrom as holds 0 as.size (by omega)

/-- The predicate holds for the elements in front of `n`, and for no others. -/
def IsPartition (n : Nat) : Prop := ∀ i (h : i < as.size), holds as[i] = true ↔ i < n

variable {as holds}

/-- The search keeps the point it looks for within its window, so the window of size zero it
ends in is this point. -/
theorem partitionFrom_eq {n base size : Nat} (parts : IsPartition as holds n)
    (bound : base + size ≤ as.size) (le : base ≤ n) (within : n ≤ base + size) :
    partitionFrom as holds base size bound = n := by
  -- Each half that is kept has `n` in it or right behind it.
  induction size using Nat.strong_induction_on generalizing base with
  | _ size ih =>
    rw [partitionFrom]
    split
    next several =>
      have middle := parts (base + size / 2) (by omega)
      split
      next here => exact ih _ (by omega) _ (by have := middle.1 here; omega) (by omega)
      next gone => exact ih _ (by omega) _ le (by have := mt middle.2 gone; omega)
    next few =>
      split
      next single =>
        have first := parts base (by omega)
        split
        next here => have := first.1 here; omega
        next gone => have := mt first.2 gone; omega
      next => omega

/-- On an array that a predicate splits in two, the search finds the place of the split. -/
theorem partitionPoint_eq {n : Nat} (parts : IsPartition as holds n) (le : n ≤ as.size) :
    partitionPoint as holds = n :=
  partitionFrom_eq parts _ (Nat.zero_le n) (by omega)

/-- Where the predicate holds in front of every element that it holds for, those for which it holds
are the ones that are taken while it does. -/
theorem lt_length_takeWhile_iff {holds : α → Bool} {as : List α}
    (mono : as.Pairwise fun a b ↦ holds b = true → holds a = true) {i : Nat} (h : i < as.length) :
    i < (as.takeWhile holds).length ↔ holds as[i] = true := by
  induction as generalizing i with
  | nil => cases h
  | cons a as ih =>
    obtain ⟨first, rest⟩ := List.pairwise_cons.1 mono
    by_cases here : holds a = true
    · rw [List.takeWhile_cons_of_pos here]
      cases i with
      | zero => simpa using here
      | succ i => simpa using ih rest (Nat.lt_of_succ_lt_succ h)
    · rw [List.takeWhile_cons_of_neg here]
      cases i with
      | zero => simpa using here
      | succ i => simpa using mt (first _ (List.getElem_mem (Nat.lt_of_succ_lt_succ h))) here

end

/-! ## The table of a text -/

/-- A line and a column in words, both counted from zero. -/
structure LineCol where
  line : UInt32
  column : UInt32
deriving DecidableEq, Repr

def LineCol.position (p : LineCol) : Position := ⟨p.line.toNat, p.column.toNat⟩

structure LineTable where
  starts : Array UInt32

namespace LineTable

def ofText (text : String) : LineTable :=
  ⟨((LineIndex.ofText text).starts.map UInt32.ofNat).toArray⟩

/-- Look up an offset; `none` if the table does not have the line that is found, or the line starts
behind the offset. -/
def lineCol? (table : LineTable) (offset : UInt32) : Option LineCol :=
  let line := partitionPoint table.starts (· ≤ offset) - 1
  table.starts[line]?.bind fun start ↦
    if start ≤ offset then some ⟨UInt32.ofNat line, offset - start⟩ else none

end LineTable

section

variable {text : String} (small : text.utf8ByteSize < 2 ^ 32)

include small

/-- No start of the table is cut by storing it in 32 bits, since the text is shorter than `2 ^
32` bytes. -/
theorem toNat_ofNat_of_mem_starts {start : Nat} (h : start ∈ (LineIndex.ofText text).starts) :
    (UInt32.ofNat start).toNat = start := by
  have := le_of_mem_starts h
  rw [UInt32.toNat_ofNat']
  omega

/-- The search over the stored starts counts the starts up to the offset, one more than the line
of the offset. -/
theorem partitionPoint_ofText (offset : UInt32) :
    partitionPoint (LineTable.ofText text).starts (· ≤ offset) =
      ((LineIndex.ofText text).position offset.toNat).line + 1 := by
  have passed : ((LineIndex.ofText text).starts.takeWhile (· ≤ offset.toNat)).length =
      ((LineIndex.ofText text).position offset.toNat).line + 1 := by
    rw [LineIndex.starts, List.takeWhile_cons_of_pos (by simp)]
    rfl
  rw [← passed]
  refine partitionPoint_eq (fun i h ↦ ?_) ?_
  · have inside : i < (LineIndex.ofText text).starts.length := by simpa [LineTable.ofText] using h
    have ascending : (LineIndex.ofText text).starts.Pairwise fun a b ↦
        decide (b ≤ offset.toNat) = true → decide (a ≤ offset.toNat) = true :=
      (pairwise_starts text).imp fun less h ↦
        decide_eq_true (less.le.trans (of_decide_eq_true h))
    rw [lt_length_takeWhile_iff ascending inside]
    simp [LineTable.ofText, UInt32.le_iff_toNat_le,
      toNat_ofNat_of_mem_starts small (List.getElem_mem inside)]
  · simpa [LineTable.ofText] using (List.takeWhile_sublist _).length_le

/-- No check fails, and the position of the offset is found. -/
theorem map_lineCol? (offset : UInt32) :
    ((LineTable.ofText text).lineCol? offset).map LineCol.position =
      some ((LineIndex.ofText text).position offset.toNat) := by
  obtain ⟨start, -, found, sum⟩ := exists_beginsLastLine text offset.toNat
  have word := toNat_ofNat_of_mem_starts small (List.mem_of_getElem? found)
  have line : ((LineIndex.ofText text).position offset.toNat).line < 2 ^ 32 := by
    rw [line_position]
    exact List.count_le_length.trans_lt
      ((List.length_take_le' _ _).trans_lt (by rwa [length_bytes]))
  have column : offset.toNat - start = ((LineIndex.ofText text).position offset.toNat).column := by
    omega
  have inTable : (LineTable.ofText text).starts[
      ((LineIndex.ofText text).position offset.toNat).line]? = some (UInt32.ofNat start) := by
    simp [LineTable.ofText, found]
  have le : UInt32.ofNat start ≤ offset := by
    rw [UInt32.le_iff_toNat_le, word]
    omega
  rw [LineTable.lineCol?, partitionPoint_ofText small, Nat.add_sub_cancel, inTable,
    Option.bind_some, if_pos le, Option.map_some, LineCol.position, UInt32.toNat_sub_of_le _ _ le,
    word, UInt32.toNat_ofNat_of_lt' line, column]

end

/-- In a text of less than `2 ^ 32` bytes every offset has a position, also one inside a character
or past the end: the line counts the line feeds among the bytes in front of it, and the column adds
up to it with the start of that line, which is behind the last of them or where the text begins.
Positions are in the order of the offsets, and between characters they are where reading the text
in front leads. -/
theorem positions_count_lineFeeds (text : String) (small : text.utf8ByteSize < 2 ^ 32) :
    (∀ offset : UInt32, ((LineTable.ofText text).lineCol? offset).map LineCol.position =
      some ((LineIndex.ofText text).position offset.toNat)) ∧
    (∀ offset : Nat,
      let front := (bytes text).take (min offset text.utf8ByteSize)
      let p := (LineIndex.ofText text).position offset
      p.line = front.count lineFeed ∧ ∃ start, BeginsLastLine front start ∧
        (LineIndex.ofText text).starts[p.line]? = some start ∧ start + p.column = offset) ∧
    (StrictMono fun offset ↦ toLex (((LineIndex.ofText text).position offset).line,
      ((LineIndex.ofText text).position offset).column)) ∧
    ∀ front back, text = front ++ back →
      (LineIndex.ofText text).position front.utf8ByteSize = Position.origin.advance front := by
  refine ⟨map_lineCol? small, fun offset ↦ ?_, strictMono_position text, ?_⟩
  · rw [← length_bytes, ← List.take_eq_take_min]
    exact ⟨line_position text offset, exists_beginsLastLine text offset⟩
  · rintro front back rfl
    exact position_ofText front back

/-- Offsets on both sides of a line feed, and one past the end. -/
theorem positions_count_lineFeeds_accents :
    "é\n€".utf8ByteSize < 2 ^ 32 ∧ "é\n€" = "é" ++ "\n€" ∧
    ((LineTable.ofText "é\n€").lineCol? 2).map LineCol.position =
      some (Position.origin.advance "é") ∧
    ((LineTable.ofText "é\n€").lineCol? 3).map LineCol.position = some ⟨1, 0⟩ ∧
    ((LineTable.ofText "é\n€").lineCol? 9).map LineCol.position = some ⟨1, 6⟩ ∧
    toLex ((Position.origin.advance "é").line, (Position.origin.advance "é").column) <
      toLex (1, 0) := by
  have small : "é\n€".utf8ByteSize < 2 ^ 32 := by decide +kernel
  have split : "é\n€" = "é" ++ "\n€" := by decide +kernel
  obtain ⟨found, -, increasing, reached⟩ := positions_count_lineFeeds "é\n€" small
  have before : (LineIndex.ofText "é\n€").position 2 = Position.origin.advance "é" :=
    reached "é" "\n€" split
  have behind : (LineIndex.ofText "é\n€").position 3 = ⟨1, 0⟩ := by decide +kernel
  have past : (LineIndex.ofText "é\n€").position 9 = ⟨1, 6⟩ := by decide +kernel
  refine ⟨small, split, (found 2).trans (congrArg some before),
    (found 3).trans (congrArg some behind), (found 9).trans (congrArg some past), ?_⟩
  simpa only [before, behind] using increasing (show 2 < 3 by decide)

end PlatformOverlay.Text
