import Mathlib.Data.List.DropRight
import PlatformOverlay.Proofs.Java.Reindent.Tokens

/-!
# The value of a re-indented text block

The string that a text block stands for has its lines without the indentation that they share and
without the white space at their ends.  To indent all lines alike does not change it
(`valueOf_indent`), but re-indenting takes from each line what it has, up to the column: the string
stays the same exactly if no line that is not blank comes to stand deeper or less deep among the
others (`Shifted.movedBlock`).

`value?` follows the definition of the language: lines are ended by any line end, blank lines do not
count for the shared indentation unless it is the last one, and a text block with something behind
its opening quotes has no value. Escapes are read after all this and play no part.

| done to the lines | the value |
| --- | --- |
| as much put in front of each | stays (`valueOf_indent`) |
| up to `column` taken off each | stays exactly if they move as one (`valueOf_unindent`) |
| carriage returns dropped at their ends | stays, if there are none elsewhere (`ReturnsEndLines`) |

The second row is the heart of it. If a line loses less than the shared indentation does, then it
comes to stand deeper, and as white space at the end is no help, the stripped line shows it
(`strip_injective`).

## What is not claimed

Text blocks whose lines do not have as much indentation as the code around them are changed
(`exists_textBlock_changed`).
-/

namespace PlatformOverlay.Java

open Lexer
open Text (splitChars)

/-! ## Text blocks -/

namespace TextBlock

/-- White space as Java takes it off a text block. -/
def isWhite (c : Char) : Bool :=
  let n := c.toNat
  (0x09 ≤ n && n ≤ 0x0D) || (0x1C ≤ n && n ≤ 0x20) || n == 0x1680 ||
    (0x2000 ≤ n && n ≤ 0x200A && n != 0x2007) || n == 0x2028 || n == 0x2029 || n == 0x205F ||
    n == 0x3000

/-- May stand between the opening delimiter and the end of its line. -/
def isPadding (c : Char) : Bool := c == ' ' || c == '\t' || c == '\x0C'

/-- A line feed for each end of a line. -/
def lineFeeds : List Char → List Char
  | [] => []
  | c :: cs =>
      if c == '\r' then
        if cs.head? == some '\n' then lineFeeds cs else '\n' :: lineFeeds cs
      else c :: lineFeeds cs

/-- The lines of a text block.  The last one is that of the closing delimiter. -/
def contentLines? (block : List Char) : Option (List (List Char)) :=
  match splitChars '\n' (lineFeeds ((block.drop 3).rdrop 3)) with
  | opening :: line :: lines => if opening.all isPadding then some (line :: lines) else none
  | _ => none

def isBlank (line : List Char) : Bool := line.all isWhite

/-- How deep a line is indented. -/
def leading (line : List Char) : Nat := (line.takeWhile isWhite).length

/-- The lines whose indentation counts. -/
def significant (lines : List (List Char)) : List (List Char) :=
  lines.dropLast.filter (!isBlank ·) ++ lines.getLast?.toList

/-- The indentation that the lines share. -/
def margin (lines : List (List Char)) : Nat := ((significant lines).map leading).min?.getD 0

/-- A line without the indentation that it shares and without white space at its end. -/
def strip (margin : Nat) (line : List Char) : List Char := (line.drop margin).rdropWhile isWhite

def valueOf (lines : List (List Char)) : List Char :=
  ['\n'].intercalate (lines.map (strip (margin lines)))

/-- The string that Java assigns to a text block, its escapes not yet read.  There is none if
something follows the opening delimiter in its line. -/
def value? (block : String) : Option (List Char) := (contentLines? block.toList).map valueOf

variable {X : List (List Char)} {l : List Char} {m n column : Nat}

/-! ## Indentation that is shared -/

theorem isWhite_of_isIndent {c : Char} (h : isIndent c = true) : isWhite c = true := by
  obtain rfl | rfl : c = ' ' ∨ c = '\t' := by simpa [isIndent] using h
  · rfl
  · rfl

theorem significant_ne_nil (h : X ≠ []) : significant X ≠ [] := by
  rw [significant, List.getLast?_eq_some_getLast h]
  simp

/-- The margin is the least indentation of a significant line. -/
theorem margin_eq_iff (h : X ≠ []) :
    margin X = m ↔ (∃ l ∈ significant X, leading l = m) ∧ ∀ l ∈ significant X, m ≤ leading l := by
  obtain ⟨a, ha⟩ : ∃ a, ((significant X).map leading).min? = some a := by
    rw [← Option.isSome_iff_exists, List.isSome_min?_iff]
    simpa using significant_ne_nil h
  have least := List.min?_eq_some_iff.1 ha
  rw [List.mem_map, List.forall_mem_map] at least
  rw [margin, ha, Option.getD_some]
  constructor
  · rintro rfl
    exact least
  · rintro ⟨⟨l, hl, rfl⟩, le⟩
    obtain ⟨⟨k, hk, rfl⟩, le'⟩ := least
    exact le_antisymm (le' l hl) (le k hk)

theorem margin_le (h : l ∈ significant X) : margin X ≤ leading l := by
  have ne : X ≠ [] := by
    rintro rfl
    simp [significant] at h
  exact ((margin_eq_iff ne).1 rfl).2 l h

/-- Lines with something on them are significant. -/
theorem mem_significant (h : l ∈ X) (solid : isBlank l = false) : l ∈ significant X := by
  obtain ⟨X, x, rfl⟩ : ∃ Y y, X = Y ++ [y] :=
    ⟨_, _, (List.dropLast_append_getLast (List.ne_nil_of_mem h)).symm⟩
  rcases List.mem_append.1 h with h | h
  · simp [significant, h, solid]
  · simp_all [significant]

/-- A change that keeps blank lines blank keeps which lines are significant. -/
theorem significant_map {f : List Char → List Char} (h : ∀ l, isBlank (f l) = isBlank l) :
    significant (X.map f) = (significant X).map f := by
  rw [significant, significant, List.map_append, ← List.map_dropLast, List.filter_map,
    List.getLast?_map]
  congr 2
  · exact List.filter_congr fun l _ ↦ by simp [h]
  · cases X.getLast? <;> rfl

theorem strip_of_isBlank (h : isBlank l = true) : strip m l = [] := by
  rw [strip, List.rdropWhile_eq_nil_iff]
  exact fun c hc ↦ List.all_eq_true.1 h c (List.mem_of_mem_drop hc)

/-- A blank line that is not the last one may be any blank line. -/
theorem valueOf_congr {xs ys : List (List Char)} (x : List Char)
    (h : List.Forall₂ (fun l k ↦ l = k ∨ isBlank l = true ∧ isBlank k = true) xs ys) :
    valueOf (xs ++ [x]) = valueOf (ys ++ [x]) := by
  obtain ⟨solid, stripped⟩ : xs.filter (!isBlank ·) = ys.filter (!isBlank ·) ∧
      ∀ m, xs.map (strip m) = ys.map (strip m) := by
    induction h with
    | nil => exact ⟨rfl, fun _ ↦ rfl⟩
    | cons hl _ ih =>
      obtain ⟨solid, stripped⟩ := ih
      rcases hl with rfl | ⟨hl, hk⟩
      · exact ⟨by rw [List.filter_cons, List.filter_cons, solid], fun m ↦ by
          rw [List.map_cons, List.map_cons, stripped]⟩
      · exact ⟨by simp [hl, hk, solid], fun m ↦ by
          rw [List.map_cons, List.map_cons, stripped, strip_of_isBlank hl, strip_of_isBlank hk]⟩
  have same : significant (xs ++ [x]) = significant (ys ++ [x]) := by
    simp only [significant, List.dropLast_concat, List.getLast?_concat, solid]
  rw [valueOf, valueOf, margin, margin, same, List.map_append, List.map_append, stripped]

/-- Indentation put in front adds to what is there. -/
theorem leading_indent (n : Nat) (l : List Char) :
    leading (List.replicate n ' ' ++ l) = n + leading l := by
  rw [leading, List.takeWhile_append_of_pos, List.length_append, List.length_replicate, leading]
  intro c hc
  rw [List.eq_of_mem_replicate hc]
  rfl

theorem isBlank_indent (n : Nat) (l : List Char) :
    isBlank (List.replicate n ' ' ++ l) = isBlank l := by
  rw [isBlank, List.all_append, isBlank, Bool.and_eq_right_iff_imp]
  intro _
  exact List.all_eq_true.2 fun c hc ↦ by rw [List.eq_of_mem_replicate hc]; rfl

/-- Indenting all lines alike does not change the value: the margin grows with them. -/
theorem valueOf_indent (n : Nat) (X : List (List Char)) :
    valueOf (X.map (List.replicate n ' ' ++ ·)) = valueOf X := by
  by_cases ne : X = []
  · rw [ne, List.map_nil]
  have deeper : margin (X.map (List.replicate n ' ' ++ ·)) = n + margin X := by
    rw [margin_eq_iff (by simpa using ne), significant_map (isBlank_indent n)]
    obtain ⟨⟨l, hl, least⟩, le⟩ := (margin_eq_iff ne).1 rfl
    refine ⟨⟨_, List.mem_map_of_mem hl, by rw [leading_indent, least]⟩, ?_⟩
    rw [List.forall_mem_map]
    exact fun k hk ↦ by rw [leading_indent]; exact Nat.add_le_add_left (le k hk) n
  rw [valueOf, valueOf, deeper, List.map_map]
  congr 1
  refine List.map_congr_left fun l _ ↦ ?_
  rw [Function.comp_apply, strip, strip, List.drop_append, List.drop_of_length_le (by simp),
    List.length_replicate, Nat.add_sub_cancel_left, List.nil_append]

/-! ## Indentation that each line loses -/

/-- How many blanks and tabs are taken from a line. -/
def lost (column : Nat) (line : List Char) : Nat := min column (line.takeWhile isIndent).length

/-- No line that is not blank moves among the others when all lose indentation. -/
def MovesAsOne (column : Nat) (lines : List (List Char)) : Prop :=
  ∀ l ∈ lines, isBlank l = false →
    lost column l + margin (lines.map (unindent column)) = margin lines

/-- Taking off indentation drops as many characters as it finds. -/
theorem unindent_eq_drop (column : Nat) (l : List Char) :
    unindent column l = l.drop (lost column l) := by
  fun_induction unindent column l with
  | case1 column c cs hc ih => rw [ih, lost, lost]; simp [hc]
  | case2 column c cs hc => simp [lost, hc]
  | case3 column cs h =>
    cases column with
    | zero => simp [lost]
    | succ column =>
      cases cs with
      | nil => simp
      | cons c cs => exact absurd rfl (h column c cs rfl)

theorem lost_le_leading (column : Nat) (l : List Char) : lost column l ≤ leading l := by
  refine (Nat.min_le_right ..).trans ?_
  rw [leading]
  induction l with
  | nil => simp
  | cons c l ih =>
    rw [List.takeWhile_cons, List.takeWhile_cons]
    split
    next blank => simpa [isWhite_of_isIndent blank] using ih
    next => simp

theorem leading_drop (h : n ≤ leading l) : leading (l.drop n) + n = leading l := by
  induction n generalizing l with
  | zero => rfl
  | succ n ih =>
    cases l with
    | nil => simp [leading] at h
    | cons c l =>
      by_cases white : isWhite c = true
      · have here : leading (c :: l) = leading l + 1 := by simp [leading, white]
        rw [here] at h ⊢
        rw [List.drop_succ_cons, ← Nat.add_assoc, ih (Nat.le_of_succ_le_succ h)]
      · simp [leading, white] at h

/-- A blank line stays blank, and no other becomes so. -/
theorem isBlank_unindent (column : Nat) (l : List Char) :
    isBlank (unindent column l) = isBlank l := by
  obtain ⟨a, e, ha⟩ := exists_unindent column l
  have front : a.all isWhite = true :=
    List.all_eq_true.2 fun c hc ↦ isWhite_of_isIndent (ha c hc)
  nth_rewrite 2 [e]
  rw [isBlank, isBlank, List.all_append, front, Bool.true_and]

/-- Blanks at the end of a line are found behind its last solid character. -/
theorem rdropWhile_append {k : List Char} (solid : isBlank l = false) :
    (k ++ l).rdropWhile isWhite = k ++ l.rdropWhile isWhite := by
  rw [List.rdropWhile, List.reverse_append, List.dropWhile_append, if_neg, List.reverse_append,
    List.reverse_reverse, List.rdropWhile]
  rw [List.isEmpty_iff, List.dropWhile_eq_nil_iff]
  intro blank
  rw [isBlank, List.all_eq_true.2 fun c hc ↦ blank c (List.mem_reverse.2 hc)] at solid
  cases solid

/-- What is stripped from a solid line shows how long it is. -/
theorem length_strip (solid : isBlank l = false) (h : m ≤ leading l) :
    m + (strip m l).length = (l.rdropWhile isWhite).length := by
  have front : (l.take m).all isWhite = true := by
    rw [← List.takeWhile_append_dropWhile (p := isWhite) (l := l), List.take_append_of_le_length h]
    exact List.all_eq_true.2 fun c hc ↦
      List.all_eq_true.1 List.all_takeWhile c (List.mem_of_mem_take hc)
  have behind : isBlank (l.drop m) = false := by
    rw [← List.take_append_drop m l, isBlank, List.all_append, front] at solid
    exact solid
  have deep : m ≤ l.length := h.trans (List.takeWhile_prefix isWhite).length_le
  nth_rewrite 2 [← List.take_append_drop m l]
  rw [rdropWhile_append behind, List.length_append, List.length_take_of_le deep, strip]

/-- Different margins leave different lines of a line that is not blank. -/
theorem strip_injective (solid : isBlank l = false) (hm : m ≤ leading l) (hn : n ≤ leading l) :
    strip m l = strip n l ↔ m = n := by
  refine ⟨fun h ↦ ?_, fun h ↦ by rw [h]⟩
  have lengths := (length_strip solid hm).trans (length_strip solid hn).symm
  rw [h] at lengths
  exact Nat.add_right_cancel lengths

theorem notMem_strip {c : Char} (h : c ∉ l) : c ∉ strip m l := fun hm ↦
  h (List.mem_of_mem_drop ((List.rdropWhile_prefix ..).subset hm))

/-- Taking off indentation keeps the value exactly if all significant lines lose the same. -/
theorem valueOf_unindent (apart : ∀ l ∈ X, '\n' ∉ l) :
    valueOf (X.map (unindent column)) = valueOf X ↔ MovesAsOne column X := by
  by_cases ne : X = []
  · simp [ne, MovesAsOne]
  have lines : valueOf (X.map (unindent column)) = valueOf X ↔
      ∀ l ∈ X, strip (margin (X.map (unindent column))) (unindent column l) =
        strip (margin X) l := by
    rw [valueOf, valueOf, List.map_map, ← List.map_inj_left]
    refine ⟨fun h ↦ ?_, fun h ↦ congrArg _ h⟩
    have pieces := congrArg (splitChars '\n') h
    rwa [Text.splitChars_intercalate (by simpa using ne), Text.splitChars_intercalate
      (by simpa using ne)] at pieces
    · exact List.forall_mem_map.2 fun l hl ↦ notMem_strip (apart l hl)
    · refine List.forall_mem_map.2 fun l hl ↦ notMem_strip fun hm ↦ apart l hl ?_
      rw [unindent_eq_drop] at hm
      exact List.mem_of_mem_drop hm
  rw [lines]
  refine forall₂_congr fun l hl ↦ ?_
  cases solid : isBlank l with
  | true =>
    simp [strip_of_isBlank solid, strip_of_isBlank ((isBlank_unindent column l).trans solid)]
  | false =>
    have back : margin (X.map (unindent column)) ≤ leading (unindent column l) :=
      margin_le (mem_significant (List.mem_map_of_mem hl) ((isBlank_unindent column l).trans solid))
    rw [unindent_eq_drop] at back
    have deep := leading_drop (lost_le_leading column l)
    have shifted : strip (margin (X.map (unindent column))) (unindent column l) =
        strip (lost column l + margin (X.map (unindent column))) l := by
      rw [unindent_eq_drop, strip, List.drop_drop, strip]
    rw [shifted, strip_injective solid (by omega) (margin_le (mem_significant hl solid))]
    simp

/-- A block does not change if each of its lines has as many blanks and tabs as may be lost. -/
theorem movesAsOne_of_indented
    (h : ∀ l ∈ significant X, column ≤ (l.takeWhile isIndent).length) : MovesAsOne column X := by
  intro l hl solid
  have all : ∀ k ∈ significant X, lost column k = column := fun k hk ↦ Nat.min_eq_left (h k hk)
  have ne : X ≠ [] := List.ne_nil_of_mem hl
  obtain ⟨⟨k, hk, least⟩, le⟩ := (margin_eq_iff ne).1 rfl
  have deep (j : List Char) (hj : j ∈ significant X) :
      leading (unindent column j) + column = leading j := by
    have := leading_drop (lost_le_leading column j)
    rwa [← unindent_eq_drop, all j hj] at this
  rw [all l (mem_significant hl solid), eq_comm, margin_eq_iff ne]
  have back := (margin_eq_iff (X := X.map (unindent column)) (by simpa using ne)).1 rfl
  rw [significant_map (isBlank_unindent column), List.forall_mem_map] at back
  obtain ⟨⟨_, hm, least'⟩, le'⟩ := back
  obtain ⟨j, hj, rfl⟩ := List.mem_map.1 hm
  refine ⟨⟨j, hj, ?_⟩, fun i hi ↦ ?_⟩
  · rw [← deep j hj, least', Nat.add_comm]
  · rw [← deep i hi, Nat.add_comm]
    exact Nat.add_le_add_right (le' i hi) column

/-! ## Re-indented blocks -/

/-- Carriage returns stand at the ends of lines only. -/
def ReturnsEndLines (cs : List Char) : Prop := ∀ l ∈ splitChars '\n' cs, '\r' ∉ l.dropLast

theorem lineFeeds_of_notMem (h : '\r' ∉ l) : lineFeeds l = l := by
  induction l with
  | nil => rfl
  | cons c l ih =>
    rw [List.mem_cons, not_or] at h
    obtain ⟨hc, hl⟩ := h
    rw [lineFeeds, if_neg (by simpa using Ne.symm hc), ih hl]

/-- Line ends of both kinds are read as line feeds. -/
theorem lineFeeds_line (h : '\r' ∉ l.dropLast) (cs : List Char) :
    lineFeeds (l ++ '\n' :: cs) = dropReturns l ++ '\n' :: lineFeeds cs := by
  have feed : lineFeeds ('\n' :: cs) = '\n' :: lineFeeds cs := by simp [lineFeeds]
  induction l with
  | nil => exact feed
  | cons c l ih =>
    cases l with
    | nil =>
      by_cases hc : c = '\r'
      · subst hc
        exact feed
      · rw [List.cons_append, lineFeeds, if_neg (by simpa using hc), List.nil_append, feed,
          dropReturns_eq_self (by simpa using hc), List.singleton_append]
    | cons d l =>
      rw [List.dropLast_cons_cons, List.mem_cons, not_or] at h
      have returns : dropReturns (c :: d :: l) = c :: dropReturns (d :: l) :=
        dropReturns_append (x := [c]) (.inl (by simpa using Ne.symm h.1))
      rw [List.cons_append, lineFeeds, if_neg (by simpa using Ne.symm h.1), ih h.2, returns,
        List.cons_append]

/-- A text whose carriage returns stand at line ends has the same lines. -/
theorem splitChars_lineFeeds {cs x : List Char} {xs : List (List Char)}
    (h : splitChars '\n' cs = xs ++ [x]) (inside : ∀ l ∈ xs, '\r' ∉ l.dropLast) (last : '\r' ∉ x) :
    splitChars '\n' (lineFeeds cs) = xs.map dropReturns ++ [x] := by
  have apart : ∀ l ∈ xs ++ [x], '\n' ∉ l := fun l hl ↦ Text.notMem_of_mem_splitChars (h ▸ hl)
  have text : cs = ['\n'].intercalate (xs ++ [x]) := by rw [← h, Text.intercalate_splitChars]
  clear h
  induction xs generalizing cs with
  | nil =>
    rw [text]
    simp [lineFeeds_of_notMem last, Text.splitChars_of_notMem (apart x (by simp))]
  | cons l xs ih =>
    obtain ⟨here, later⟩ := List.forall_mem_cons.1 apart
    obtain ⟨hl, hxs⟩ := List.forall_mem_cons.1 inside
    obtain ⟨r, e, -⟩ := exists_dropReturns l
    have line : '\n' ∉ dropReturns l := fun hm ↦ here (e ▸ List.mem_append_left r hm)
    rw [text, List.cons_append, List.intercalate_cons_of_ne_nil (by simp)]
    rw [List.append_assoc, List.singleton_append, lineFeeds_line hl, Text.splitChars_append,
      Text.splitChars_of_notMem line, ih hxs later rfl]
    rfl

theorem dropReturns_dropReturns (l : List Char) : dropReturns (dropReturns l) = dropReturns l :=
  dropReturns_eq_self (getLast?_dropReturns l)

/-- A line without other carriage returns has none left. -/
theorem notMem_dropReturns (h : '\r' ∉ l.dropLast) : '\r' ∉ dropReturns l := by
  rcases List.eq_nil_or_concat l with rfl | ⟨k, c, rfl⟩
  · exact h
  rw [List.concat_eq_append, List.dropLast_concat] at h
  by_cases hc : c = '\r'
  · have returns : dropReturns ['\r'] = [] := rfl
    rw [hc, List.concat_eq_append, dropReturns_append, returns, List.append_nil]
    · exact h
    · exact .inl fun last ↦ h (List.mem_of_mem_getLast? last)
  · rw [List.concat_eq_append, dropReturns_eq_self (by simpa using hc)]
    simpa using ⟨h, Ne.symm hc⟩

theorem of_mem_reindentLine {c : Char} (h : c ∈ reindentLine column (List.replicate n ' ') l) :
    c = ' ' ∨ c ∈ dropReturns l := by
  obtain ⟨a, e, -⟩ := exists_unindent column (dropReturns l)
  rw [reindentLine] at h
  split at h
  next => cases h
  next d k hd =>
    rw [← hd] at h
    rcases List.mem_append.1 h with h | h
    · exact .inl (List.eq_of_mem_replicate h)
    · exact .inr (e ▸ List.mem_append_right a h)

theorem reindentLine_dropReturns (column : Nat) (indent l : List Char) :
    reindentLine column indent (dropReturns l) = reindentLine column indent l := by
  rw [reindentLine, reindentLine, dropReturns_dropReturns]

/-- The delimiter of a text block. -/
def quotes : List Char := ['"', '"', '"']

/-- The content of a text block lies between its quotes. -/
theorem content_block (cs : List Char) : ((quotes ++ cs ++ quotes).drop 3).rdrop 3 = cs := by
  simp [quotes, List.rdrop]

/-- The lines of the content, if nothing but blanks stands behind the opening quotes. -/
theorem contentLines?_of_lines {cs y x : List Char} {zs : List (List Char)}
    (h : splitChars '\n' cs = y :: (zs ++ [x])) (inside : ∀ l ∈ y :: zs, '\r' ∉ l.dropLast)
    (last : '\r' ∉ x) :
    contentLines? (quotes ++ cs ++ quotes) =
      if (dropReturns y).all isPadding then some (zs.map dropReturns ++ [x]) else none := by
  have lines : splitChars '\n' cs = y :: zs ++ [x] := h
  rw [contentLines?, content_block, splitChars_lineFeeds lines inside last, List.map_cons,
    List.cons_append]
  obtain ⟨k, ks, e⟩ := List.exists_cons_of_ne_nil
    (List.append_ne_nil_of_right_ne_nil (zs.map dropReturns) (List.cons_ne_nil x []))
  rw [e]

/-- The lines of a text block with its quotes. -/
theorem splitChars_block {cs y x : List Char} {zs : List (List Char)}
    (h : splitChars '\n' cs = y :: (zs ++ [x])) :
    splitChars '\n' (quotes ++ cs ++ quotes) = (quotes ++ y) :: (zs ++ [x ++ quotes]) := by
  have delimiter : splitChars '\n' quotes = [quotes] := rfl
  have front : splitChars '\n' (quotes ++ cs) = (quotes ++ y) :: zs ++ [x] :=
    splitChars_append_eq (show splitChars '\n' quotes = [] ++ [quotes] from delimiter) h
  exact splitChars_append_eq front delimiter

theorem reindentLine_block (column n : Nat) (x : List Char) :
    reindentLine column (List.replicate n ' ') (x ++ quotes) =
      List.replicate n ' ' ++ unindent column x ++ quotes := by
  have returns : dropReturns (x ++ quotes) = x ++ quotes :=
    dropReturns_eq_self (by simp [quotes])
  have apart : unindent column (x ++ quotes) = unindent column x ++ quotes :=
    unindent_append (by simp [quotes, isIndent])
  obtain ⟨c, cs, e⟩ := List.exists_cons_of_ne_nil
    (List.append_ne_nil_of_right_ne_nil (unindent column x) (show quotes ≠ [] by simp [quotes]))
  rw [reindentLine, returns, apart, e, List.append_assoc, e]

theorem notMem_indent {c : Char} (blank : c ≠ ' ') (h : c ∉ l) :
    c ∉ List.replicate n ' ' ++ unindent column l := by
  intro hm
  rcases List.mem_append.1 hm with hm | hm
  · exact blank (List.eq_of_mem_replicate hm)
  · rw [unindent_eq_drop] at hm
    exact h (List.mem_of_mem_drop hm)

/-- A text block that is moved is a text block, its lines indented anew. -/
theorem shift_block {cs y x : List Char} {zs : List (List Char)}
    (h : splitChars '\n' cs = y :: (zs ++ [x])) (column n : Nat) (first : Bool) :
    ∃ cs', shift column n first (quotes ++ cs ++ quotes) = quotes ++ cs' ++ quotes ∧
      splitChars '\n' cs' = lineEnd first y ::
        (zs.map (reindentLine column (List.replicate n ' ')) ++
          [List.replicate n ' ' ++ unindent column x]) := by
  refine ⟨lineEnd first y ++ (zs.map (reindentLine column (List.replicate n ' ')) ++
    [List.replicate n ' ' ++ unindent column x]).flatMap ('\n' :: ·), ?_, ?_⟩
  · have opening : lineEnd first (quotes ++ y) = quotes ++ lineEnd first y := by
      cases first with
      | true => rfl
      | false => exact dropReturns_append (.inl (by simp [quotes]))
    rw [shift_of_lines (splitChars_block h), opening, laterLines, List.flatMap_append,
      List.flatMap_singleton, reindentLine_block, List.flatMap_append, List.flatMap_map]
    simp
  · have apart : ∀ l ∈ y :: (zs ++ [x]), '\n' ∉ l := fun l hl ↦
      Text.notMem_of_mem_splitChars (h ▸ hl)
    rw [List.forall_mem_cons, List.forall_mem_append, List.forall_mem_singleton] at apart
    obtain ⟨hy, hzs, hx⟩ := apart
    refine splitChars_lines ?_
    rw [List.forall_mem_cons, List.forall_mem_append, List.forall_mem_singleton,
      List.forall_mem_map]
    exact ⟨fun hm ↦ hy (mem_of_mem_lineEnd hm), fun l hl ↦ not_mem_reindentLine (hzs l hl),
      notMem_indent (by decide) hx⟩

/-- A block in one line has no content, and nothing of it moves. -/
theorem shift_oneLine {y : List Char} (oneLine : '\n' ∉ y)
    (h : ReturnsEndLines (quotes ++ y ++ quotes)) (column n : Nat) (first : Bool) :
    contentLines? (quotes ++ y ++ quotes) = none ∧
      shift column n first (quotes ++ y ++ quotes) = quotes ++ y ++ quotes := by
  have block : splitChars '\n' (quotes ++ y ++ quotes) = [quotes ++ y ++ quotes] :=
    Text.splitChars_of_notMem (by simp [quotes, oneLine])
  have noReturn : '\r' ∉ y := by
    have := h _ (block ▸ List.mem_singleton_self _)
    rw [List.dropLast_append_of_ne_nil (by simp [quotes])] at this
    exact fun hm ↦ this (List.mem_append_left _ (List.mem_append_right _ hm))
  refine ⟨?_, ?_⟩
  · rw [contentLines?, content_block, lineFeeds_of_notMem noReturn,
      Text.splitChars_of_notMem oneLine]
  · have same : lineEnd first (quotes ++ y ++ quotes) = quotes ++ y ++ quotes := by
      cases first with
      | true => rfl
      | false => exact dropReturns_eq_self (by rw [List.getLast?_append]; simp [quotes])
    rw [shift_of_lines block, same, laterLines, List.flatMap_nil, List.append_nil]

/-- Where carriage returns may stand between the delimiters. -/
theorem ReturnsEndLines.of_block {cs y x : List Char} {zs : List (List Char)}
    (lines : splitChars '\n' cs = y :: (zs ++ [x])) (h : ReturnsEndLines (quotes ++ cs ++ quotes)) :
    '\r' ∉ y.dropLast ∧ (∀ l ∈ zs, '\r' ∉ l.dropLast) ∧ '\r' ∉ x := by
  rw [ReturnsEndLines, splitChars_block lines, List.forall_mem_cons, List.forall_mem_append,
    List.forall_mem_singleton] at h
  obtain ⟨opening, inside, last⟩ := h
  refine ⟨fun hm ↦ ?_, inside, fun hm ↦ ?_⟩
  · have more : y ≠ [] := List.ne_nil_of_mem ((List.dropLast_sublist y).subset hm)
    rw [List.dropLast_append_of_ne_nil more] at opening
    exact opening (List.mem_append_right _ hm)
  · rw [List.dropLast_append_of_ne_nil (by simp [quotes])] at last
    exact last (List.mem_append_left _ hm)

/-- Re-indentation brings in no carriage return. -/
theorem return_notMem_reindentLine (h : '\r' ∉ l.dropLast) (column n : Nat) :
    '\r' ∉ reindentLine column (List.replicate n ' ') l := fun hm ↦
  (of_mem_reindentLine hm).elim (by decide) (notMem_dropReturns h)

/-- Line ends can be read before or after re-indentation. -/
theorem map_dropReturns_reindentLine {zs : List (List Char)} (h : ∀ l ∈ zs, '\r' ∉ l.dropLast)
    (column n : Nat) :
    (zs.map (reindentLine column (List.replicate n ' '))).map dropReturns =
      (zs.map dropReturns).map (reindentLine column (List.replicate n ' ')) := by
  rw [List.map_map, List.map_map]
  refine List.map_congr_left fun l hl ↦ ?_
  rw [Function.comp_apply, Function.comp_apply, reindentLine_dropReturns]
  exact dropReturns_eq_self fun last ↦
    return_notMem_reindentLine (h l hl) column n (List.mem_of_mem_getLast? last)

/-- The lines of a re-indented text block, that of its closing delimiter being the last. -/
theorem contentLines?_shift {t : List Char} (ht : IsToken .textBlock t) (h : ReturnsEndLines t)
    (column n : Nat) (first : Bool) :
    contentLines? t = none ∧ contentLines? (shift column n first t) = none ∨
      ∃ zs x, contentLines? t = some (zs ++ [x]) ∧
        contentLines? (shift column n first t) =
          some (zs.map (reindentLine column (List.replicate n ' ')) ++
            [List.replicate n ' ' ++ unindent column x]) ∧
        ∀ l ∈ zs ++ [x], '\r' ∉ l ∧ '\n' ∉ l := by
  obtain ⟨b, rfl⟩ : ∃ b, t = quotes ++ b ++ quotes := exists_of_isToken_textBlock ht
  obtain ⟨y, ys, hb⟩ := List.exists_cons_of_ne_nil (Text.splitChars_ne_nil '\n' b)
  have apart : ∀ l ∈ y :: ys, '\n' ∉ l := fun l hl ↦ Text.notMem_of_mem_splitChars (hb ▸ hl)
  -- A block on one line has no content; else the last line is that of the closing quotes.
  rcases List.eq_nil_or_concat ys with rfl | ⟨zs, x, rfl⟩
  · have text : ['\n'].intercalate [y] = b := hb ▸ Text.intercalate_splitChars b
    obtain rfl : y = b := by simpa using text
    obtain ⟨none, same⟩ := shift_oneLine (apart y List.mem_cons_self) h column n first
    exact .inl ⟨none, by rw [same, none]⟩
  rw [List.concat_eq_append] at hb apart
  obtain ⟨b', shifted, hb'⟩ := shift_block hb column n first
  obtain ⟨hy, inside, hx⟩ := h.of_block hb
  have again : dropReturns (lineEnd first y) = dropReturns y := by
    cases first with
    | true => rfl
    | false => exact dropReturns_dropReturns y
  have inside' : ∀ l ∈ lineEnd first y :: zs.map (reindentLine column (List.replicate n ' ')),
      '\r' ∉ l.dropLast := by
    rw [List.forall_mem_cons, List.forall_mem_map]
    refine ⟨?_, fun l hl hm ↦
      return_notMem_reindentLine (inside l hl) column n ((List.dropLast_sublist _).subset hm)⟩
    cases first with
    | true => exact hy
    | false => exact fun hm ↦ notMem_dropReturns hy ((List.dropLast_sublist _).subset hm)
  rw [shifted, contentLines?_of_lines hb (List.forall_mem_cons.2 ⟨hy, inside⟩) hx,
    contentLines?_of_lines hb' inside' (notMem_indent (by decide) hx), again,
    map_dropReturns_reindentLine inside]
  cases (dropReturns y).all isPadding with
  | false => exact .inl ⟨rfl, rfl⟩
  | true =>
    refine .inr ⟨zs.map dropReturns, x, rfl, rfl, ?_⟩
    rw [List.forall_mem_cons, List.forall_mem_append, List.forall_mem_singleton] at apart
    rw [List.forall_mem_append, List.forall_mem_singleton, List.forall_mem_map]
    refine ⟨fun l hl ↦ ⟨notMem_dropReturns (inside l hl), fun hm ↦ apart.2.1 l hl ?_⟩, hx,
      apart.2.2⟩
    obtain ⟨r, e, -⟩ := exists_dropReturns l
    exact e ▸ List.mem_append_left r hm

/-- The value of re-indented lines is that of the lines without the indentation taken off. -/
theorem valueOf_reindentLines {zs : List (List Char)} {x : List Char}
    (h : ∀ l ∈ zs ++ [x], '\r' ∉ l ∧ '\n' ∉ l) (column n : Nat) :
    valueOf (zs.map (reindentLine column (List.replicate n ' ')) ++
        [List.replicate n ' ' ++ unindent column x]) = valueOf (zs ++ [x]) ↔
      MovesAsOne column (zs ++ [x]) := by
  have lines : List.Forall₂ (fun l k ↦ l = k ∨ isBlank l = true ∧ isBlank k = true)
      (zs.map (reindentLine column (List.replicate n ' ')))
      (zs.map (List.replicate n ' ' ++ unindent column ·)) := by
    rw [List.forall₂_map_left_iff, List.forall₂_map_right_iff, List.forall₂_same]
    intro l hl
    have returns : dropReturns l = l := dropReturns_eq_self fun last ↦
      (h l (List.mem_append_left _ hl)).1 (List.mem_of_mem_getLast? last)
    rw [reindentLine, returns]
    split
    next none => exact .inr ⟨rfl, by rw [none, isBlank_indent]; rfl⟩
    next c cs some => exact .inl (by rw [some])
  have moved : zs.map (List.replicate n ' ' ++ unindent column ·) ++
        [List.replicate n ' ' ++ unindent column x] =
      ((zs ++ [x]).map (unindent column)).map (List.replicate n ' ' ++ ·) := by
    simp
  rw [valueOf_congr _ lines, moved, valueOf_indent, valueOf_unindent fun l hl ↦ (h l hl).2]

/-- The value of a moved text block is kept exactly if its lines move as one. -/
theorem value_shift {t : List Char} (ht : IsToken .textBlock t) (h : ReturnsEndLines t)
    (column n : Nat) (first : Bool) :
    (contentLines? (shift column n first t)).map valueOf = (contentLines? t).map valueOf ↔
      ∀ X ∈ contentLines? t, MovesAsOne column X := by
  obtain ⟨none, none'⟩ | ⟨zs, x, lines, lines', plain⟩ := contentLines?_shift ht h column n first
  · simp [none, none']
  · rw [lines, lines', Option.map_some, Option.map_some, Option.some_inj,
      valueOf_reindentLines plain]
    simp

end TextBlock

open TextBlock

/-- A token of a text and the token that it is when the text is re-indented, which may be a text
block. -/
structure MovedBlock (column : Nat) (t t' : Token) : Prop where
  kind : t'.kind = t.kind
  value_eq_iff : t.kind = .textBlock → ReturnsEndLines t.text.toList →
    (value? t'.text = value? t.text ↔ ∀ X ∈ contentLines? t.text.toList, MovesAsOne column X)
  /-- In particular, the value stays if each line that counts is indented far enough. -/
  value_eq : t.kind = .textBlock → ReturnsEndLines t.text.toList →
    (∀ X ∈ contentLines? t.text.toList, ∀ l ∈ significant X,
      column ≤ (l.takeWhile isIndent).length) → value? t'.text = value? t.text

theorem Shifted.movedBlock {column n : Nat} {t t' : Token} (h : Shifted column n t t') :
    MovedBlock column t t' := by
  obtain ⟨ht, kind, first, text⟩ := h
  have value (block : t.kind = .textBlock) (returns : ReturnsEndLines t.text.toList) :
      value? t'.text = value? t.text ↔
        ∀ X ∈ contentLines? t.text.toList, MovesAsOne column X := by
    rw [value?, value?, text]
    exact value_shift (block ▸ ht) returns column n first
  refine ⟨kind, value, fun block returns deep ↦ (value block returns).2 fun X hX ↦ ?_⟩
  exact movesAsOne_of_indented (deep X hX)

/-- A text block of a re-indented text stands for the string that it stood for exactly if the
lines that are not blank lose as much of their indentation as they share, so wherever all lines
that count have as many blanks and tabs as a line may lose. -/
theorem textBlocks_reindent {text : String} {lexed : Lexed} (h : tokenize text = .ok lexed)
    (column n : Nat) :
    ∃ lexed', tokenize (reindent text column (String.ofList (List.replicate n ' '))) = .ok lexed' ∧
      List.Forall₂ (MovedBlock column) lexed.tokens lexed'.tokens := by
  obtain ⟨lexed', h', shifted⟩ := exists_tokenize_reindent h column n
  exact ⟨lexed', h', shifted.imp fun _ _ ↦ Shifted.movedBlock⟩

/-- An instance in which the lines lie deeper than the column. -/
theorem textBlocks_reindent_deep :
    let text := "x = \"\"\"\r\n      a\r\n\r\n\t       b\n    \"\"\";"
    let moved := "x = \"\"\"\r\n    a\n\n      b\n  \"\"\";"
    ∃ lexed, tokenize text = .ok lexed ∧
      reindent text 4 (String.ofList (List.replicate 2 ' ')) = moved ∧
      ∃ lexed', tokenize (reindent text 4 (String.ofList (List.replicate 2 ' '))) = .ok lexed' ∧
        List.Forall₂ (MovedBlock 4) lexed.tokens lexed'.tokens := by
  have read : tokenize "x = \"\"\"\r\n      a\r\n\r\n\t       b\n    \"\"\";" =
      .ok ⟨[⟨.ident, "", "x"⟩, ⟨.operator, " ", "="⟩,
        ⟨.textBlock, " ", "\"\"\"\r\n      a\r\n\r\n\t       b\n    \"\"\""⟩,
        ⟨.punct .semi, "", ";"⟩], ""⟩ :=
    tokenize_eq_ok.2 (by decide +kernel)
  exact ⟨_, read, by decide +kernel, textBlocks_reindent read 4 2⟩

/-- The string of a text block changes if a line has fewer blanks and tabs than the others lose, or
a carriage return before that at its end. -/
theorem exists_textBlock_changed :
    let shallow := "\"\"\"\n  a\n      b\n      \"\"\""
    let returns := "\"\"\"\n    a\r\r\n    \"\"\""
    tokenize shallow = .ok ⟨[⟨.textBlock, "", shallow⟩], ""⟩ ∧
      tokenize (reindent shallow 4 "") = .ok ⟨[⟨.textBlock, "", reindent shallow 4 ""⟩], ""⟩ ∧
      value? shallow = some "a\n    b\n".toList ∧
      value? (reindent shallow 4 "") = some "a\n  b\n".toList ∧
      tokenize returns = .ok ⟨[⟨.textBlock, "", returns⟩], ""⟩ ∧
      tokenize (reindent returns 4 "") = .ok ⟨[⟨.textBlock, "", reindent returns 4 ""⟩], ""⟩ ∧
      value? returns = some "a\n\n".toList ∧
      value? (reindent returns 4 "") = some "a\n".toList := by
  refine ⟨tokenize_eq_ok.2 ?_, tokenize_eq_ok.2 ?_, ?_, ?_, tokenize_eq_ok.2 ?_,
    tokenize_eq_ok.2 ?_, ?_, ?_⟩
  all_goals decide +kernel

end PlatformOverlay.Java
