import Mathlib.Data.List.TakeWhile
import PlatformOverlay.Proofs.Java.Parser.WellFormed
import PlatformOverlay.Proofs.Text.Lines

/-!
# The tokens of a re-indented text

A text is re-indented line by line, a token of it likewise: `shift` re-indents a piece of a text
that need not start or end with a line.  A piece that ends within a line, in front of which the line
is not blank, is re-indented by itself, and so is what follows (`shift_append`).  So the tokens of a
re-indented text are those of the text, re-indented one by one (`exists_shifted_tokens`), and only
comments and text blocks have lines to re-indent (`tokenize_reindent`).

That there are the same tokens is known from `Respaced`, whatever is done to the indentation of each
line. What is added here is by how much the lines within a token move, which text blocks need, and
that it is the same at every place: the first line of a text is left where it is, and whether a
piece starts with a first line is the one thing that `shift` is told about it.
-/

namespace PlatformOverlay.Java

open Lexer
open Text (splitChars LineIndex)

variable {column n : Nat} {first : Bool}

/-! ## Pieces of a text -/

/-- The rest of a line in which a piece of a text starts.  The first line of the text is kept. -/
def lineEnd (first : Bool) (line : List Char) :
    List Char := if first then line else dropReturns line

/-- Lines, each behind a line feed. -/
def laterLines (column n : Nat) (lines : List (List Char)) : List Char :=
  lines.flatMap fun l ↦ '\n' :: reindentLine column (List.replicate n ' ') l

/-- A piece of a text that is re-indented.  Does it start in the first line of the text? -/
def shift (column n : Nat) (first : Bool) (cs : List Char) : List Char :=
  match splitChars '\n' cs with
  | [] => []
  | l :: ls => lineEnd first l ++ laterLines column n ls

/-- A text is moved line by line, the first of them apart. -/
theorem shift_of_lines {cs l : List Char} {ls : List (List Char)}
    (h : splitChars '\n' cs = l :: ls) :
    shift column n first cs = lineEnd first l ++ laterLines column n ls := by
  rw [shift, h]

@[simp] theorem shift_nil : shift column n first [] = [] := by
  cases first <;> rfl

/-- Re-indentation of a snippet as a move of its text. -/
theorem toList_reindent_eq_shift (text : String) :
    (reindent text column (String.ofList (List.replicate n ' '))).toList =
      shift column n true text.toList := by
  obtain ⟨l, ls, h⟩ := List.exists_cons_of_ne_nil (Text.splitChars_ne_nil '\n' text.toList)
  rw [toList_reindent h, shift_of_lines h, laterLines, List.flatMap_map, String.toList_ofList]
  rfl

theorem mem_of_mem_lineEnd {l : List Char} {c : Char} (h : c ∈ lineEnd first l) : c ∈ l := by
  obtain ⟨r, e, -⟩ := exists_dropReturns l
  cases first with
  | true => exact h
  | false => exact e ▸ List.mem_append_left r h

/-- The lines of a moved text are the moved lines. -/
theorem splitChars_shift {cs l : List Char} {ls : List (List Char)}
    (h : splitChars '\n' cs = l :: ls) : splitChars '\n' (shift column n first cs) =
      lineEnd first l :: ls.map (reindentLine column (List.replicate n ' ')) := by
  have apart : ∀ k ∈ l :: ls, '\n' ∉ k := fun k hk ↦ Text.notMem_of_mem_splitChars (h ▸ hk)
  have ends : '\n' ∉ lineEnd first l := fun hm ↦
    apart l List.mem_cons_self (mem_of_mem_lineEnd hm)
  rw [shift_of_lines h, laterLines, ← List.flatMap_map, splitChars_reindentLines]
  exact List.forall_mem_cons.2 ⟨ends, (List.forall_mem_cons.1 apart).2⟩

/-- A moved text only differs in its indentation. -/
theorem respaced_shift (cs : List Char) : Respaced cs (shift column n first cs) := by
  obtain ⟨l, ls, h, hcs, -⟩ := exists_splitChars cs
  have blanks : ∀ c ∈ List.replicate n ' ', isIndent c = true := by
    intro c hc
    rw [List.eq_of_mem_replicate hc]
    rfl
  rw [shift_of_lines h, laterLines]
  cases first with
  | true =>
    rw [hcs]
    exact .keep_append l (respaced_lines (r := []) blanks column (by simp) ls)
  | false =>
    obtain ⟨r, hl, hr⟩ := exists_dropReturns l
    rw [hcs]
    nth_rewrite 1 [hl]
    rw [List.append_assoc]
    exact .keep_append (dropReturns l) (respaced_lines blanks column hr ls)

/-! ## Pieces behind one another -/

/-- The lines of two texts one behind the other: the last of the one and the first of the other
are joined. -/
theorem splitChars_append_eq {sep : Char} {cs ds x y : List Char} {xs ys : List (List Char)}
    (hx : splitChars sep cs = xs ++ [x]) (hy : splitChars sep ds = y :: ys) :
    splitChars sep (cs ++ ds) = xs ++ (x ++ y) :: ys := by
  induction cs generalizing xs x with
  | nil =>
    cases xs with
    | nil =>
      obtain rfl : [] = x := (List.cons.inj hx).1
      exact hy
    | cons p xs => simp at hx
  | cons c cs ih =>
    rw [Text.splitChars_cons] at hx
    rw [List.cons_append, Text.splitChars_cons]
    split at hx
    next same =>
      rw [if_pos same]
      cases xs with
      | nil => exact absurd (List.cons.inj hx).2 (Text.splitChars_ne_nil sep cs)
      | cons p xs =>
        obtain ⟨rfl, hcs⟩ := List.cons.inj hx
        rw [ih hcs, List.cons_append]
    next other =>
      rw [if_neg other]
      obtain ⟨p, ps, e⟩ := List.exists_cons_of_ne_nil (Text.splitChars_ne_nil sep cs)
      rw [e, Text.extendFirst] at hx
      cases xs with
      | nil =>
        obtain ⟨rfl, rfl⟩ := List.cons.inj hx
        rw [ih (show splitChars sep cs = [] ++ [p] from e)]
        rfl
      | cons q xs =>
        obtain ⟨rfl, rfl⟩ := List.cons.inj hx
        rw [ih (show splitChars sep cs = (p :: xs) ++ [x] from e)]
        rfl

/-- Where a later line starts in front of a text that is cut in two, all lines up to the cut. -/
def upToCut (column n : Nat) (first : Bool) (z : List Char) : List (List Char) → List Char
  | [] => z
  | l :: ls => lineEnd first l ++ laterLines column n ls ++ '\n' :: z

/-- A text is re-indented in two pieces if that can be done with the line in which they meet. -/
theorem shift_append_of_lines {cs ds x y z : List Char} {xs ys : List (List Char)}
    (hx : splitChars '\n' cs = xs ++ [x]) (hy : splitChars '\n' ds = y :: ys)
    (here : xs = [] → lineEnd first (x ++ y) = z ++ lineEnd first y)
    (later : xs ≠ [] →
      reindentLine column (List.replicate n ' ') (x ++ y) = z ++ dropReturns y) :
    shift column n first (cs ++ ds) =
      upToCut column n first z xs ++ shift column n (first && xs.isEmpty) ds := by
  have both := splitChars_append_eq hx hy
  cases xs with
  | nil =>
    rw [List.nil_append] at both
    rw [shift_of_lines both, shift_of_lines hy, here rfl, upToCut]
    simp
  | cons l xs =>
    rw [List.cons_append] at both
    rw [shift_of_lines both, shift_of_lines hy, upToCut, laterLines, List.flatMap_append,
      List.flatMap_cons, later (by simp)]
    simp [lineEnd, laterLines]

/-- Carriage returns are dropped from the second part alone unless they are all it has. -/
theorem dropReturns_append {x y : List Char}
    (h : x.getLast? ≠ some '\r' ∨ ∃ c ∈ y, c ≠ '\r') :
    dropReturns (x ++ y) = x ++ dropReturns y := by
  rw [dropReturns, dropReturns, List.reverse_append, List.dropWhile_append]
  split
  next none =>
    have empty : y.reverse.dropWhile (· == '\r') = [] := by simpa using none
    have all : ∀ c ∈ y, c = '\r' := fun c hc ↦ by
      simpa using List.dropWhile_eq_nil_iff.1 empty c (List.mem_reverse.2 hc)
    have noOther : ¬ ∃ c ∈ y, c ≠ '\r' := by simpa using all
    have own := dropReturns_eq_self (h.resolve_right noOther)
    rw [dropReturns] at own
    rw [empty, own, List.reverse_nil, List.append_nil]
  next => simp

/-- What stands behind indentation and a solid character is not looked at. -/
theorem unindent_append {x y : List Char} (h : ∀ c ∈ y.head?, isIndent c = false) :
    unindent column (x ++ y) = unindent column x ++ y := by
  induction x generalizing column with
  | nil =>
    match column, y with
    | 0, _ => rfl
    | _ + 1, [] => rfl
    | _ + 1, c :: y => simp [unindent, h c rfl]
  | cons c x ih =>
    cases column with
    | zero => rfl
    | succ column =>
      rw [List.cons_append, unindent, unindent, ih]
      split <;> rfl

/-- The text ends in what is no blank. -/
def EndsSolid (x : List Char) : Prop := ∃ c ∈ x.getLast?, isSkipped c = false

theorem EndsSolid.append_left {x : List Char} (h : EndsSolid x) (y : List Char) :
    EndsSolid (y ++ x) := by
  obtain ⟨c, hc, solid⟩ := h
  exact ⟨c, by simp [List.getLast?_append, Option.mem_def.1 hc], solid⟩

theorem EndsSolid.getLast?_ne {x : List Char} (h : EndsSolid x) : x.getLast? ≠ some '\r' := by
  obtain ⟨c, hc, solid⟩ := h
  intro e
  obtain rfl := Option.some.inj (hc.symm.trans e)
  cases solid

/-- A line with a solid end keeps what is behind it. -/
theorem EndsSolid.unindent_append {x : List Char} (h : EndsSolid x) (column : Nat)
    (y : List Char) :
    unindent column (x ++ y) = unindent column x ++ y ∧ unindent column x ≠ [] := by
  obtain ⟨c, hc, solid⟩ := h
  obtain ⟨x, rfl⟩ := List.getLast?_eq_some_iff.1 hc
  have other : isIndent c = false := by
    rw [← Bool.not_eq_true]
    intro blank
    rw [Respaced.isSkipped_of_isIndent blank] at solid
    cases solid
  rw [List.append_assoc, Java.unindent_append (y := [c] ++ y) (by simpa using other),
    Java.unindent_append (y := [c]) (by simpa using other)]
  simp

theorem EndsSolid.reindentLine_append {x : List Char} (h : EndsSolid x) (indent y : List Char) :
    reindentLine column indent (x ++ y) = reindentLine column indent x ++ dropReturns y := by
  obtain ⟨apart, nonempty⟩ := h.unindent_append column (dropReturns y)
  rw [reindentLine, reindentLine, dropReturns_append (.inl h.getLast?_ne),
    dropReturns_eq_self h.getLast?_ne, apart]
  obtain ⟨d, l, e⟩ := List.exists_cons_of_ne_nil nonempty
  rw [e]
  simp

/-- A moved text up to a place within its last line. -/
theorem shift_eq_upToCut {cs x : List Char} {xs : List (List Char)}
    (h : splitChars '\n' cs = xs ++ [x]) :
    shift column n first cs = upToCut column n first
      (if xs.isEmpty then lineEnd first x else reindentLine column (List.replicate n ' ') x)
        xs := by
  cases xs with
  | nil =>
    rw [shift_of_lines h]
    simp [upToCut, laterLines]
  | cons l xs =>
    rw [shift_of_lines h]
    simp [upToCut, laterLines]

/-- A piece is re-indented apart from what follows if it ends in what is no blank, or is in one
line with the blanks at its end. -/
theorem shift_append (column n : Nat) (first : Bool) {cs ds : List Char} (h : EndsSolid cs ∨
      '\n' ∉ cs ∧ (cs.getLast? ≠ some '\r' ∨ ∀ c ∈ ds.head?, c = '\n')) :
    ∃ first', shift column n first (cs ++ ds) =
      shift column n first cs ++ shift column n first' ds := by
  obtain ⟨y, ys, hy⟩ := List.exists_cons_of_ne_nil (Text.splitChars_ne_nil '\n' ds)
  obtain ⟨xs, x, hx, joined⟩ : ∃ xs x, splitChars '\n' cs = xs ++ [x] ∧
      (EndsSolid x ∨ xs = [] ∧ (x.getLast? ≠ some '\r' ∨ y = [])) := by
    rcases h with ⟨c, hc, solid⟩ | ⟨oneLine, h⟩
    · obtain ⟨cs, rfl⟩ := List.getLast?_eq_some_iff.1 hc
      have ne : '\n' ∉ [c] := by
        rintro hm
        obtain rfl := List.mem_singleton.1 hm
        cases solid
      obtain ⟨xs, x, e⟩ : ∃ xs x, splitChars '\n' cs = xs ++ [x] :=
        ⟨_, _, (List.dropLast_append_getLast (Text.splitChars_ne_nil '\n' cs)).symm⟩
      refine ⟨xs, x ++ [c], splitChars_append_eq e (Text.splitChars_of_notMem ne), .inl ?_⟩
      exact ⟨c, by simp, solid⟩
    · refine ⟨[], cs, Text.splitChars_of_notMem oneLine, .inr ⟨rfl, h.imp_right fun hd ↦ ?_⟩⟩
      cases ds with
      | nil => exact (List.cons.inj hy).1.symm
      | cons d ds =>
        obtain rfl := hd d rfl
        rw [Text.splitChars_cons, if_pos rfl] at hy
        exact (List.cons.inj hy).1.symm
  refine ⟨first && xs.isEmpty, ?_⟩
  rw [shift_eq_upToCut hx, shift_append_of_lines hx hy]
  · rintro rfl
    have apart : dropReturns (x ++ y) = dropReturns x ++ dropReturns y := by
      rcases joined.imp EndsSolid.getLast?_ne And.right with last | last | rfl
      · rw [dropReturns_append (.inl last), dropReturns_eq_self last]
      · rw [dropReturns_append (.inl last), dropReturns_eq_self last]
      · simp [show dropReturns [] = [] from rfl]
    cases first
    · exact apart
    · rfl
  · intro more
    rw [List.isEmpty_eq_false_iff.2 more]
    exact (joined.resolve_right fun e ↦ more e.1).reindentLine_append _ y

/-- Blanks stay blanks under re-indentation. -/
theorem Respaced.skipped {cs cs' : List Char} (h : Respaced cs cs') (hcs : Skipped cs) :
    Skipped cs' := by
  obtain ⟨b, ds, rfl, hb, hd, -⟩ := Respaced.exists_skipped ((List.append_nil cs).symm ▸ h) hcs
    (by simp)
  simpa [hd.of_append_nil] using hb

theorem skipped_replicate (n : Nat) : Skipped (List.replicate n ' ') := by
  intro c hc
  rw [List.eq_of_mem_replicate hc]
  rfl

theorem skipped_dropReturns {l : List Char} (h : Skipped l) : Skipped (dropReturns l) := by
  obtain ⟨r, e, -⟩ := exists_dropReturns l
  rw [e] at h
  exact fun c hc ↦ h c (List.mem_append_left r hc)

theorem skipped_unindent {l : List Char} (h : Skipped l) : Skipped (unindent column l) := by
  obtain ⟨a, e, -⟩ := exists_unindent column l
  rw [e] at h
  exact fun c hc ↦ h c (List.mem_append_right a hc)

theorem skipped_reindentLine {l : List Char} (h : Skipped l) :
    Skipped (reindentLine column (List.replicate n ' ') l) := by
  have behind : Skipped (unindent column (dropReturns l)) :=
    skipped_unindent (skipped_dropReturns h)
  rw [reindentLine]
  split
  next => simp [Skipped]
  next c cs e =>
    rw [e] at behind
    exact List.forall_mem_append.2 ⟨skipped_replicate n, behind⟩

theorem skipped_upToCut {z : List Char} {xs : List (List Char)} (hz : Skipped z)
    (h : ∀ l ∈ xs, Skipped l) : Skipped (upToCut column n first z xs) := by
  cases xs with
  | nil => exact hz
  | cons l ls =>
    obtain ⟨hl, hls⟩ := List.forall_mem_cons.1 h
    have front : Skipped (lineEnd first l) := by
      cases first
      · exact skipped_dropReturns hl
      · exact hl
    refine List.forall_mem_append.2 ⟨List.forall_mem_append.2 ⟨front, ?_⟩, ?_⟩
    · intro c hc
      obtain ⟨k, hk, hc⟩ := List.mem_flatMap.1 hc
      rcases List.mem_cons.1 hc with rfl | hc
      · rfl
      · exact skipped_reindentLine (hls k hk) c hc
    · intro c hc
      rcases List.mem_cons.1 hc with rfl | hc
      · rfl
      · exact hz c hc

/-- Blanks stay blanks, and what is behind them is re-indented apart from them. -/
theorem exists_shift_skipped (column n : Nat) (first : Bool) {b ds : List Char} (hb : Skipped b)
    (hd : ∀ c ∈ ds.head?, isSkipped c = false) :
    ∃ b' first', shift column n first (b ++ ds) = b' ++ shift column n first' ds ∧ Skipped b' := by
  cases ds with
  | nil => exact ⟨shift column n first b, true, by simp, (respaced_shift b).skipped hb⟩
  | cons c ds =>
    have solid : isSkipped c = false := hd c rfl
    have notIndent : isIndent c = false := by
      rw [← Bool.not_eq_true]
      exact fun blank ↦ by simp [Respaced.isSkipped_of_isIndent blank] at solid
    obtain ⟨y, ys, hy⟩ : ∃ y ys, splitChars '\n' (c :: ds) = (c :: y) :: ys := by
      obtain ⟨y, ys, e⟩ := List.exists_cons_of_ne_nil (Text.splitChars_ne_nil '\n' ds)
      have other : c ≠ '\n' := by rintro rfl; cases solid
      exact ⟨y, ys, by rw [Text.splitChars_cons, if_neg other, e]; rfl⟩
    obtain ⟨xs, x, hx⟩ : ∃ xs x, splitChars '\n' b = xs ++ [x] :=
      ⟨_, _, (List.dropLast_append_getLast (Text.splitChars_ne_nil '\n' b)).symm⟩
    have hxs : ∀ l ∈ xs ++ [x], Skipped l := fun l hl d hdl ↦
      hb d (Text.exists_mem_splitChars.1 ⟨l, hx ▸ hl, hdl⟩).1
    obtain ⟨hxs, hx'⟩ := List.forall_mem_append.1 hxs
    rw [List.forall_mem_singleton] at hx'
    have notReturn : c ≠ '\r' := by rintro rfl; cases solid
    have returns : dropReturns (x ++ c :: y) = x ++ dropReturns (c :: y) :=
      dropReturns_append (.inr ⟨c, List.mem_cons_self, notReturn⟩)
    have own : dropReturns (c :: y) = c :: dropReturns y :=
      dropReturns_append (x := [c]) (.inl (by simpa using notReturn))
    refine ⟨upToCut column n first (if xs.isEmpty then x
      else List.replicate n ' ' ++ unindent column x) xs, first && xs.isEmpty, ?_, ?_⟩
    · rw [shift_append_of_lines hx hy]
      · rintro rfl
        cases first
        · exact returns
        · rfl
      · intro more
        rw [reindentLine, returns, own, unindent_append (by simpa using notIndent),
          List.isEmpty_eq_false_iff.2 more]
        split
        next e => simp at e
        next d l e => simp [← e]
    · refine skipped_upToCut ?_ hxs
      split
      · exact hx'
      · exact List.forall_mem_append.2 ⟨skipped_replicate n, skipped_unindent hx'⟩

/-! ## Tokens -/

theorem getLast?_of_closeComment {cs : List Char} {s : Split} (h : closeComment cs = some s) :
    s.1.getLast? = some '/' := by
  fun_induction closeComment cs generalizing s with
  | case1 cs => simp [← Option.some.inj h]
  | case2 c cs _ ih =>
    obtain ⟨s, hs, rfl⟩ := Option.map_eq_some_iff.1 h
    simp [taking, List.getLast?_cons, ih hs]
  | case3 => simp at h

theorem exists_of_closeTextBlock {cs : List Char} {s : Split} (h : closeTextBlock cs = some s) :
    ∃ b, s.1 = b ++ ['"', '"', '"'] := by
  fun_induction closeTextBlock cs generalizing s with
  | case1 => simp at h
  | case2 c cs ih =>
    obtain ⟨s, hs, rfl⟩ := Option.map_eq_some_iff.1 h
    obtain ⟨b, hb⟩ := ih hs
    exact ⟨'\\' :: c :: b, by simp [taking, hb]⟩
  | case3 => exact ⟨[], by simp [← Option.some.inj h]⟩
  | case4 c cs _ _ ih =>
    obtain ⟨s, hs, rfl⟩ := Option.map_eq_some_iff.1 h
    obtain ⟨b, hb⟩ := ih hs
    exact ⟨c :: b, by simp [taking, hb]⟩

/-- A text block is enclosed in three quotes. -/
theorem exists_of_isToken_textBlock {t : List Char} (h : IsToken .textBlock t) :
    ∃ b, t = ['"', '"', '"'] ++ b ++ ['"', '"', '"'] := by
  obtain ⟨plain, -⟩ | ⟨l, e, kind, -⟩ | ⟨l, r, e, kind, -⟩ | ⟨l, r, e, -, hr, e'⟩ := scan_cases h
  · exact absurd rfl plain.2
  · cases kind
  · cases kind
  · obtain ⟨b, hb⟩ := exists_of_closeTextBlock hr
    exact ⟨b, by rw [List.append_assoc, ← hb]; exact congrArg Prod.fst e'⟩

theorem notMem_lineFeed_of_lineComment {t : List Char} (h : IsToken .lineComment t) :
    '\n' ∉ t := by
  obtain ⟨plain, -⟩ | ⟨l, e, -, e'⟩ | ⟨l, r, e, kind, -⟩ | ⟨l, r, e, kind, -⟩ := scan_cases h
  · exact absurd plain.1 (by decide)
  · have text : t = ['/', '/'] ++ l.takeWhile (· != '\n') := congrArg Prod.fst e'
    rw [text]
    intro hm
    rcases List.mem_append.1 hm with hm | hm
    · simp at hm
    · simpa using List.all_eq_true.1 List.all_takeWhile _ hm
  · cases kind
  · cases kind

/-- A token is in one line or ends in what is no blank. -/
theorem ends_of_isToken {kind : TokenKind} {t : List Char} (h : IsToken kind t) :
    EndsSolid t ∨ '\n' ∉ t ∧ (t.getLast? ≠ some '\r' ∨ kind = .lineComment) := by
  obtain ⟨-, inLine⟩ | ⟨l, e, rfl, e'⟩ | ⟨l, r, e, rfl, hr, e'⟩ | ⟨l, r, e, rfl, hr, e'⟩ :=
    scan_cases h
  · exact .inr ⟨inLine.1, .inl inLine.2⟩
  · exact .inr ⟨notMem_lineFeed_of_lineComment h, .inr rfl⟩
  · obtain ⟨rfl, -⟩ := Prod.mk.inj e'
    exact .inl (EndsSolid.append_left ⟨'/', getLast?_of_closeComment hr, rfl⟩ ['/', '*'])
  · obtain ⟨b, hb⟩ := exists_of_isToken_textBlock h
    rw [hb]
    exact .inl (EndsSolid.append_left ⟨'"', rfl, rfl⟩ (['"', '"', '"'] ++ b))

/-- A token stays one when it is re-indented by itself. -/
theorem isToken_shift {kind : TokenKind} {t : List Char} (h : IsToken kind t) :
    IsToken kind (shift column n first t) ∧ (IsPlain kind → shift column n first t = t) := by
  have respaced : Respaced t (shift column n first t) := respaced_shift t
  obtain ⟨t', left, scanned, hleft, plain⟩ := respaced.exists_scan h
  obtain rfl := hleft.of_append_nil
  obtain ⟨e, -⟩ := scan_append scanned
  rw [List.append_nil] at e
  exact ⟨e ▸ scanned, fun hk ↦ e ▸ plain hk⟩

/-- What follows a token still does when both are moved. -/
theorem follows_shift {kind : TokenKind} {t k : List Char} {first' : Bool} (ht : IsToken kind t)
    (h : Follows kind t k) :
    Follows kind (shift column n first t) (shift column n first' k) := by
  have behind : Respaced k (shift column n first' k) := respaced_shift k
  by_cases line : kind = .lineComment
  · rw [line] at h ⊢
    exact behind.head_lineFeed h
  by_cases plain : IsPlain kind
  · rw [(isToken_shift ht).2 plain]
    exact behind.follows h line
  · -- Nothing goes on with a block comment or a text block.
    have block : kind = .blockComment ∨ kind = .textBlock := by
      cases kind <;> simp_all [IsPlain, TokenKind.isComment]
    rcases block with rfl | rfl <;> trivial

/-- A token of a text and the token that it is when the text is re-indented. -/
structure Shifted (column n : Nat) (t t' : Token) : Prop where
  isToken : IsToken t.kind t.text.toList
  kind : t'.kind = t.kind
  text : ∃ first, t'.text.toList = shift column n first t.text.toList

/-- The tokens of a re-indented text are those of the text, each re-indented by itself. -/
theorem exists_shifted_tokens (column n : Nat) (first : Bool) {ts : List Token} {k : List Char}
    (hk : Skipped k) (h : Chained ts k) :
    ∃ ts' k', shift column n first (charsOf ts ++ k) = charsOf ts' ++ k' ∧ Skipped k' ∧
      Chained ts' k' ∧ List.Forall₂ (Shifted column n) ts ts' := by
  induction ts generalizing first with
  | nil => exact ⟨[], _, rfl, (respaced_shift k).skipped hk, trivial, .nil⟩
  | cons t ts ih =>
    obtain ⟨hb, ht, hf, hts⟩ := h
    have solid : ∀ c ∈ (t.text.toList ++ (charsOf ts ++ k)).head?, isSkipped c = false := by
      obtain ⟨c, u, hu⟩ := List.exists_cons_of_ne_nil ht.ne_nil
      have := isSkipped_eq_false_of_isToken ht
      simp_all
    have apart : EndsSolid t.text.toList ∨ '\n' ∉ t.text.toList ∧
        (t.text.toList.getLast? ≠ some '\r' ∨ ∀ c ∈ (charsOf ts ++ k).head?, c = '\n') :=
      (ends_of_isToken ht).imp_right fun h ↦ ⟨h.1, h.2.imp_right fun line ↦ by
        rw [line] at hf
        exact hf⟩
    obtain ⟨b', f₁, front, hb'⟩ := exists_shift_skipped column n first hb solid
    obtain ⟨f₂, behind⟩ := shift_append column n f₁ apart
    obtain ⟨ts', k', chars, hk', hts', shifted⟩ := ih f₂ hts
    refine ⟨⟨t.kind, String.ofList b', String.ofList (shift column n f₁ t.text.toList)⟩ :: ts', k',
      ?_, hk', ?_, .cons ⟨ht, rfl, f₁, by simp⟩ shifted⟩
    · rw [charsOf_cons, List.append_assoc, List.append_assoc, front, behind, chars]
      simp
    · refine ⟨by simpa using hb', by simpa using (isToken_shift ht).1, ?_, hts'⟩
      rw [← chars]
      simpa using follows_shift ht hf

/-! ## Re-indented texts -/

/-- A text has one line more than it has line starts behind its first. -/
theorem length_startsAfter (offset : Nat) (cs : List Char) :
    (LineIndex.startsAfter offset cs).length + 1 = (splitChars '\n' cs).length := by
  induction cs generalizing offset with
  | nil => rfl
  | cons c cs ih =>
    rw [LineIndex.startsAfter, Text.splitChars_cons]
    split
    · rw [List.length_cons, List.length_cons, ih]
    · rw [ih, Text.extendFirst_eq_modifyHead c (Text.splitChars_ne_nil '\n' cs),
        List.length_modifyHead]

theorem lineCount_ofText (text : String) :
    (LineIndex.ofText text).lineCount = (splitChars '\n' text.toList).length :=
  length_startsAfter 0 text.toList

/-- What re-indenting keeps of a token. -/
structure SameToken (t t' : Token) : Prop where
  kind : t'.kind = t.kind
  text : t.kind.isComment = false → t.kind ≠ .textBlock → t'.text = t.text
  /-- Carriage returns at the end of the line belong to the comment. -/
  line : t.kind = .lineComment →
    ∃ r : List Char, t.text.toList = t'.text.toList ++ r ∧ ∀ c ∈ r, c = '\r'

theorem Shifted.sameToken {t t' : Token} (h : Shifted column n t t') : SameToken t t' := by
  obtain ⟨ht, kind, first, text⟩ := h
  refine ⟨kind, fun comment block ↦ ?_, fun line ↦ ?_⟩
  · rw [← String.toList_inj, text]
    exact (isToken_shift ht).2 ⟨comment, block⟩
  · obtain ⟨r, e, hr⟩ := exists_dropReturns t.text.toList
    have oneLine : '\n' ∉ t.text.toList := notMem_lineFeed_of_lineComment (line ▸ ht)
    rw [shift_of_lines (Text.splitChars_of_notMem oneLine)] at text
    cases first with
    | true => exact ⟨[], by simp [text, lineEnd, laterLines], by simp⟩
    | false => exact ⟨r, by simpa [text, lineEnd, laterLines] using e, hr⟩

theorem exists_tokenize_reindent {text : String} {lexed : Lexed} (h : tokenize text = .ok lexed)
    (column n : Nat) :
    ∃ lexed', tokenize (reindent text column (String.ofList (List.replicate n ' '))) = .ok lexed' ∧
      List.Forall₂ (Shifted column n) lexed.tokens lexed'.tokens := by
  obtain ⟨chars, hk, chained⟩ := tokenizeChars_iff.1 (tokenize_eq_ok.1 h)
  obtain ⟨ts', k', chars', hk', chained', shifted⟩ := exists_shifted_tokens column n true hk chained
  refine ⟨⟨ts', String.ofList k'⟩, ?_, shifted⟩
  rw [tokenize_eq_ok, tokenizeChars_iff, toList_reindent_eq_shift, chars, chars',
    String.toList_ofList]
  exact ⟨rfl, hk', chained'⟩

/-- A text that can be read can be read when it is re-indented, as the same tokens but for the
lines of comments and text blocks; it has as many lines as before, and to re-indent it from the
column to which it was moved changes nothing. -/
theorem tokenize_reindent {text : String} {lexed : Lexed} (h : tokenize text = .ok lexed)
    (column n : Nat) :
    (∃ lexed', tokenize (reindent text column (String.ofList (List.replicate n ' '))) = .ok lexed' ∧
      List.Forall₂ SameToken lexed.tokens lexed'.tokens) ∧
    (LineIndex.ofText (reindent text column (String.ofList (List.replicate n ' ')))).lineCount =
      (LineIndex.ofText text).lineCount ∧
    reindent (reindent text column (String.ofList (List.replicate n ' '))) n
        (String.ofList (List.replicate n ' ')) =
      reindent text column (String.ofList (List.replicate n ' ')) := by
  refine ⟨?_, ?_, reindent_reindent text column n⟩
  · obtain ⟨lexed', h', shifted⟩ := exists_tokenize_reindent h column n
    exact ⟨lexed', h', shifted.imp fun _ _ ↦ Shifted.sameToken⟩
  · obtain ⟨l, ls, e⟩ := List.exists_cons_of_ne_nil (Text.splitChars_ne_nil '\n' text.toList)
    rw [lineCount_ofText, lineCount_ofText, toList_reindent_eq_shift, splitChars_shift e, e]
    simp

theorem tokenize_reindent_comment :
    let text := "/* a\r\n  b */\n\tx // c\r\r\n  y"
    ∃ lexed, tokenize text = .ok lexed ∧ lexed.tokens.length = 4 ∧
      (∃ lexed', tokenize (reindent text 1 (String.ofList (List.replicate 3 ' '))) = .ok lexed' ∧
        List.Forall₂ SameToken lexed.tokens lexed'.tokens) ∧
      (LineIndex.ofText (reindent text 1 (String.ofList (List.replicate 3 ' ')))).lineCount =
        (LineIndex.ofText text).lineCount ∧
      reindent (reindent text 1 (String.ofList (List.replicate 3 ' '))) 3
          (String.ofList (List.replicate 3 ' ')) =
        reindent text 1 (String.ofList (List.replicate 3 ' ')) := by
  have read : tokenize "/* a\r\n  b */\n\tx // c\r\r\n  y" =
      .ok ⟨[⟨.blockComment, "", "/* a\r\n  b */"⟩, ⟨.ident, "\n\t", "x"⟩,
        ⟨.lineComment, " ", "// c\r\r"⟩, ⟨.ident, "\n  ", "y"⟩], ""⟩ :=
    tokenize_eq_ok.2 (by decide +kernel)
  exact ⟨_, read, rfl, tokenize_reindent read 1 3⟩

end PlatformOverlay.Java
