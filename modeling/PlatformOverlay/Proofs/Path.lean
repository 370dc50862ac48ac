import PlatformOverlay.Path
import PlatformOverlay.Proofs.Text.Lines
import Mathlib.Data.List.TakeWhile

/-!
# The components of paths

What a path denotes depends on its components, and what is done to paths as texts is done to these:
a path joined to another one adds its components behind (`components_join`), the parent lacks the
last one (`components_parent`), and a path seen from a base lacks those of the base
(`relativeTo?_eq_some`).

Between a path and its components stand its pieces, the texts between slashes. The first piece has a
reading of its own, as the root or the current directory; of the others, those that are empty or a
dot stand for nothing (`components_eq`). Parents and relative paths are cut out of the pieces and
keep how the rest is written, so each such operation is described by which pieces are left, and then
by which components these have.
-/

namespace PlatformOverlay

namespace Text

variable {sep : Char}

theorem splitOn_ne_nil (sep : Char) (text : String) : splitOn sep text ≠ [] := by
  simp [splitOn, splitChars_ne_nil]

theorem notMem_of_mem_splitOn {text piece : String} (h : piece ∈ splitOn sep text) :
    sep ∉ piece.toList := by
  obtain ⟨cs, hcs, rfl⟩ := List.mem_map.1 h
  rw [String.toList_ofList]
  exact notMem_of_mem_splitChars hcs

/-- A text without the separator is one piece. -/
theorem splitOn_of_notMem {text : String} (h : sep ∉ text.toList) : splitOn sep text = [text] := by
  rw [splitOn, splitChars_of_notMem h]
  simp

/-- A text with the separator in it is cut into the pieces in front of it and those behind it. -/
theorem splitOn_append (sep : Char) (xs ys : String) :
    splitOn sep (xs ++ String.singleton sep ++ ys) = splitOn sep xs ++ splitOn sep ys := by
  rw [splitOn, String.toList_append, String.toList_append, String.toList_singleton,
    List.append_assoc, List.singleton_append, splitChars_append, List.map_append]
  rfl

/-- Pieces that do not have the separator come back when their join is cut. -/
theorem splitOn_intercalate {pieces : List String} (nonempty : pieces ≠ [])
    (h : ∀ piece ∈ pieces, sep ∉ piece.toList) :
    splitOn sep ((String.singleton sep).intercalate pieces) = pieces := by
  rw [splitOn, String.toList_intercalate, String.toList_singleton,
    splitChars_intercalate (by simpa)]
  · simp
  · simpa using h

end Text

namespace Path

open Text (splitOn)

/-! ## Pieces -/

theorem exists_split (p : Path) : ∃ first rest, splitOn '/' p.text = first :: rest :=
  List.exists_cons_of_ne_nil (Text.splitOn_ne_nil '/' p.text)

/-- What the pieces of a path stand for when they are not in front. -/
def inner (texts : List String) : List Component := texts.filterMap Component.ofPiece?

@[simp] theorem inner_nil : inner [] = [] := rfl

/-- Components behind the first piece are read piece by piece. -/
theorem inner_append (xs ys : List String) : inner (xs ++ ys) = inner xs ++ inner ys :=
  List.filterMap_append

/-- Empty pieces and single dots name no component, unless they come first. -/
theorem ofPiece?_eq_none {t : String} : Component.ofPiece? t = none ↔ t = "" ∨ t = "." := by
  unfold Component.ofPiece?
  split
  · simpa
  · split <;> simpa using ‹¬(_ ∨ _)›

theorem ofPiece?_ne_root {t : String} : Component.ofPiece? t ≠ some .root := by
  unfold Component.ofPiece?
  split
  · simp
  · split <;> simp

theorem ofPiece?_ne_here {t : String} : Component.ofPiece? t ≠ some .here := by
  unfold Component.ofPiece?
  split
  · simp
  · split <;> simp

/-- A component that can stand anywhere in a path. -/
def Component.Inner (c : Component) : Prop := c ≠ .root ∧ c ≠ .here

/-- A component behind the first piece is a name or `..`. -/
theorem Component.inner_of_mem {c : Component} {texts : List String} (h : c ∈ Path.inner texts) :
    c.Inner := by
  obtain ⟨t, -, ht⟩ := List.mem_filterMap.1 h
  exact ⟨fun e ↦ ofPiece?_ne_root (e ▸ ht), fun e ↦ ofPiece?_ne_here (e ▸ ht)⟩

@[simp] theorem text_firstPiece (t : String) (alone : Bool) : (firstPiece t alone).text = t := by
  unfold firstPiece
  split
  · rfl
  · split <;> rfl

theorem component_firstPiece_of_ne {t : String} (h : t ≠ "") (alone : Bool) :
    (firstPiece t alone).component =
      if t = "." then some .here else Component.ofPiece? t := by
  unfold firstPiece
  rw [if_neg h]
  split <;> rfl

/-- An empty piece in front is the root, except in the empty path. -/
theorem component_firstPiece_empty (alone : Bool) :
    (firstPiece "" alone).component = if alone then none else some .root := rfl

theorem eq_empty_of_component_root {t : String} {alone : Bool}
    (h : (firstPiece t alone).component = some .root) : t = "" := by
  by_contra ne
  rw [component_firstPiece_of_ne ne] at h
  split at h
  · cases h
  · exact ofPiece?_ne_root h

/-- The components of a path from its pieces: the first piece has a reading of its own, all
others have the same one. -/
theorem components_eq {p : Path} {first : String} {rest : List String}
    (h : splitOn '/' p.text = first :: rest) :
    p.components = (firstPiece first rest.isEmpty).component.toList ++ inner rest := by
  rw [components, pieces, h, List.filterMap_cons, List.filterMap_map]
  cases (firstPiece first rest.isEmpty).component <;> rfl

/-- A text starts with a slash when its first piece is empty and not the only one. -/
theorem head?_splitChars {cs first : List Char} {rest : List (List Char)}
    (h : Text.splitChars '/' cs = first :: rest) :
    cs.head? = some '/' ↔ first = [] ∧ rest ≠ [] := by
  cases cs with
  | nil =>
    rw [Text.splitChars_nil] at h
    simp_all
  | cons c cs =>
    rw [Text.splitChars_cons] at h
    split at h
    · obtain ⟨rfl, rfl⟩ := List.cons.inj h
      simpa [Text.splitChars_ne_nil] using ‹c = '/'›
    · obtain ⟨first', rest', e⟩ := List.exists_cons_of_ne_nil (Text.splitChars_ne_nil '/' cs)
      rw [e, Text.extendFirst] at h
      obtain ⟨rfl, rfl⟩ := List.cons.inj h
      simpa

/-- A path is absolute when its first piece is empty and more pieces follow. -/
theorem isAbsolute_iff {p : Path} {first : String} {rest : List String}
    (h : splitOn '/' p.text = first :: rest) : p.isAbsolute = true ↔ first = "" ∧ rest ≠ [] := by
  have split : Text.splitChars '/' p.text.toList = first.toList :: rest.map String.toList := by
    simpa [splitOn, Function.comp_def] using congrArg (List.map String.toList) h
  have slash : "/".toList <+: p.text.toList ↔ p.text.toList.head? = some '/' := by
    cases p.text.toList <;> simp [eq_comm]
  rw [isAbsolute, String.startsWith_string_iff, slash, head?_splitChars split]
  simp

/-- The empty path is the one with a single empty piece. -/
theorem text_eq_empty_iff {p : Path} {first : String} {rest : List String}
    (h : splitOn '/' p.text = first :: rest) : p.text = "" ↔ first = "" ∧ rest = [] := by
  constructor
  · intro empty
    rw [empty] at h
    simpa [splitOn, eq_comm] using h
  · rintro ⟨rfl, rfl⟩
    have split : Text.splitChars '/' p.text.toList = [[]] := by
      simpa [splitOn, Function.comp_def] using congrArg (List.map String.toList) h
    have := @Text.intercalate_splitChars '/' p.text.toList
    rw [split] at this
    exact String.toList_eq_nil_iff.1 this.symm

/-- A path has components unless its text is empty. -/
theorem components_eq_nil {p : Path} : p.components = [] ↔ p.text = "" := by
  obtain ⟨first, rest, h⟩ := p.exists_split
  rw [components_eq h, text_eq_empty_iff h]
  by_cases hf : first = ""
  · subst hf
    cases rest <;> simp [component_firstPiece_empty]
  · rw [component_firstPiece_of_ne hf]
    by_cases here : first = "."
    · simp [here]
    · have := mt ofPiece?_eq_none.1 (not_or.2 ⟨hf, here⟩)
      simp [hf, here, this]

/-- The last piece of the path stands for something; no slash and no `.` follows it. -/
def Trim (p : Path) : Prop := ∀ t ∈ (splitOn '/' p.text).getLast?, Component.ofPiece? t ≠ none

/-! ## Joining -/

/-- The text of a joined path: one slash stands between the two, whether or not the first ends
in one. -/
theorem text_join {a b : Path} (hb : b.isAbsolute = false) (ha : a.text ≠ "") :
    ∃ front, (a.join b).text = front ++ "/" ++ b.text ∧
      (a.text = front ∨ a.text = front ++ "/") := by
  rw [join, hb, Bool.false_or, if_neg (by simpa)]
  split
  · obtain ⟨front, h⟩ := String.Slice.endsWith_string_iff.1 ‹a.text.endsWith "/" = true›
    rw [String.copy_toSlice] at h
    have text : a.text = String.ofList front ++ "/" := by
      rw [← String.toList_inj, ← h]
      simp
    exact ⟨String.ofList front, congrArg (· ++ b.text) text, .inr text⟩
  · exact ⟨a.text, rfl, .inl rfl⟩

/-- What is joined to a path stands behind it. -/
theorem components_join {a b : Path} (hb : b.isAbsolute = false) (ha : a.text ≠ "") :
    (a.join b).components = a.components ++ inner (splitOn '/' b.text) := by
  obtain ⟨front, hjoin, text⟩ := text_join hb ha
  obtain ⟨first, rest, hfront⟩ := exists_split ⟨front⟩
  have slash (ys : String) : splitOn '/' (front ++ "/" ++ ys) = first :: (rest ++ splitOn '/' ys) :=
    (Text.splitOn_append '/' front ys).trans (by rw [hfront, List.cons_append])
  have more : (rest ++ splitOn '/' b.text).isEmpty = false := by simp [Text.splitOn_ne_nil]
  rw [components_eq (hjoin ▸ slash b.text), more, inner_append, ← List.append_assoc]
  congr 1
  rcases text with rfl | text
  · rw [components_eq hfront]
    by_cases hf : first = ""
    · have ne : rest ≠ [] := fun e ↦ ha ((text_eq_empty_iff hfront).2 ⟨hf, e⟩)
      rw [List.isEmpty_eq_false_iff.2 ne]
    · rw [component_firstPiece_of_ne hf, component_firstPiece_of_ne hf]
  · have idle : splitOn '/' a.text = first :: (rest ++ [""]) := by
      rw [text, ← String.append_empty (s := front ++ "/")]
      exact slash ""
    have more : (rest ++ [""]).isEmpty = false := by simp
    rw [components_eq idle, more, inner_append]
    simp [inner, ofPiece?_eq_none.2]

/-- A path that can be joined to any other. -/
structure Joinable (p : Path) : Prop where
  relative : p.isAbsolute = false
  inner : inner (Text.splitOn '/' p.text) = p.components

/-- The components of a path that can be joined behind another are names and `..`. -/
theorem Joinable.inner_of_mem {p : Path} (h : p.Joinable) {c : Component} (hc : c ∈ p.components) :
    c.Inner :=
  Component.inner_of_mem (h.inner ▸ hc)

/-- A path joined behind another adds its components and takes none away. -/
theorem Joinable.components {a b : Path} (h : b.Joinable) :
    (a.join b).components = a.components ++ b.components := by
  by_cases empty : a.text = ""
  · have joined : a.join b = b := by simp [join, empty]
    rw [joined, components_eq_nil.2 empty, List.nil_append]
  · rw [components_join h.relative empty, h.inner]

theorem components_append_slash {text : String} (ne : text ≠ "") :
    components ⟨text ++ "/"⟩ = components ⟨text⟩ := by
  obtain ⟨first, rest, h⟩ := exists_split ⟨text⟩
  have idle : splitOn '/' (text ++ "/") = first :: (rest ++ [""]) := by
    rw [← String.append_empty (s := text ++ "/")]
    exact (Text.splitOn_append '/' text "").trans (by rw [h, List.cons_append]; rfl)
  rw [components_eq (p := ⟨text ++ "/"⟩) idle, components_eq (p := ⟨text⟩) h, inner_append]
  have alone : (firstPiece first (rest ++ [""]).isEmpty).component =
      (firstPiece first rest.isEmpty).component := by
    by_cases hf : first = ""
    · have more : rest ≠ [] := fun e ↦ ne ((text_eq_empty_iff (p := ⟨text⟩) h).2 ⟨hf, e⟩)
      rw [List.isEmpty_eq_false_iff.2 more, List.isEmpty_eq_false_iff.2 (by simp)]
    · rw [component_firstPiece_of_ne hf, component_firstPiece_of_ne hf]
  rw [alone]
  simp [inner, ofPiece?_eq_none.2]

theorem trim_join {a b : Path} (hb : b.isAbsolute = false) (h : Trim b) : Trim (a.join b) := by
  by_cases ha : a.text = ""
  · have : a.join b = b := by simp [join, ha]
    rwa [this]
  · obtain ⟨front, hjoin, -⟩ := text_join hb ha
    have split := Text.splitOn_append '/' front b.text
    rw [Trim, hjoin]
    intro t ht
    exact h t
      (by rwa [← List.getLast?_append_of_ne_nil (splitOn '/' front) (Text.splitOn_ne_nil _ _),
        ← split])

/-! ## Parts of a path -/

/-- A piece behind the first. -/
def innerPiece (text : String) : Piece := ⟨text, Component.ofPiece? text⟩

/-- The pieces of a path as the cursor sees them: the first one and the inner ones. -/
theorem pieces_eq {p : Path} {first : String} {rest : List String}
    (h : splitOn '/' p.text = first :: rest) :
    p.pieces = firstPiece first rest.isEmpty :: rest.map innerPiece := by
  rw [pieces, h]
  rfl

theorem filterMap_innerPiece (texts : List String) :
    (texts.map innerPiece).filterMap Piece.component = inner texts :=
  List.filterMap_map

/-- Only pieces that name no component are dropped from the end. -/
theorem dropIdleEnd_append (ps : List Piece) :
    ∃ idle, dropIdleEnd ps ++ idle = ps ∧ ∀ q ∈ idle, q.component = none := by
  refine ⟨(ps.reverse.takeWhile fun q ↦ q.component.isNone).reverse, ?_, fun q hq ↦ ?_⟩
  · rw [dropIdleEnd, ← List.reverse_append, List.takeWhile_append_dropWhile, List.reverse_reverse]
  · simpa using List.mem_takeWhile_imp (List.mem_reverse.1 hq)

/-- What is left ends in a piece that names a component. -/
theorem getLast?_dropIdleEnd {ps : List Piece} {q : Piece}
    (h : (dropIdleEnd ps).getLast? = some q) :
    q.component ≠ none := by
  have := List.head?_dropWhile_not (fun q : Piece ↦ q.component.isNone) ps.reverse
  rw [← List.getLast?_reverse, ← dropIdleEnd, h] at this
  exact Option.isSome_iff_ne_none.1 (by simpa using this)

theorem prefix_dropIdleEnd (ps : List Piece) : dropIdleEnd ps <+: ps :=
  (dropIdleEnd_append ps).imp fun _ h ↦ h.1

/-- Dropping idle pieces keeps the components. -/
@[simp] theorem filterMap_dropIdleEnd (ps : List Piece) :
    (dropIdleEnd ps).filterMap Piece.component = ps.filterMap Piece.component := by
  obtain ⟨idle, split, none⟩ := dropIdleEnd_append ps
  conv_rhs => rw [← split, List.filterMap_append, List.filterMap_eq_nil_iff.2 none, List.append_nil]

theorem notMem_text_of_mem_pieces {p : Path} {q : Piece} (h : q ∈ p.pieces) :
    '/' ∉ q.text.toList := by
  obtain ⟨first, rest, split⟩ := p.exists_split
  refine @Text.notMem_of_mem_splitOn '/' p.text _ ?_
  rw [split]
  rw [pieces_eq split] at h
  rcases List.mem_cons.1 h with rfl | h
  · have : (firstPiece first rest.isEmpty).text = first := by
      unfold firstPiece
      split
      · rfl
      · split <;> rfl
    rw [this]
    exact List.mem_cons_self
  · obtain ⟨t, ht, rfl⟩ := List.mem_map.1 h
    exact List.mem_cons_of_mem _ ht

/-- Pieces are joined by slashes, except the one piece that is the root. -/
theorem ofPieces_eq {ps : List Piece} (h : ps.map Piece.component ≠ [some .root]) :
    ofPieces ps = ⟨String.intercalate "/" (ps.map Piece.text)⟩ := by
  unfold ofPieces
  split
  · exact absurd rfl h
  · rfl

/-- Pieces from the middle of a path of which the first and the last stand for something. -/
structure Middle (texts : List String) : Prop where
  slash : ∀ t ∈ texts, '/' ∉ t.toList
  front : ∀ t ∈ texts.head?, Component.ofPiece? t ≠ none
  last : ∀ t ∈ texts.getLast?, Component.ofPiece? t ≠ none

section middle

variable {texts : List String}

/-- Middle pieces are put together by joining them with slashes. -/
theorem Middle.text_eq (h : Middle texts) :
    ofPieces (texts.map innerPiece) = ⟨String.intercalate "/" texts⟩ := by
  rw [ofPieces_eq]
  · simp [innerPiece, Function.comp_def]
  · intro h
    rw [List.map_map] at h
    obtain ⟨t, rfl, ht⟩ := List.map_eq_singleton_iff.1 h
    exact ofPiece?_ne_root ht

/-- Middle pieces come back from the path they make. -/
theorem Middle.split (h : Middle texts) (ne : texts ≠ []) :
    splitOn '/' (ofPieces (texts.map innerPiece)).text = texts := by
  rw [h.text_eq]
  exact Text.splitOn_intercalate ne h.slash

/-- A path of middle pieces is relative, and its components are those of the pieces, read as
first pieces or as inner ones. -/
theorem Middle.components (h : Middle texts) :
    (ofPieces (texts.map innerPiece)).isAbsolute = false ∧
      (ofPieces (texts.map innerPiece)).components = inner texts ∧
      inner (splitOn '/' (ofPieces (texts.map innerPiece)).text) = inner texts := by
  cases texts with
  | nil => exact ⟨by decide +kernel, by decide +kernel, by decide +kernel⟩
  | cons t ts =>
    have split := h.split (List.cons_ne_nil t ts)
    obtain ⟨ne, here⟩ := not_or.1 (mt ofPiece?_eq_none.2 (h.front t rfl))
    refine ⟨?_, ?_, by rw [split]⟩
    · rw [Bool.eq_false_iff]
      exact fun h ↦ ne ((isAbsolute_iff split).1 h).1
    · rw [components_eq split, component_firstPiece_of_ne ne, if_neg here, inner, inner,
        List.filterMap_cons]
      cases Component.ofPiece? t <;> rfl

theorem Middle.trim (h : Middle texts) (ne : texts ≠ []) :
    Trim (ofPieces (texts.map innerPiece)) := by
  rw [Trim, h.split ne]
  exact h.last

end middle

/-- A path that begins as another one does and ends with a piece of it that stands for something. -/
theorem ofPieces_cases {p : Path} {ps : List Piece} (h : ps <+: p.pieces)
    (last : ∀ q ∈ ps.getLast?, q.component ≠ none) :
    (ps = [] ∧ ofPieces ps = ⟨""⟩) ∨ (ps = [⟨"", some .root⟩] ∧ ofPieces ps = ⟨"/"⟩) ∨
      ∃ first rest, ps = firstPiece first rest.isEmpty :: rest.map innerPiece ∧
        splitOn '/' (ofPieces ps).text = first :: rest := by
  obtain ⟨first, rest, split⟩ := p.exists_split
  have slash : ∀ q ∈ ps, '/' ∉ q.text.toList := fun q hq ↦ notMem_text_of_mem_pieces (h.subset hq)
  rw [pieces_eq split] at h
  cases ps with
  | nil => exact .inl ⟨rfl, by decide +kernel⟩
  | cons q qs =>
    obtain ⟨rfl, hqs⟩ := List.cons_prefix_cons.1 h
    obtain ⟨texts, hts, rfl⟩ := List.prefix_map_iff.1 hqs
    by_cases root : first = "" ∧ texts = []
    · -- Nothing is left in front of the slash that makes the path absolute.
      obtain ⟨rfl, rfl⟩ := root
      cases rest with
      | nil => exact absurd rfl (last _ rfl)
      | cons t ts => exact .inr (.inl ⟨rfl, rfl⟩)
    · have alone : firstPiece first rest.isEmpty = firstPiece first texts.isEmpty := by
        by_cases ne : first = ""
        · have texts_ne : texts ≠ [] := fun e ↦ root ⟨ne, e⟩
          have rest_ne : rest ≠ [] := fun e ↦ texts_ne (List.prefix_nil.1 (e ▸ hts))
          rw [List.isEmpty_eq_false_iff.2 texts_ne, List.isEmpty_eq_false_iff.2 rest_ne]
        · unfold firstPiece
          rw [if_neg ne, if_neg ne]
      rw [alone] at slash ⊢
      refine .inr (.inr ⟨first, texts, rfl, ?_⟩)
      have texts_eq : (firstPiece first texts.isEmpty :: texts.map innerPiece).map Piece.text =
          first :: texts := by
        simp [innerPiece, Function.comp_def]
      rw [ofPieces_eq, texts_eq]
      · exact Text.splitOn_intercalate (List.cons_ne_nil first texts)
          (by simpa [innerPiece] using slash)
      · intro e
        obtain ⟨hfirst, none⟩ := List.cons.inj e
        exact root ⟨eq_empty_of_component_root hfirst, by simpa using none⟩

/-- A front part of a path's pieces that ends in a component has the components of these pieces.
This is what makes `parent?` and `relativeTo?` agree with the components. -/
theorem components_ofPieces {p : Path} {ps : List Piece} (h : ps <+: p.pieces)
    (last : ∀ q ∈ ps.getLast?, q.component ≠ none) :
    (ofPieces ps).components = ps.filterMap Piece.component := by
  rcases ofPieces_cases h last with ⟨rfl, e⟩ | ⟨rfl, e⟩ | ⟨first, rest, hps, split⟩
  · rw [e]
    decide +kernel
  · rw [e]
    decide +kernel
  · rw [components_eq split, hps, List.filterMap_cons, filterMap_innerPiece]
    cases (firstPiece first rest.isEmpty).component <;> rfl

/-- A front part of a path's pieces that ends in a name has no idle end. -/
theorem trim_ofPieces {p : Path} {ps : List Piece} (h : ps <+: p.pieces)
    (last : ∀ q ∈ ps.getLast?, q.component ≠ none) {c : Component}
    (named : (ofPieces ps).components.getLast? = some c) (inner : c.Inner) :
    Trim (ofPieces ps) := by
  rw [components_ofPieces h last] at named
  rcases ofPieces_cases h last with ⟨rfl, e⟩ | ⟨rfl, e⟩ | ⟨first, rest, hps, split⟩
  · cases named
  · obtain rfl := Option.some.inj named
    exact absurd rfl inner.1
  · rw [Trim, split]
    intro t ht
    rcases List.eq_nil_or_concat rest with rfl | ⟨front, t', rfl⟩
    · obtain rfl : first = t := by simpa using ht
      rw [hps] at named
      intro none
      rcases ofPiece?_eq_none.1 none with rfl | rfl
      · cases named
      · exact inner.2 (Option.some.inj named).symm
    · obtain rfl : t' = t := by simpa [List.getLast?_cons] using ht
      refine last (innerPiece t') ?_
      rw [hps]
      simp [List.getLast?_cons]

/-! ## Parents -/

/-- The parent of a path is cut off where something stands in front of the last component. -/
theorem exists_pieces_of_parent? {p parent : Path} (h : p.parent? = some parent) :
    ∃ ps c, ps <+: p.pieces ∧ (∀ q ∈ ps.getLast?, q.component ≠ none) ∧ parent = ofPieces ps ∧
      p.components = ps.filterMap Piece.component ++ [c] := by
  unfold parent? at h
  split at h
  · cases h
  · rename_i last before e
    split at h
    · cases h
    · have pieces : dropIdleEnd p.pieces = before.reverse ++ [last] := by
        rw [← List.reverse_reverse (dropIdleEnd p.pieces), e, List.reverse_cons]
      obtain ⟨c, hc⟩ := Option.ne_none_iff_exists'.1 (@getLast?_dropIdleEnd p.pieces last
        (by rw [pieces, List.getLast?_concat]))
      refine ⟨dropIdleEnd before.reverse, c, ?_, fun q hq ↦ getLast?_dropIdleEnd hq,
        (Option.some.inj h).symm, ?_⟩
      · exact (prefix_dropIdleEnd _).trans ((pieces ▸ List.prefix_append _ _).trans
          (prefix_dropIdleEnd p.pieces))
      · rw [filterMap_dropIdleEnd, components, ← filterMap_dropIdleEnd, pieces,
          List.filterMap_append]
        simp [hc]

/-- The parent of a path lacks its last component. -/
theorem components_parent {p parent : Path} (h : p.parent? = some parent) :
    ∃ c, p.components = parent.components ++ [c] := by
  obtain ⟨ps, c, front, last, rfl, split⟩ := exists_pieces_of_parent? h
  exact ⟨c, by rw [components_ofPieces front last, split]⟩

/-- The parent of a path, when it ends in a name, has no idle end. -/
theorem trim_parent {p parent : Path} (h : p.parent? = some parent) {c : Component}
    (named : parent.components.getLast? = some c) (inner : c.Inner) : Trim parent := by
  obtain ⟨ps, c, front, last, rfl, -⟩ := exists_pieces_of_parent? h
  exact trim_ofPieces front last named inner

/-- A path has a parent unless nothing stands behind the root in it. -/
theorem exists_parent {p : Path} {c : Component} (last : p.components.getLast? = some c)
    (named : c ≠ .root) : ∃ parent, p.parent? = some parent := by
  unfold parent?
  rw [components, ← filterMap_dropIdleEnd] at last
  rcases List.eq_nil_or_concat (dropIdleEnd p.pieces) with e | ⟨before, q, e⟩
  · rw [e] at last
    cases last
  · obtain ⟨c', hc⟩ := Option.ne_none_iff_exists'.1 (@getLast?_dropIdleEnd p.pieces q
      (by rw [e, List.concat_eq_append, List.getLast?_concat]))
    obtain rfl : c' = c := by simpa [e, hc] using last
    rw [e, List.concat_eq_append, List.reverse_concat]
    dsimp only
    rw [hc, if_neg (by simpa using named)]
    exact ⟨_, rfl⟩

/-! ## Paths seen from others -/

theorem filterMap_dropIdleFront (ps : List Piece) :
    (ps.dropWhile fun q ↦ q.component.isNone).filterMap Piece.component =
      ps.filterMap Piece.component := by
  induction ps with
  | nil => rfl
  | cons p ps ih =>
    cases hp : p.component with
    | none => rw [List.dropWhile_cons_of_pos (by simp [hp]), ih, List.filterMap_cons_none hp]
    | some c => rw [List.dropWhile_cons_of_neg (by simp [hp])]

/-- Dropping components from the front leaves a suffix of the pieces with the components
dropped, which starts with a component. -/
theorem dropComponents_spec (n : Nat) (ps : List Piece) :
    dropComponents (n + 1) ps <:+ ps.tail ∧
      (dropComponents (n + 1) ps).filterMap Piece.component =
        (ps.filterMap Piece.component).drop (n + 1) ∧
      ∀ q ∈ (dropComponents (n + 1) ps).head?, q.component ≠ none := by
  induction ps generalizing n with
  | nil => simp [dropComponents]
  | cons p ps ih =>
    rw [dropComponents, List.tail_cons]
    cases hp : p.component with
    | none =>
      obtain ⟨suffix, components, front⟩ := ih n
      rw [if_pos Option.isNone_none, List.filterMap_cons_none hp]
      exact ⟨suffix.trans (List.tail_suffix ps), components, front⟩
    | some c =>
      rw [if_neg (by simp), List.filterMap_cons_some hp]
      cases n with
      | zero =>
        rw [if_pos rfl, List.drop_one, List.tail_cons]
        refine ⟨List.dropWhile_suffix _, filterMap_dropIdleFront ps, fun q hq ↦ ?_⟩
        have := List.head?_dropWhile_not (fun q : Piece ↦ q.component.isNone) ps
        rw [Option.mem_def.1 hq] at this
        exact Option.isSome_iff_ne_none.1 (by simpa using this)
      | succ n =>
        obtain ⟨suffix, components, front⟩ := ih n
        rw [if_neg (Nat.succ_ne_zero n), List.drop_succ_cons]
        exact ⟨suffix.trans (List.tail_suffix ps), components, front⟩

/-- What is left of a path behind its base begins and ends with pieces that stand for something. -/
theorem exists_middle_of_relativeTo? {p base r : Path} (hb : base.text ≠ "")
    (h : p.relativeTo? base = some r) :
    ∃ texts, Middle texts ∧ r = ofPieces (texts.map innerPiece) ∧
      p.components = base.components ++ inner texts := by
  unfold relativeTo? at h
  dsimp only at h
  split at h
  · obtain ⟨behind, split⟩ := List.isPrefixOf_iff_prefix.1 ‹_›
    obtain ⟨n, hn⟩ := Nat.exists_eq_succ_of_ne_zero
      (mt List.length_eq_zero_iff.1 (mt components_eq_nil.1 hb))
    obtain ⟨first, rest, hp⟩ := p.exists_split
    obtain ⟨suffix, components, head⟩ := dropComponents_spec n p.pieces
    rw [pieces_eq hp, List.tail_cons, ← pieces_eq hp] at suffix
    obtain ⟨texts, hts, e⟩ :=
      List.infix_map_iff.1 ((prefix_dropIdleEnd _).isInfix.trans suffix.isInfix)
    rw [hn, Nat.succ_eq_add_one, e] at h
    refine ⟨texts, ⟨fun t ht ↦ ?_, fun t ht ↦ ?_, fun t ht ↦ ?_⟩, (Option.some.inj h).symm, ?_⟩
    · exact Text.notMem_of_mem_splitOn (hp ▸ List.mem_cons_of_mem _ (hts.subset ht))
    · obtain ⟨texts, rfl⟩ := List.head?_eq_some_iff.1 ht
      obtain ⟨idle, hidle⟩ := prefix_dropIdleEnd (dropComponents (n + 1) p.pieces)
      rw [e] at hidle
      exact head (innerPiece t) (by rw [← hidle]; rfl)
    · refine @getLast?_dropIdleEnd (dropComponents (n + 1) p.pieces) (innerPiece t) ?_
      rw [e, List.getLast?_map, Option.mem_def.1 ht]
      rfl
    · rw [← split, ← filterMap_innerPiece, ← e, filterMap_dropIdleEnd, components]
      change base.components ++ behind = base.components ++ p.components.drop (n + 1)
      rw [← split, ← Nat.succ_eq_add_one, ← hn, List.drop_left]
  · cases h

/-- A path at or below a base has the components of the base in front, and what is left of it
behind them can be joined to another path. -/
theorem relativeTo?_eq_some {p base r : Path} (hb : base.text ≠ "")
    (h : p.relativeTo? base = some r) :
    p.components = base.components ++ r.components ∧ r.Joinable := by
  obtain ⟨texts, middle, rfl, split⟩ := exists_middle_of_relativeTo? hb h
  obtain ⟨relative, components, inner⟩ := middle.components
  exact ⟨components ▸ split, relative, components ▸ inner⟩

/-- What is left of a path below another has no idle end. -/
theorem trim_of_relativeTo? {p base r : Path} (hb : base.text ≠ "")
    (h : p.relativeTo? base = some r)
    (ne : r.components ≠ []) : Trim r := by
  obtain ⟨texts, middle, rfl, split⟩ := exists_middle_of_relativeTo? hb h
  refine middle.trim fun e ↦ ne ?_
  rw [middle.components.2.1, e]
  rfl

end Path

end PlatformOverlay
