import PlatformOverlay.Proofs.Java.WellFormed
import PlatformOverlay.Proofs.Java.Printer.Piece

/-!
# The layout of printed declarations

For each part of a declaration, which texts are printed with which spaces between them.  Putting the
texts together gives what is printed, with a line feed in front of each line instead of behind it
(`render_typePieces`, `render_unitPieces`).

A layout is a list of pieces. A piece is a text or a space, and a space is a blank or the start of a
line, with the comment in front of it and the indentation. The printer writes characters; a layout
remembers where it does so, which is what reading back goes by.
-/

namespace PlatformOverlay.Java.Printer

open PlatformOverlay.Java.Parser

/-! ## Parts of declarations -/

/-- Layouts with commas between them. -/
def separated : List (List Piece) → List Piece
  | [] => []
  | [p] => p
  | p :: q :: ps => p ++ .text "," :: .space .blank :: separated (q :: ps)

/-- A part with a space and a word in front of it. -/
def introduced (word : String) : Option String → List Piece
  | some s => [.space .blank, .text word, .space .blank, .text s]
  | none => []

def annotationPieces (a : Annotation) : List Piece :=
  .text "@" :: .text a.name :: a.arguments.toList.map .text

def modifierPieces (ms : Modifiers) : List Piece :=
  ms.keywords.flatMap fun m ↦ [.text m.keyword, .space .blank]

def paramPieces (p : Param) : List Piece :=
  (p.lead.toList.flatMap fun s ↦ [.text s, .space .blank]) ++ .text p.type ::
    (if p.varargs then [.text "..."] else []) ++ [.space .blank, .text p.name]

def paramsPieces (ps : List Param) : List Piece := separated (ps.map paramPieces)

def clausePieces (keyword : String) (types : List String) : List Piece :=
  if types.isEmpty then []
  else .space .blank :: .text keyword :: .space .blank :: separated (types.map fun t ↦ [.text t])

def kindPieces : TypeKind → List Piece
  | .annotationType => [.text "@", .text "interface"]
  | kind => [.text kind.keyword]

def headPieces (decl : TypeDecl) : List Piece :=
  modifierPieces decl.modifiers ++ kindPieces decl.kind ++ .space .blank :: .text decl.name ::
    decl.typeParams.toList.map .text ++
    (if decl.kind = .recordType then .text "(" :: paramsPieces decl.components ++ [.text ")"]
      else []) ++
    clausePieces "extends" decl.extending ++ clausePieces "implements" decl.implementing ++
    clausePieces "permits" decl.permitting ++ [.space .blank, .text "\x7b"]

def typeParamsPieces (typeParams : Option String) : List Piece :=
  typeParams.toList.flatMap fun s ↦ [.text s, .space .blank]

def contentPieces (level : Nat) : Content → List Piece
  | .field f =>
      .text f.type :: .space .blank :: .text f.name ::
        introduced "=" (f.init.map (snippet level)) ++
        [.text ";"]
  | .method m =>
      typeParamsPieces m.typeParams ++ .text m.result :: .space .blank :: .text m.name ::
        .text "(" :: paramsPieces m.params ++ .text ")" :: introduced "throws" m.throws ++
        introduced "default" m.defaultValue ++
        (match m.body with
          | some body => [.space .blank, .text (snippet level body)]
          | none => [.text ";"])
  | .constructor c =>
      typeParamsPieces c.typeParams ++ .text c.name ::
        (if c.compact then [] else .text "(" :: paramsPieces c.params ++ [.text ")"]) ++
        introduced "throws" c.throws ++ [.space .blank, .text (snippet level c.body)]
  | .initializer body => [.text (snippet level body)]

def importPieces (i : Import) : List Piece :=
  .text "import" :: .space .blank :: (if i.isStatic then [.text "static", .space .blank] else []) ++
    .text i.path :: (if i.wildcard then [.text ".*"] else []) ++ [.text ";"]

/-! ## Lines -/

/-- Layouts on lines of their own, the first of which may have an empty line and a comment in
front of it. -/
def lines (level : Nat) : Bool → Option String → List (List Piece) → List Piece
  | _, _, [] => []
  | apart, doc, l :: ls => .space (.line apart level doc) :: l ++ lines level false none ls

def itemPieces (level : Nat) (apart : Bool) (i : Item) : List Piece :=
  lines level apart (i.doc.map (snippet level)) (i.annotations.map annotationPieces ++
    [modifierPieces i.modifiers ++ contentPieces level i.content])

def constantsPieces (level : Nat) (kind : TypeKind) (hasMembers : Bool) :
    Option Snippet → List Piece
  | some s => [.space (.line false level none), .text (snippet level s), .text ";"]
  | none =>
      if kind = .enumType ∧ hasMembers then [.space (.line false level none), .text ";"] else []

mutual

def typePieces (level : Nat) (apart : Bool) : TypeDecl → List Piece
  | ⟨doc, annotations, modifiers, kind, name, typeParams, components, extending, implementing,
      permitting, enumConstants, ms⟩ =>
    let head := headPieces ⟨doc, annotations, modifiers, kind, name, typeParams, components,
      extending, implementing, permitting, enumConstants, ms⟩
    let first := constantsPieces (level + 1) kind (!ms.isEmpty) enumConstants
    lines level apart (doc.map (snippet level)) (annotations.map annotationPieces ++ [head]) ++
      first ++ membersPieces (level + 1) first.isEmpty ms ++
        [.space (.line false level none), .text "\x7d"]

def membersPieces (level : Nat) (first : Bool) : List Member → List Piece
  | [] => []
  | m :: ms => memberPieces level (!first) m ++ membersPieces level false ms

def memberPieces (level : Nat) (apart : Bool) : Member → List Piece
  | .item i => itemPieces level apart i
  | .type t => typePieces level apart t

end

/-- The pieces of a declaration, without the recursion. -/
theorem typePieces_eq (level : Nat) (apart : Bool) (decl : TypeDecl) :
    typePieces level apart decl =
      let first := constantsPieces (level + 1) decl.kind (!decl.members.isEmpty) decl.enumConstants
      lines level apart (decl.doc.map (snippet level))
          (decl.annotations.map annotationPieces ++ [headPieces decl]) ++
        first ++ membersPieces (level + 1) first.isEmpty decl.members ++
          [.space (.line false level none), .text "\x7d"] := by
  cases decl
  rfl

def typesPieces (first : Bool) : List TypeDecl → List Piece
  | [] => []
  | t :: ts => typePieces 0 (!first) t ++ typesPieces false ts

def unitPieces (u : CompilationUnit) : List Piece :=
  let header := u.header.map (snippet 0)
  (match u.package with
    | some p => lines 0 false header (u.packageAnnotations.map annotationPieces ++
        [[.text "package", .space .blank, .text p, .text ";"]])
    | none => []) ++
    lines 0 u.package.isSome (if u.package.isSome then none else header)
      (u.imports.map importPieces) ++
    typesPieces (u.package.isNone && u.imports.isEmpty) u.types

/-! ## Rendering -/

@[simp] theorem render_text (s : String) : (Piece.text s).render = s := rfl

@[simp] theorem render_blank : (Piece.space .blank).render = " " := rfl

/-- Pieces with commas between them print as text with commas. -/
theorem render_separated : ∀ ps : List (List Piece),
    render (separated ps) = String.intercalate ", " (ps.map render)
  | [] => by simp [separated]
  | [p] => by simp [separated]
  | p :: q :: ps => by
    rw [separated, render_append, render_cons, render_cons, render_separated (q :: ps),
      ← String.toList_inj]
    simp [String.intercalate_cons_cons]

/-- A part behind a keyword is printed with it or not at all. -/
theorem render_introduced (word : String) (part : Option String) :
    render (introduced word part) = optional (" " ++ word ++ " ") part "" := by
  cases part <;> simp [introduced, optional, String.append_assoc]

theorem render_annotationPieces (a : Annotation) :
    render (annotationPieces a) = annotationText a := by
  cases h : a.arguments <;> simp [annotationPieces, annotationText, h, String.append_assoc]

theorem render_modifierPieces (ms : Modifiers) : render (modifierPieces ms) = modifiers ms := by
  rw [modifierPieces, modifiers]
  induction ms.keywords with
  | nil => rfl
  | cons m ms ih => simp [ih, String.append_assoc]

theorem render_paramPieces (p : Param) : render (paramPieces p) = param p := by
  rw [← String.toList_inj]
  cases h : p.lead <;> cases h' : p.varargs <;> simp [paramPieces, param, h, h']

theorem render_paramsPieces (ps : List Param) : render (paramsPieces ps) = params ps := by
  rw [paramsPieces, render_separated, params, List.map_map]
  congr 2
  funext p
  exact render_paramPieces p

theorem render_clausePieces (keyword : String) (types : List String) :
    render (clausePieces keyword types) = clause keyword types := by
  have text : (render ∘ fun t ↦ [.text t]) = (id : String → String) := by
    funext t
    simp
  cases h : types.isEmpty <;>
    simp [clausePieces, clause, h, render_separated, text, String.append_assoc]

theorem render_kindPieces (kind : TypeKind) : render (kindPieces kind) = kind.keyword := by
  cases kind <;> simp [kindPieces, TypeKind.keyword]

theorem render_toList_map_text (s : Option String) :
    render (s.toList.map .text) = s.getD "" := by
  cases s <;> simp

theorem render_headPieces (decl : TypeDecl) : render (headPieces decl) = typeHead decl := by
  by_cases h : decl.kind = .recordType <;>
    simp [headPieces, typeHead, h, render_modifierPieces, render_kindPieces, render_paramsPieces,
      render_clausePieces, render_toList_map_text, String.append_assoc]

theorem render_typeParamsPieces (typeParams : Option String) :
    render (typeParamsPieces typeParams) = optional "" typeParams " " := by
  cases typeParams <;> simp [typeParamsPieces, optional]

theorem render_contentPieces (level : Nat) (c : Content) :
    render (contentPieces level c) = content level c := by
  cases c with
  | field f => simp [contentPieces, content, render_introduced, String.append_assoc]
  | method m =>
    cases h : m.body <;>
      simp [contentPieces, content, render_introduced, render_typeParamsPieces,
        render_paramsPieces, h, String.append_assoc]
  | constructor c =>
    cases h : c.compact <;>
      simp [contentPieces, content, render_introduced, render_typeParamsPieces,
        render_paramsPieces, h, String.append_assoc]
  | initializer b => simp [contentPieces, content]

theorem render_importPieces (i : Import) : render (importPieces i) = importDecl i := by
  rw [← String.toList_inj]
  cases h : i.isStatic <;> cases h' : i.wildcard <;> simp [importPieces, importDecl, h, h']

/-- What ends the line in front of another one. -/
def lineBreak (apart : Bool) : String := if apart then "\n\n" else "\n"

theorem lineBreak_not (first : Bool) : lineBreak (!first) = "\n" ++ if first then "" else "\n" := by
  cases first <;> rfl

/-- A line with something on it is indented. -/
theorem line_of_ne {level : Nat} {text : String} (h : text ≠ "") :
    line level text = indentation level ++ text ++ "\n" := by
  rw [line, if_neg (by simpa using h)]

/-- A line of pieces prints as its comments, its indentation and its text. -/
theorem render_line {level : Nat} {apart : Bool} {doc : Option String} {l : List Piece}
    (hl : render l ≠ "") (hd : ∀ d ∈ doc, d ≠ "") (rest : String) :
    render (.space (.line apart level doc) :: l) ++ ("\n" ++ rest) =
      lineBreak apart ++ ((doc.map (line level)).getD "" ++ (line level (render l) ++ rest)) := by
  rw [← String.toList_inj, line_of_ne hl, render_cons, Piece.render, Space.render, lineStart,
    lineBreak]
  cases doc with
  | none => simp [optional]
  | some d => simp [optional, line_of_ne (hd d rfl)]

/-- Printed parts one behind the other: the line feed between them belongs to the second. -/
theorem render_append_of_eq {ps qs : List Piece} {before text text' : String}
    (h : render ps ++ "\n" = before ++ text) (h' : render qs ++ "\n" = "\n" ++ text') :
    render (ps ++ qs) ++ "\n" = before ++ (text ++ text') := by
  rw [render_append, String.append_assoc, h', ← String.append_assoc, h, String.append_assoc]

/-- A line feed in front of printed lines moves to their end. -/
theorem render_lines {level : Nat} {apart : Bool} {doc : Option String} {l : List Piece}
    {ls : List (List Piece)} (hl : ∀ k ∈ l :: ls, render k ≠ "") (hd : ∀ d ∈ doc, d ≠ "") :
    render (lines level apart doc (l :: ls)) ++ "\n" = lineBreak apart ++
      ((doc.map (line level)).getD "" ++
        String.join ((l :: ls).map fun k ↦ line level (render k))) := by
  obtain ⟨here, hls⟩ := List.forall_mem_cons.1 hl
  induction ls generalizing l apart doc with
  | nil => simpa [lines] using @render_line level apart doc l here hd ""
  | cons l' ls ih =>
    rw [lines, render_append, String.append_assoc, ih hls, List.map_cons, String.join_cons]
    · simpa [lineBreak] using render_line here hd _
    · simp
    · exact hls l' List.mem_cons_self
    · exact (List.forall_mem_cons.1 hls).2

/-! ## Rendering declarations -/

/-- A comment text stays one when it is put at a column. -/
theorem isDoc_snippet {d : Snippet} (h : IsDoc d.text) (level : Nat) : IsDoc (snippet level d) :=
  h.reindent

theorem isGroup_snippet {b : Snippet} {opening closing : Punct}
    (h : IsGroup opening closing b.text) (level : Nat) :
    IsGroup opening closing (snippet level b) :=
  h.reindent b.column (4 * level)

theorem forall_isDoc_snippet {doc : Option Snippet} (h : ∀ d ∈ doc, IsDoc d.text) (level : Nat) :
    ∀ d ∈ doc.map (snippet level), IsDoc d := by
  intro s hs
  obtain ⟨d, hd, rfl⟩ := Option.map_eq_some_iff.1 hs
  exact isDoc_snippet (h d hd) level

theorem render_ne_empty_of_mem {s : String} {ps : List Piece} (h : .text s ∈ ps) (ne : s ≠ "") :
    render ps ≠ "" := by
  induction ps with
  | nil => simp at h
  | cons p ps ih =>
    rw [render_cons]
    intro e
    rw [String.append_eq_empty_iff] at e
    rcases List.mem_cons.1 h with rfl | h
    · exact ne e.1
    · exact ih h e.2

theorem content_ne_empty {kind : TypeKind} {name : String} {c : Content}
    (h : c.WellFormed kind name) (level : Nat) : render (contentPieces level c) ≠ "" := by
  cases c with
  | field f => exact render_ne_empty_of_mem (s := ";") (by simp [contentPieces]) (by simp)
  | method m => exact render_ne_empty_of_mem (s := "(") (by simp [contentPieces]) (by simp)
  | constructor c =>
    exact render_ne_empty_of_mem (s := snippet level c.body) (by simp [contentPieces])
      (isGroup_snippet h.body level).slice.ne_empty
  | initializer b =>
    exact render_ne_empty_of_mem (s := snippet level b) (by simp [contentPieces])
      (isGroup_snippet h level).slice.ne_empty

/-- What is in front of a declaration and its first line. -/
theorem render_declaration (level : Nat) (apart : Bool) (annotations : List Annotation)
    {doc : Option Snippet} {main : List Piece} (hd : ∀ d ∈ doc, IsDoc d.text)
    (hm : render main ≠ "") :
    render (lines level apart (doc.map (snippet level))
      (annotations.map annotationPieces ++ [main])) ++ "\n" =
        lineBreak apart ++ (lead level doc annotations ++ line level (render main)) := by
  obtain ⟨l, ls, hls⟩ := List.exists_cons_of_ne_nil
    (show annotations.map annotationPieces ++ [main] ≠ [] by simp)
  have nonempty : ∀ k ∈ annotations.map annotationPieces ++ [main], render k ≠ "" := by
    intro k hk
    rcases List.mem_append.1 hk with hk | hk
    · obtain ⟨a, -, rfl⟩ := List.mem_map.1 hk
      exact render_ne_empty_of_mem (s := "@") (by simp [annotationPieces]) (by simp)
    · exact List.mem_singleton.1 hk ▸ hm
  rw [hls] at nonempty ⊢
  rw [render_lines nonempty fun d hd' ↦ (forall_isDoc_snippet hd level d hd').ne_empty, ← hls, lead]
  simp [Function.comp_def, render_annotationPieces, String.append_assoc]

theorem render_itemPieces {kind : TypeKind} {name : String} {i : Item}
    (h : i.WellFormed kind name) (level : Nat) (apart : Bool) :
    render (itemPieces level apart i) ++ "\n" = lineBreak apart ++ item level i := by
  have ne : render (modifierPieces i.modifiers ++ contentPieces level i.content) ≠ "" := by
    rw [render_append]
    exact fun e ↦ content_ne_empty h.content level (String.append_eq_empty_iff.1 e).2
  rw [itemPieces, render_declaration level apart i.annotations h.doc ne, item, render_append,
    render_modifierPieces,
    render_contentPieces]

theorem headPieces_ne_empty (decl : TypeDecl) : render (headPieces decl) ≠ "" :=
  render_ne_empty_of_mem (s := "\x7b") (by simp [headPieces]) (by simp)

theorem render_constantsPieces {constants : Option Snippet} {level : Nat} {kind : TypeKind}
    {hasMembers : Bool} :
    render (constantsPieces level kind hasMembers constants) ++ "\n" =
      "\n" ++ Printer.constants level kind hasMembers constants := by
  cases constants with
  | some s =>
    rw [Printer.constants, line_of_ne (by simp), ← String.toList_inj]
    simp [constantsPieces, Piece.render, Space.render, lineStart, optional]
  | none =>
    rw [constantsPieces, Printer.constants]
    split
    · rw [line_of_ne (by simp), ← String.toList_inj]
      simp [Piece.render, Space.render, lineStart, optional]
    · rfl

theorem isEmpty_constantsPieces (level : Nat) (kind : TypeKind) (hasMembers : Bool)
    (constants : Option Snippet) :
    (constantsPieces level kind hasMembers constants).isEmpty =
      (Printer.constants level kind hasMembers constants).isEmpty := by
  have ne : ∀ {s}, s ≠ "" → (line level s).isEmpty = false := by
    intro s hs
    rw [line_of_ne hs]
    simp
  cases constants with
  | some s => simp [constantsPieces, Printer.constants, ne]
  | none =>
    rw [constantsPieces, Printer.constants]
    split
    · simp [ne]
    · simp

/-- Members one behind the other, with an empty line between them if they are apart. -/
theorem render_membersPieces {level : Nat} {ms : List Member}
    (h : ∀ m ∈ ms, ∀ apart, render (memberPieces level apart m) ++ "\n" =
      lineBreak apart ++ member level m) (first : Bool) :
    render (membersPieces level first ms) ++ "\n" = "\n" ++ members level first ms := by
  induction ms generalizing first with
  | nil => simp [membersPieces, members]
  | cons m ms ih =>
    obtain ⟨hm, hms⟩ := List.forall_mem_cons.1 h
    rw [membersPieces, members, render_append_of_eq (hm (!first)) (ih hms false), lineBreak_not]
    simp [String.append_assoc]

/-- A declaration prints as the printer does it, by induction on the types in it. -/
theorem render_typePieces {decl : TypeDecl} (h : decl.All TypeDecl.WellFormed) (level : Nat)
    (apart : Bool) :
    render (typePieces level apart decl) ++ "\n" = lineBreak apart ++ typeDecl level decl := by
  induction h generalizing level apart with
  | @mk decl here nested ih =>
    have each : ∀ m ∈ decl.members, ∀ apart, render (memberPieces (level + 1) apart m) ++ "\n" =
        lineBreak apart ++ member (level + 1) m := by
      intro m hm apart
      cases m with
      | item i => exact render_itemPieces (here.items i hm) (level + 1) apart
      | type t => exact ih t hm (level + 1) apart
    have close : render [.space (.line false level none), .text "\x7d"] ++ "\n" =
        "\n" ++ line level "\x7d" := by
      rw [line_of_ne (by simp), ← String.toList_inj]
      simp [Piece.render, Space.render, lineStart, optional]
    have head := render_declaration level apart decl.annotations here.head.doc
      (headPieces_ne_empty decl)
    rw [render_headPieces] at head
    rw [typePieces_eq, typeDecl_eq]
    dsimp only
    rw [← isEmpty_constantsPieces]
    exact render_append_of_eq (render_append_of_eq (render_append_of_eq head
      render_constantsPieces) (render_membersPieces each _)) close

theorem render_typesPieces {ts : List TypeDecl} (h : ∀ t ∈ ts, t.All TypeDecl.WellFormed)
    (first : Bool) : render (typesPieces first ts) ++ "\n" = "\n" ++ types first ts := by
  induction ts generalizing first with
  | nil => simp [typesPieces, types]
  | cons t ts ih =>
    obtain ⟨ht, hts⟩ := List.forall_mem_cons.1 h
    rw [typesPieces, types, render_append_of_eq (render_typePieces ht 0 (!first)) (ih hts false),
      lineBreak_not]
    simp [String.append_assoc]

/-- Behind what is in front of the types stands an empty line. -/
theorem exists_render_typesPieces {ts : List TypeDecl} (h : ∀ t ∈ ts, t.All TypeDecl.WellFormed) :
    ∃ trailing, (trailing = "\n" ∨ trailing = "\n\n") ∧
      render (typesPieces false ts) ++ trailing = "\n" ++ ("\n" ++ types true ts) := by
  cases ts with
  | nil => exact ⟨"\n\n", .inr rfl, by simp [typesPieces, types]⟩
  | cons t ts =>
    refine ⟨"\n", .inl rfl, ?_⟩
    rw [render_typesPieces h]
    simp [types, String.append_assoc]

/-- The imports of a file behind its header comments. -/
theorem render_importLines {apart : Bool} {header : Option Snippet} {is : List Import}
    (hh : ∀ d ∈ header, IsDoc d.text) (ne : is ≠ []) :
    render (lines 0 apart (header.map (snippet 0)) (is.map importPieces)) ++ "\n" =
      lineBreak apart ++ (lead 0 header [] ++
        String.join (is.map fun i ↦ importDecl i ++ "\n")) := by
  obtain ⟨i, is, rfl⟩ := List.exists_cons_of_ne_nil ne
  have nonempty : ∀ i : Import, render (importPieces i) ≠ "" := fun i ↦
    render_ne_empty_of_mem (s := "import") (by simp [importPieces]) (by simp)
  have zero : indentation 0 = "" := rfl
  have text : ∀ i, line 0 (render (importPieces i)) = importDecl i ++ "\n" := by
    intro i
    rw [line_of_ne (nonempty i), render_importPieces, zero]
    simp
  rw [List.map_cons, render_lines _ fun d hd ↦ (forall_isDoc_snippet hh 0 d hd).ne_empty]
  · simp [lead, text, Function.comp_def]
  · intro k hk
    obtain ⟨i, -, rfl⟩ := List.mem_map.1 (by simpa using hk : k ∈ (i :: is).map importPieces)
    exact nonempty i

/-- The printed file, with a line feed in front of it, is its layout and one or two line feeds. -/
theorem render_unitPieces {u : CompilationUnit} (h : u.WellFormed) :
    ∃ trailing, (trailing = "\n" ∨ trailing = "\n\n") ∧
      render (unitPieces u) ++ trailing = "\n" ++ u.print := by
  obtain ⟨header, package, annotations, imports, ts⟩ := u
  obtain ⟨tr, htr, hts⟩ := exists_render_typesPieces h.types
  have zero : indentation 0 = "" := rfl
  -- An empty line separates the types from what is before them.
  have behind : ∀ {front : List Piece} {text : String}, render front ++ "\n" = "\n" ++ text →
      render (front ++ typesPieces false ts) ++ tr = "\n" ++ (text ++ ("\n" ++ types true ts)) := by
    intro front text hf
    rw [render_append, String.append_assoc, hts, ← String.append_assoc, hf]
    simp [String.append_assoc]
  cases package with
  | some p =>
    have main : render [.text "package", .space .blank, .text p, .text ";"] ≠ "" :=
      render_ne_empty_of_mem (s := "package") (by simp) (by simp)
    have front := render_declaration 0 false annotations h.header main
    rw [line_of_ne main, zero] at front
    refine ⟨tr, htr, ?_⟩
    by_cases ne : imports = []
    · have whole := congrArg String.toList (behind front)
      rw [← String.toList_inj]
      simpa [unitPieces, lines, CompilationUnit.print, compilationUnit, optional, ne] using whole
    · have next : render (lines 0 true none (imports.map importPieces)) ++ "\n" =
          "\n" ++ ("\n" ++ String.join (imports.map fun i ↦ importDecl i ++ "\n")) := by
        have := congrArg String.toList (@render_importLines true none imports (by simp) ne)
        rw [← String.toList_inj]
        simpa [lineBreak, lead] using this
      have whole := congrArg String.toList (behind (render_append_of_eq front next))
      rw [← String.toList_inj]
      simpa [unitPieces, CompilationUnit.print, compilationUnit, optional, ne] using whole
  | none =>
    obtain rfl : annotations = [] := by simpa using h.packaged
    by_cases ne : imports = []
    · obtain rfl : header = none := by simpa [ne] using h.headed
      refine ⟨"\n", .inl rfl, ?_⟩
      have whole := render_typesPieces h.types true
      simpa [unitPieces, lines, CompilationUnit.print, compilationUnit, optional, lead, ne]
        using whole
    · have some : imports.isEmpty = false := by simpa using ne
      have front : render (lines 0 false (header.map (snippet 0)) (imports.map importPieces)) ++
          "\n" = "\n" ++ (lead 0 header [] ++
            String.join (imports.map fun i ↦ importDecl i ++ "\n")) :=
        render_importLines h.header ne
      have whole := behind front
      refine ⟨tr, htr, ?_⟩
      simpa [unitPieces, CompilationUnit.print, compilationUnit, optional, some,
        String.append_assoc] using whole

end PlatformOverlay.Java.Printer
