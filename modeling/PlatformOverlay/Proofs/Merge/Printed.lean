import PlatformOverlay.Proofs.Java.RoundTrip
import PlatformOverlay.Proofs.Merge.Idempotence
import PlatformOverlay.Proofs.Merge.Supertypes

/-!
# Merged files can be printed and read

A merged type is no longer one that has been read: items of two files stand in it, and it may have
adopted supertypes, type parameters and enum constants.  What reading a printed type needs of it is
known of the platform types and of the common ones, and the passes keep it (`Overlaid.readable`).
The one thing that depends on where an item stands is a compact constructor, which needs a record of
its name around it; so a class takes in items only from a class of its kind.

`TypeDecl.Readable` collects what is needed of one type, nested types aside, and each part of it has
one source:

* its head is put together from those of two readable types (`headWellFormed_reparent`,
  `constants_reparent`);
* each of its items has lost marks at most (`wellFormed_clearItem`), or has moved from a common type
  of the same kind and may have got another name (`wellFormed_renameConstructor`);
* its nested types are readable by induction along the passes.

Reading back is then a matter of the single file and has nothing to do with merging
(`parse_print_of_wellFormed`).

## What is not claimed

The files that are not read back when they are printed unmerged are not read back here either, as a
merge leaves unmarked types alone (`mergedNotRead_of_unmarked`, `exists_merged_not_read`). They are
excluded on both sides, since an item of the kind may come from the common file.
-/

namespace PlatformOverlay

open Java Java.Parser Model

namespace Java

/-- The type, nested types aside, is written so that it can be read. -/
structure TypeDecl.Readable (decl : TypeDecl) : Prop where
  wellFormed : decl.WellFormed
  printable : decl.Printable

/-- What holds of all types in a declaration holds of all in a nested one. -/
theorem TypeDecl.All.of_mem {p : TypeDecl → Prop} {decl t : TypeDecl} (h : decl.All p)
    (ht : t ∈ decl.nestedTypes) : t.All p := by
  obtain ⟨-, nested⟩ := h
  exact nested t (TypeDecl.mem_nestedTypes.1 ht)

theorem TypeDecl.All.here {p : TypeDecl → Prop} {decl : TypeDecl} (h : decl.All p) : p decl := by
  obtain ⟨here, -⟩ := h
  exact here

theorem TypeDecl.All.mono {p q : TypeDecl → Prop} {decl : TypeDecl} (h : decl.All p)
    (hpq : ∀ t, p t → q t) : decl.All q := by
  induction h with
  | mk here _ ih => exact .mk (hpq _ here) ih

/-- Readable at all depths is well formed and printable at all depths. -/
theorem TypeDecl.all_readable_iff {decl : TypeDecl} :
    decl.All TypeDecl.Readable ↔ decl.All TypeDecl.WellFormed ∧ decl.All TypeDecl.Printable := by
  constructor
  · exact fun h ↦ ⟨h.mono fun _ h ↦ h.wellFormed, h.mono fun _ h ↦ h.printable⟩
  · rintro ⟨wf, printable⟩
    induction wf with
    | mk here _ ih =>
      obtain ⟨printed, nested⟩ := printable
      exact .mk ⟨here, printed⟩ fun t ht ↦ ih t ht (nested t ht)

/-- A well-formed unit is read back from its print, without being the result of a parse itself. -/
theorem parse_print_of_wellFormed {path : Path} {u : CompilationUnit}
    (info : isModuleInfo path = false)
    (wf : u.WellFormed) (printable : u.Printable) : parse path u.print = .ok u.printed := by
  obtain ⟨lexed, ht, hf⟩ := Printer.exists_tokenize_print wf
  exact parse_of_tokenizeChars info ht (compilationUnit_of_fits wf printable hf)

theorem TypeDecl.All.enclosed {p : TypeDecl → Prop} {q r : String} {decl t : TypeDecl}
    (h : decl.All p) (ht : Encloses q decl r t) : t.All p := by
  induction ht with
  | refl => exact h
  | nested ht _ ih => exact ih (h.of_mem ht)

end Java

namespace Merge

/-! ## Items that move -/

section item

variable {kind : TypeKind} {name owner : String} {i : Item}

/-- Taking marks off keeps an item well formed. -/
theorem wellFormed_clearItem (h : i.WellFormed kind name) (passes : List Pass) :
    (clearItem passes i).WellFormed kind name := by
  unfold clearItem
  split
  · exact { h with annotations := fun a ha ↦ h.annotations a (List.mem_of_mem_filter ha) }
  · exact h

/-- A constructor is as well-formed under its new name. -/
theorem wellFormed_renameConstructor (h : i.WellFormed kind owner) (hn : IsName name) :
    (renameConstructor name i).WellFormed kind name := by
  obtain ⟨doc, annotations, content⟩ := h
  unfold renameConstructor
  cases hc : i.content with
  | constructor c =>
    rw [hc] at content
    have compact (is_compact : c.compact = true) :
        kind = .recordType ∧ name = name ∧ c.params = [] ∧ c.throws = none := by
      obtain ⟨hk, -, params, throws⟩ := content.compact is_compact
      exact ⟨hk, rfl, params, throws⟩
    exact ⟨doc, annotations, { content with name := hn, compact }⟩
  | field f => exact ⟨doc, annotations, by rw [hc] at content ⊢; exact content⟩
  | method m => exact ⟨doc, annotations, by rw [hc] at content ⊢; exact content⟩
  | initializer b => exact ⟨doc, annotations, by rw [hc] at content ⊢; exact content⟩

theorem plainlyTyped_renameConstructor (h : i.content.PlainlyTyped) (name : String) :
    (renameConstructor name i).content.PlainlyTyped := by
  unfold renameConstructor
  cases hc : i.content with
  | constructor c => trivial
  | field f => exact h
  | method m => exact h
  | initializer b => exact h

end item

/-! ## Adopted parts -/

section reparent

variable {platform common : TypeDecl}

/-- The head of a class with the supertypes and parameters of two well-formed ones is well
formed. -/
theorem headWellFormed_reparent (hp : platform.HeadWellFormed) (hc : common.HeadWellFormed) :
    (reparent platform common).HeadWellFormed := by
  have typeParams : ∀ s ∈ platform.typeParams <|> common.typeParams, IsGroup .lt .gt s := by
    cases h : platform.typeParams with
    | none => exact hc.typeParams
    | some own => exact fun s hs ↦ hp.typeParams s (h ▸ hs)
  have united {own extra : List String} (ho : ∀ t ∈ own, IsType t) (he : ∀ t ∈ extra, IsType t) :
      ∀ t ∈ uniteTypes own extra, IsType t :=
    fun t ht ↦ (mem_uniteTypes ht).elim (ho t) (he t)
  unfold reparent
  split
  · exact { hp with typeParams, extending := united hp.extending hc.extending }
  · have implementing := united hp.implementing hc.implementing
    refine { hp with typeParams, extending := ?_, implementing }
    dsimp only
    split
    · exact hc.extending
    · exact hp.extending

/-- Constants are taken over between enums only, so they stay the text of constants. -/
theorem constants_reparent (hp : platform.WellFormed) (hc : common.WellFormed) :
    (∀ s ∈ (reparent platform common).enumConstants,
      IsTextUntil endsConstants [.punct .semi] s.text) ∧
      ((reparent platform common).enumConstants ≠ none → platform.kind = .enumType) := by
  unfold reparent
  split
  · exact ⟨hp.constants, hp.enum⟩
  · dsimp only
    split
    · refine ⟨?_, fun _ ↦ ‹_›⟩
      cases h : platform.enumConstants with
      | none => exact hc.constants
      | some own => exact fun s hs ↦ hp.constants s (h ▸ hs)
    · exact ⟨hp.constants, hp.enum⟩

end reparent

/-! ## What the passes keep -/

/-- The class takes in items of its common counterpart. -/
def TakesIn (d : TypeDecl) : Prop := d.hasMark .inheritMissingMembers ∨ d.hasMark .inherit

/-- Each class in the type that takes in items is of the kind of its common counterpart. -/
def KindsAgree (common : CommonClasses) (q : String) (d : TypeDecl) : Prop :=
  ∀ r t, Encloses q d r t → TakesIn t → ∀ c ∈ common.find? r, t.kind = c.decl.kind

/-- Kinds that agree do so for nested types. -/
theorem KindsAgree.nested {common : CommonClasses} {q : String} {d t : TypeDecl}
    (h : KindsAgree common q d) (ht : t ∈ d.nestedTypes) :
    KindsAgree common (nestedName q t.name) t :=
  fun r u hu ↦ h r u (.nested ht hu)

/-- A class that a grafting pass treats takes something in. -/
theorem takesIn_of_grafts {pass : Pass} {d : TypeDecl} (grafts : pass.grafts = true)
    (treats : pass.treats d = true) : TakesIn d := by
  cases pass with
  | inheritMissingMembers => exact .inl treats
  | inherit => exact .inr treats
  | overwriteClass => cases grafts
  | overwrite => cases grafts

section overlaid

variable {common : CommonClasses} {passes : List Pass} {q : String} {d e : TypeDecl}

/-- What is in common classes can be read, and grafting into them again goes between classes of one
kind. -/
structure GraftsReadably (common : CommonClasses) : Prop where
  readable : ∀ q, ∀ c ∈ common.find? q, c.decl.All TypeDecl.Readable
  kinds : ∀ q, ∀ c ∈ common.find? q, KindsAgree common q c.decl

/-- An item of a merged type is one of the platform type, or one of a common type of its kind that
has been moved. -/
theorem Overlaid.item_readable (grafts : GraftsReadably common)
    (h : Overlaid common passes q d e) (readable : d.Readable) (kinds : KindsAgree common q d)
    {j : Item} (hj : .item j ∈ e.members) :
    j.WellFormed d.kind d.name ∧ .sealed ∉ j.modifiers ∧ j.content.PlainlyTyped := by
  rcases h.cases_item (TypeDecl.mem_items.2 hj) with ⟨i, hi, rfl⟩ | hg
  · have hi := TypeDecl.mem_items.1 hi
    refine ⟨wellFormed_clearItem (readable.wellFormed.items i hi) _, ?_, ?_⟩
    · rw [modifiers_clearItem]
      exact readable.printable.items i hi
    · rw [content_clearItem]
      exact readable.printable.plain i hi
  · cases hg with
    | @item _ after pass _ _ c i grafting treats hc hi lacking =>
      have common_readable := (grafts.readable q c hc).here
      have same := kinds q d .refl (takesIn_of_grafts grafting treats) c hc
      have hi := TypeDecl.mem_items.1 hi
      have moved := common_readable.wellFormed.items i hi
      rw [← same] at moved
      refine ⟨wellFormed_clearItem
        (wellFormed_renameConstructor moved readable.wellFormed.head.name) _, ?_, ?_⟩
      · rw [modifiers_clearItem, modifiers_renameConstructor]
        exact common_readable.printable.items i hi
      · rw [content_clearItem]
        exact plainlyTyped_renameConstructor (common_readable.printable.plain i hi) _

/-- What becomes of a readable class is readable, apart from its nested types: each part of its
head and each item comes from a readable class. -/
theorem Overlaid.readable_self (grafts : GraftsReadably common) (h : Overlaid common passes q d e)
    (readable : d.Readable) (kinds : KindsAgree common q d) : e.Readable := by
  have items {j : Item} (hj : .item j ∈ e.members) := h.item_readable grafts readable kinds hj
  obtain ⟨wf, printable⟩ := readable
  have annotations : ∀ a ∈ clearClass passes d.annotations, a.WellFormed :=
    fun a ha ↦ wf.head.annotations a (List.mem_of_mem_filter ha)
  -- Modifiers, kind and name are those of the platform type; what is adopted comes from a type
  -- that can be read as well.
  have adopted : (adopt common passes q d).HeadWellFormed ∧
      (∀ s ∈ (adopt common passes q d).enumConstants,
        IsTextUntil endsConstants [.punct .semi] s.text) ∧
      ((adopt common passes q d).enumConstants ≠ none → d.kind = .enumType) := by
    unfold adopt
    split
    · cases hc : common.find? q with
      | none => exact ⟨wf.head, wf.constants, wf.enum⟩
      | some c =>
        have common_wf := (grafts.readable q c hc).here.wellFormed
        exact ⟨headWellFormed_reparent wf.head common_wf.head, constants_reparent wf common_wf⟩
    · exact ⟨wf.head, wf.constants, wf.enum⟩
  obtain ⟨head, constants, enum⟩ := adopted
  obtain ⟨typeParams, extending, implementing, enumConstants, eq⟩ := adopt_eq common passes q d
  have merged := h.eq
  rw [eq] at merged head constants enum
  rw [merged]
  exact ⟨⟨{ head with annotations }, constants, enum, fun j hj ↦ (items hj).1⟩,
    { printable with items := fun j hj ↦ (items hj).2.1, plain := fun j hj ↦ (items hj).2.2 }⟩

/-- What passes make of a type that can be read can be read, with all types in it. -/
theorem Overlaid.readable (grafts : GraftsReadably common) (h : Overlaid common passes q d e)
    (readable : d.All TypeDecl.Readable) (kinds : KindsAgree common q d) :
    e.All TypeDecl.Readable := by
  induction e using TypeDecl.nestingInduction generalizing passes q d with
  | step e ih =>
    refine .mk (h.readable_self grafts readable.here kinds) fun t' ht' ↦ ?_
    have ht' := TypeDecl.mem_nestedTypes.2 ht'
    rcases h.cases_nestedType ht' with ⟨t, ht, h'⟩ | hg
    · exact ih t' ht' h' (readable.of_mem ht) (kinds.nested ht)
    · obtain _ | ⟨-, hc, ht, -, h'⟩ := hg
      exact ih t' ht' h' ((grafts.readable q _ hc).of_mem ht) ((grafts.kinds q _ hc).nested ht)

end overlaid

/-! ## Models that have been read -/

section model

variable {sources : List (Path × String)} {common model : SourceModel}

/-- Every file of a model that was parsed is the parse of its text. -/
theorem parse_of_mem (h : SourceModel.parse sources = .ok model) {file : SourceFile}
    (hf : file ∈ model.files) : Java.parse file.path file.text = .ok file.unit := by
  unfold SourceModel.parse at h
  dsimp only at h
  split at h
  · obtain rfl := Except.ok.inj h
    obtain ⟨read, hread, ok⟩ := List.mem_filterMap.1 hf
    obtain ⟨⟨path, text⟩, -, rfl⟩ := List.mem_map.1 hread
    cases hu : Java.parse path text with
    | error e =>
      rw [hu] at ok
      cases ok
    | ok u =>
      rw [hu] at ok
      obtain rfl := Option.some.inj ok
      exact hu
  · cases h

/-- All files of the model can be read again once they are printed. -/
def Printable (model : SourceModel) : Prop := ∀ file ∈ model.files, file.unit.Printable

/-- Each class of the model that takes in items is of the kind of its common counterpart. -/
def InheritorsAgree (common : CommonClasses) (model : SourceModel) : Prop :=
  ∀ x ∈ model.classes, TakesIn x.decl → ∀ c ∈ common.find? x.qualified, x.decl.kind = c.decl.kind

/-- The condition on a model, for one type of it. -/
theorem InheritorsAgree.kindsAgree {common : CommonClasses} (h : InheritorsAgree common model)
    {package : Option String} {q : String} {d : TypeDecl} (hd : model.Declares package q d) :
    KindsAgree common q d := by
  intro r t ht takes c hc
  obtain ⟨x, hx, -, rfl, rfl⟩ := (hd.enclosed ht).exists_mem
  exact h x hx takes c hc

/-- All types of a parsed model are readable. -/
theorem all_readable_of_parse (h : SourceModel.parse sources = .ok model)
    (printable : Printable model)
    {file : SourceFile} (hf : file ∈ model.files) {t : TypeDecl} (ht : t ∈ file.unit.types) :
    t.All TypeDecl.Readable :=
  TypeDecl.all_readable_iff.2
    ⟨(wellFormed_of_parse (parse_of_mem h hf)).types t ht, printable file hf t ht⟩

theorem graftsReadably_of_parse (h : SourceModel.parse sources = .ok common)
    (printable : Printable common) (kinds : InheritorsAgree (.ofModel common) common) :
    GraftsReadably (.ofModel common) where
  readable := by
    intro q c hc
    obtain ⟨file, hf, -, t, ht, encloses⟩ := CommonClasses.declares_of_find? hc
    exact (all_readable_of_parse h printable hf ht).enclosed encloses
  kinds := fun _ _ hc ↦ kinds.kindsAgree (CommonClasses.declares_of_find? hc)

/-- Merged files can be printed and read: each is read as what has been merged, snippets moved to
where they are printed. -/
theorem parse_print_run {commonSources platformSources : List (Path × String)}
    {common platform : SourceModel} (readCommon : SourceModel.parse commonSources = .ok common)
    (readPlatform : SourceModel.parse platformSources = .ok platform)
    (printable : Printable common ∧ Printable platform)
    (kinds : InheritorsAgree (.ofModel common) common ∧ InheritorsAgree (.ofModel common) platform)
    (ok : (run (.ofModel common) platform).fault = none) :
    List.Forall₂ (fun file merged : SourceFile ↦ merged.path = file.path ∧
        Java.parse file.path merged.unit.print = .ok merged.unit.printed)
      platform.files (run (.ofModel common) platform).value.files := by
  have grafts := graftsReadably_of_parse readCommon printable.1 kinds.1
  refine ((List.forall₂_and_left _ _).2 ⟨fun _ ↦ id, overlaid_merge ok⟩).imp ?_
  rintro file merged ⟨hf, eq, types⟩
  refine ⟨by rw [eq], ?_⟩
  have parsed := parse_of_mem readPlatform hf
  have readable : ∀ e ∈ merged.unit.types, e.All TypeDecl.Readable := by
    intro e he
    obtain ⟨t, ht, overlaid⟩ := exists_of_forall₂ types he
    exact overlaid.readable grafts (all_readable_of_parse readPlatform printable.2 hf ht)
      (kinds.2.kindsAgree ⟨file, hf, rfl, t, ht, .refl⟩)
  have unit : merged.unit = { file.unit with types := merged.unit.types } :=
    congrArg SourceFile.unit eq
  rw [unit]
  cases info : isModuleInfo file.path with
  | true =>
    rw [parse, if_pos info] at parsed ⊢
    rw [← Except.ok.inj parsed] at types ⊢
    rw [List.forall₂_nil_left_iff.1 types]
    rfl
  | false =>
    have readable := fun e he ↦ TypeDecl.all_readable_iff.1 (readable e he)
    exact parse_print_of_wellFormed info
      { wellFormed_of_parse parsed with types := fun e he ↦ (readable e he).1 }
      fun e he ↦ (readable e he).2

theorem parse_singleton {path : Path} {text : String} {u : CompilationUnit}
    (h : Java.parse path text = .ok u) :
    SourceModel.parse [(path, text)] = .ok ⟨[⟨path, text, u⟩]⟩ := by
  simp [SourceModel.parse, h, Except.map, Except.toOption]

theorem printable_singleton {path : Path} {text : String} {u : CompilationUnit} (h : u.Printable) :
    Printable ⟨[⟨path, text, u⟩]⟩ :=
  List.forall_mem_singleton.2 h

/-- A constructor, a field with a value and an enum taken in by a class that overwrites a field. -/
theorem parse_print_run_pair : ∃ common platform : SourceModel,
    SourceModel.parse
      [(⟨"C.java"⟩, "class C \x7b C() \x7b \x7d int x = 1; int y; enum E \x7b A \x7d \x7d")] =
      .ok common ∧
    SourceModel.parse [(⟨"C.java"⟩, "@Inherit class C \x7b @Overwrite long y; \x7d")] =
      .ok platform ∧
    (Printable common ∧ Printable platform) ∧
    (InheritorsAgree (.ofModel common) common ∧ InheritorsAgree (.ofModel common) platform) ∧
    (run (.ofModel common) platform).fault = none ∧
    List.Forall₂ (fun file merged : SourceFile ↦ merged.path = file.path ∧
        Java.parse file.path merged.unit.print = .ok merged.unit.printed)
      platform.files (run (.ofModel common) platform).value.files := by
  let inner : TypeDecl := { TypeDecl.bare .enumType "E" with enumConstants := some ⟨"A", 45⟩ }
  let outer : TypeDecl :=
    { TypeDecl.bare .classType "C" with
      members :=
        [.item ⟨none, [], .empty, .constructor ⟨none, "C", [], false, none, ⟨"\x7b \x7d", 10⟩⟩⟩,
        .item ⟨none, [], .empty, .field ⟨"int", "x", some ⟨"1", 18⟩⟩⟩,
        .item ⟨none, [], .empty, .field ⟨"int", "y", none⟩⟩, .type inner] }
  let inheriting : TypeDecl :=
    { TypeDecl.bare .classType "C" with
      annotations := [⟨"Inherit", none⟩]
      members := [.item ⟨none, [⟨"Overwrite", none⟩], .empty, .field ⟨"long", "y", none⟩⟩] }
  have readCommon : Java.parse ⟨"C.java"⟩
      "class C \x7b C() \x7b \x7d int x = 1; int y; enum E \x7b A \x7d \x7d" =
      .ok ⟨none, none, [], [], [outer]⟩ := by
    refine @parse_of_tokenizeChars _ _ _ _ [] (by decide +kernel) (by cbv) ?_
    rfl
  have readPlatform : Java.parse ⟨"C.java"⟩ "@Inherit class C \x7b @Overwrite long y; \x7d" =
      .ok ⟨none, none, [], [], [inheriting]⟩ := by
    refine @parse_of_tokenizeChars _ _ _ _ [] (by decide +kernel) (by cbv) ?_
    rfl
  have printableInner : inner.Printable :=
    ⟨⟨by decide, by decide, by decide, by simp [inner, TypeDecl.bare]⟩, by decide,
      by simp [inner, TypeDecl.bare]⟩
  have printableOuter : outer.Printable :=
    ⟨⟨by decide, by decide, by decide, by simp [outer]; decide⟩, by decide,
      by simp [outer, Content.PlainlyTyped]⟩
  have printableInheriting : inheriting.Printable :=
    ⟨⟨by decide, by decide, by decide, by simp [inheriting]; decide⟩, by decide,
      by simp [inheriting, Content.PlainlyTyped]⟩
  have printable : CompilationUnit.Printable ⟨none, none, [], [], [outer]⟩ ∧
      CompilationUnit.Printable ⟨none, none, [], [], [inheriting]⟩ := by
    refine ⟨List.forall_mem_singleton.2 (.mk printableOuter fun t ht ↦ ?_),
      List.forall_mem_singleton.2 (.mk printableInheriting (by simp [inheriting]))⟩
    obtain rfl : t = inner := by simpa [outer] using ht
    exact .mk printableInner (by simp [inner, TypeDecl.bare])
  have readCommon := parse_singleton readCommon
  have readPlatform := parse_singleton readPlatform
  refine ⟨_, _, readCommon, readPlatform, ?printable, ?kinds, ?ok,
    parse_print_run readCommon readPlatform ?printable ?kinds ?ok⟩
  case printable => exact ⟨printable_singleton printable.1, printable_singleton printable.2⟩
  case kinds =>
    unfold InheritorsAgree TakesIn
    decide +kernel
  case ok => decide +kernel

/-- Without common classes there is nothing to agree with. -/
theorem inheritorsAgree_of_empty (model : SourceModel) : InheritorsAgree (.ofModel ⟨[]⟩) model := by
  intro x _ _ c hc
  simp [CommonClasses.find?, CommonClasses.ofModel, SourceModel.classes] at hc

/-- By itself the platform file is merged without a fault, over no common classes, and what is
printed then is not read as the merged file. -/
def MergedNotRead (path : Path) (text : String) : Prop :=
  ∃ platform : SourceModel, SourceModel.parse [(path, text)] = .ok platform ∧
    (∀ file ∈ platform.files, ∀ t ∈ file.unit.types, t.All TypeDecl.SealedAllowed) ∧
    InheritorsAgree (.ofModel ⟨[]⟩) platform ∧ (run (.ofModel ⟨[]⟩) platform).fault = none ∧
    ∃ merged ∈ (run (.ofModel ⟨[]⟩) platform).value.files, ∀ v,
      Java.parse merged.path merged.unit.print = .ok v → v.print ≠ merged.unit.print

/-- A file of unmarked types is merged into what it is. -/
theorem mergedNotRead_of_unmarked {path : Path} {text : String} {u : CompilationUnit}
    (read : Java.parse path text = .ok u) (allowed : ∀ t ∈ u.types, t.All TypeDecl.SealedAllowed)
    (unmarked : ∀ t ∈ u.types, t.nestedTypes = [] ∧ ∀ pass, Pass.treats t pass = false)
    (differs : ∀ v, Java.parse path u.print = .ok v → v.print ≠ u.print) :
    MergedNotRead path text := by
  have idle : IdleModel ⟨[⟨path, text, u⟩]⟩ := by
    refine List.forall_mem_singleton.2 fun t ht r e encloses ↦ ?_
    obtain ⟨none, untreated⟩ := unmarked t ht
    cases encloses with
    | refl => exact untreated
    | nested he => simp [none] at he
  refine ⟨_, parse_singleton read, List.forall_mem_singleton.2 allowed,
    inheritorsAgree_of_empty _, ?_⟩
  rw [run_of_idle idle]
  exact ⟨rfl, _, List.mem_cons_self, differs⟩

/-- Two files are not read as what they are merged into: the annotation of a type behind dropped
type parameters becomes one of the field, and with an annotation gone from behind it `sealed` is no
modifier. -/
theorem exists_merged_not_read :
    MergedNotRead ⟨"C.java"⟩ "class C { <T> @A int x; }" ∧
      MergedNotRead ⟨"C.java"⟩ "sealed @A synchronized class C permits D {}" := by
  constructor
  · let decl (annotations : List Annotation) (type : String) : TypeDecl :=
      { TypeDecl.bare .classType "C" with
        members := [.item ⟨none, annotations, .empty, .field ⟨type, "x", none⟩⟩] }
    have read : Java.parse ⟨"C.java"⟩ "class C \x7b <T> @A int x; \x7d" =
        .ok ⟨none, none, [], [], [decl [] "@A int"]⟩ := by
      refine @parse_of_tokenizeChars _ _ _ _ [] (by decide +kernel) (by cbv) ?_
      rfl
    have print : CompilationUnit.print ⟨none, none, [], [], [decl [] "@A int"]⟩ =
      "class C \x7b\n    @A int x;\n\x7d\n" := by decide +kernel
    have again :
        Java.parse ⟨"C.java"⟩ (CompilationUnit.print ⟨none, none, [], [], [decl [] "@A int"]⟩) =
          .ok ⟨none, none, [], [], [decl [⟨"A", none⟩] "int"]⟩ := by
      rw [print]
      refine @parse_of_tokenizeChars _ _ _ _ [] (by decide +kernel) (by cbv) ?_
      rfl
    refine mergedNotRead_of_unmarked read (sealedAllowed_of_class rfl (by decide) (by decide) ?_
      (by simp [decl]))
      (List.forall_mem_singleton.2 ⟨rfl, fun pass ↦ by cases pass <;> decide⟩) ?_
    · simp only [decl, List.mem_singleton, Member.item.injEq, forall_eq]
      decide
    · rw [again]
      rintro v ⟨⟩
      decide +kernel
  · let decl : TypeDecl := { TypeDecl.bare .classType "C" with
      annotations := [⟨"A", none⟩]
      modifiers := .ofList [.sealed, .synchronized]
      permitting := ["D"] }
    have read : Java.parse ⟨"C.java"⟩ "sealed @A synchronized class C permits D \x7b\x7d" =
        .ok ⟨none, none, [], [], [decl]⟩ := by
      refine @parse_of_tokenizeChars _ _ _ _ [] (by decide +kernel) (by cbv) ?_
      rfl
    have print : CompilationUnit.print ⟨none, none, [], [], [decl]⟩ =
      "@A\nsealed synchronized class C permits D \x7b\n\x7d\n" := by decide +kernel
    have again : ∃ e,
        Java.parse ⟨"C.java"⟩ (CompilationUnit.print ⟨none, none, [], [], [decl]⟩) = .error e := by
      rw [print]
      let fault : Fault :=
        ⟨.expected "class, interface, enum or record" (some "sealed"), some ⟨1, 0⟩⟩
      refine @exists_parse_error _ _ _ fault (by decide +kernel) (by cbv) ?_
      rfl
    refine mergedNotRead_of_unmarked read (sealedAllowed_of_class rfl (by decide) (by decide)
      (by simp [decl, TypeDecl.bare]) (by simp [decl, TypeDecl.bare]))
      (List.forall_mem_singleton.2 ⟨rfl, fun pass ↦ by cases pass <;> decide⟩) ?_
    obtain ⟨e, again⟩ := again
    rw [again]
    rintro v ⟨⟩

end model

end Merge

end PlatformOverlay
