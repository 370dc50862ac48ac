import Mathlib.Data.List.Permutation
import PlatformOverlay.Proofs.Java.Reading.Unit

/-!
# Reading what has been printed

A file that has been read and printed is read again as the same declarations, each snippet moved to
where it is printed, so that it is printed as the same text (`parse_print`).

The printer and the parser never meet as functions on characters. Between them stands the layout of
a declaration, a list of texts with the spaces between them:

| step | result |
| --- | --- |
| what is read from a text is well-formed | `wellFormed_of_parse` |
| the layout of a well-formed file renders to its print | `render_unitPieces` |
| no text of the layout goes on with the next one | `sound_unitPieces` |
| so the print is read as the words of the layout | `exists_tokenize_print` |
| words that fit the layout of a file are read as that file | `compilationUnit_of_fits` |
| printing once more moves no snippet again | `CompilationUnit.print_printed` |

## What is not claimed

The units that are read back are those with `Printable` types, and not every unit that the parser
accepts has these. Two kinds of files that no compiler would take are lost
(`exists_print_not_read`):

* The type parameters of a field are dropped, and annotations of its type that stand behind them
  become annotations of the field.
* Annotations are printed in front of all modifiers, so `sealed` comes to stand in front of a
  modifier that does not go with it, and is read as a name.
-/

namespace PlatformOverlay.Java

open Lexer (Skipped)
open PlatformOverlay.Java.Parser Printer

variable {path : Path} {text : String} {u : CompilationUnit} {lexed : Lexer.Lexed}

/-- A text is no source if the reader rejects its words. -/
theorem exists_parse_error {fault : Fault} (hp : isModuleInfo path = false)
    (ht : Lexer.tokenizeChars text.toList = .ok lexed)
    (hu : compilationUnit (wordsOf lexed.tokens) = .error fault) :
    ∃ e, parse path text = .error e := by
  rw [parse, if_neg (by simp [hp]), tokenize_eq_ok.2 ht]
  dsimp only
  rw [hu]
  exact ⟨_, rfl⟩

namespace Printer

/-- A unit that prints something starts with a line. -/
theorem unitPieces_cases (u : CompilationUnit) :
    unitPieces u = [] ∨ ∃ doc ps, unitPieces u = .space (.line false 0 doc) :: ps := by
  have front : ∀ {doc ls qs}, ls ≠ [] → ∃ doc' ps, lines 0 false doc ls ++ qs =
      .space (.line false 0 doc') :: ps := by
    intro doc ls qs ne
    obtain ⟨l, ls, rfl⟩ := List.exists_cons_of_ne_nil ne
    exact ⟨doc, _, rfl⟩
  obtain ⟨header, package, annotations, imports, ts⟩ := u
  cases package with
  | some p =>
    refine .inr ?_
    rw [unitPieces, List.append_assoc]
    exact front (by simp)
  | none =>
    by_cases ne : imports = []
    · subst ne
      cases ts with
      | nil => exact .inl rfl
      | cons t ts =>
        refine .inr ?_
        change ∃ doc ps, typePieces 0 false t ++ typesPieces false ts = _
        rw [typePieces_eq]
        simp only [List.append_assoc]
        exact front (by simp)
    · exact .inr (front (by simpa using ne))

/-- The printed file has the words of its layout. -/
theorem exists_tokenize_print (h : u.WellFormed) : ∃ lexed,
    Lexer.tokenizeChars u.print.toList = .ok lexed ∧ Fits (unitPieces u)
      (wordsOf lexed.tokens) [] := by
  obtain ⟨trailing, htr, hprint⟩ := render_unitPieces h
  have skipped : Skipped trailing.toList := by
    rcases htr with rfl | rfl <;> simp [Skipped, Lexer.isSkipped]
  rcases unitPieces_cases u with none | ⟨doc, ps, e⟩
  · rw [none] at hprint ⊢
    have whole : trailing.toList = '\n' :: u.print.toList := by
      simpa using congrArg String.toList hprint
    have blanks : Skipped u.print.toList := fun c hc ↦ skipped c (whole ▸ List.mem_cons_of_mem _ hc)
    exact ⟨⟨[], u.print⟩, Lexer.tokenizeChars_iff.2 ⟨by simp, blanks, trivial⟩, rfl⟩
  · have sound := sound_unitPieces h
    rw [e] at sound hprint ⊢
    obtain ⟨-, ⟨t, ht⟩, -⟩ := id sound
    obtain ⟨ps, rfl⟩ := List.head?_eq_some_iff.1 ht
    exact sound.exists_tokenize hprint.symm skipped

end Printer

/-- What has been printed is read as it was read before, and printed as the same text. -/
theorem parse_print (h : parse path text = .ok u) (hp : u.Printable) :
    parse path u.print = .ok u.printed ∧ u.printed.print = u.print := by
  refine ⟨?_, u.print_printed⟩
  cases info : isModuleInfo path with
  | true =>
    rw [parse, if_pos info] at h
    cases h
    rw [parse, if_pos info]
    rfl
  | false =>
    have wf := wellFormed_of_parse h
    obtain ⟨lexed, ht, hf⟩ := exists_tokenize_print wf
    exact parse_of_tokenizeChars info ht (compilationUnit_of_fits wf hp hf)

/-- A declaration of two fields, and a record with a compact constructor in a sealed class. -/
theorem parse_print_sealed : ∃ u, parse ⟨"D.java"⟩
    "import b.C;\nsealed class D permits E \x7b\nint x = 1, y[];\nrecord R(int n) \x7b R \x7b \x7d \x7d \x7d" =
      .ok u ∧ u.Printable ∧
    parse ⟨"D.java"⟩ u.print = .ok u.printed ∧ u.printed.print = u.print := by
  let ctor : Constructor := ⟨none, "R", [], true, none, ⟨"\x7b \x7d", 18⟩⟩
  let inner : TypeDecl := { TypeDecl.bare .recordType "R" with
    components := [⟨none, "int", false, "n"⟩]
    members := [.item ⟨none, [], .empty, .constructor ctor⟩] }
  let outer : TypeDecl := { TypeDecl.bare .classType "D" with
    modifiers := .ofList [.sealed]
    permitting := ["E"]
    members := [.item ⟨none, [], .empty, .field ⟨"int", "x", some ⟨"1", 0⟩⟩⟩,
      .item ⟨none, [], .empty, .field ⟨"int[]", "y", none⟩⟩, .type inner] }
  have read : parse ⟨"D.java"⟩
      "import b.C;\nsealed class D permits E \x7b\nint x = 1, y[];\nrecord R(int n) \x7b R \x7b \x7d \x7d \x7d" =
      .ok ⟨none, none, [], [⟨false, "b.C", false⟩], [outer]⟩ := by
    refine @parse_of_tokenizeChars _ _ _ _ [] (by decide +kernel) (by cbv) ?_
    rfl
  have printable :
      CompilationUnit.Printable ⟨none, none, [], [⟨false, "b.C", false⟩], [outer]⟩ := by
    have innerPrintable : inner.Printable :=
      ⟨⟨by decide, by decide, by decide, by simp [inner]; decide⟩, by decide,
        by simp [inner, Content.PlainlyTyped]⟩
    have outerPrintable : outer.Printable :=
      ⟨⟨by decide, by decide, by decide, by simp [outer]; decide⟩, by decide,
        by simp [outer, Content.PlainlyTyped]⟩
    refine List.forall_mem_singleton.2 (.mk outerPrintable fun t ht ↦ ?_)
    obtain rfl : t = inner := by simpa [outer] using ht
    exact .mk innerPrintable (by simp [inner])
  exact ⟨_, read, printable, parse_print read printable⟩

/-- A simple class with neither nested types nor contradictory modifiers meets the condition. -/
theorem sealedAllowed_of_class {decl : TypeDecl} (kind : decl.kind = .classType)
    (final : .final ∉ decl.modifiers) (nonSealed : .nonSealed ∉ decl.modifiers)
    (items : ∀ i, .item i ∈ decl.members → .sealed ∉ i.modifiers)
    (nested : ∀ t, .type t ∉ decl.members) : ∀ t ∈ [decl], t.All TypeDecl.SealedAllowed :=
  List.forall_mem_singleton.2 (.mk ⟨fun _ ↦ .inl kind, fun _ ↦ final, fun _ ↦ nonSealed, items⟩
    fun t ht ↦ (nested t ht).elim)

/-- Behind dropped type parameters the annotations of a type become those of the field. -/
theorem exists_print_ne : ∃ u v, parse ⟨"C.java"⟩ "class C \x7b <T> @A int x; \x7d" = .ok u ∧
    (∀ t ∈ u.types, t.All TypeDecl.SealedAllowed) ∧ parse ⟨"C.java"⟩ u.print = .ok v ∧
      v.print ≠ u.print := by
  let decl (annotations : List Annotation) (type : String) : TypeDecl :=
    { TypeDecl.bare .classType "C" with
      members := [.item ⟨none, annotations, .empty, .field ⟨type, "x", none⟩⟩] }
  have print : CompilationUnit.print ⟨none, none, [], [], [decl [] "@A int"]⟩ =
    "class C \x7b\n    @A int x;\n\x7d\n" := by decide +kernel
  refine ⟨⟨none, none, [], [], [decl [] "@A int"]⟩,
    ⟨none, none, [], [], [decl [⟨"A", none⟩] "int"]⟩,
    ?_, sealedAllowed_of_class rfl (by decide) (by decide) ?_ (by simp [decl]), ?_,
      by decide +kernel⟩
  · refine @parse_of_tokenizeChars _ _ _ _ [] (by decide +kernel) (by cbv) ?_
    rfl
  · simp only [decl, List.mem_singleton, Member.item.injEq, forall_eq]
    decide
  · rw [print]
    refine @parse_of_tokenizeChars _ _ _ _ [] (by decide +kernel) (by cbv) ?_
    rfl

/-- With the annotation gone from behind it, `sealed` is no modifier. -/
theorem exists_print_error : ∃ u,
    parse ⟨"C.java"⟩ "sealed @A synchronized class C permits D \x7b\x7d" = .ok u ∧
      (∀ t ∈ u.types, t.All TypeDecl.SealedAllowed) ∧ ∃ e, parse ⟨"C.java"⟩ u.print = .error e := by
  let decl : TypeDecl := { TypeDecl.bare .classType "C" with
    annotations := [⟨"A", none⟩]
    modifiers := .ofList [.sealed, .synchronized]
    permitting := ["D"] }
  have print : CompilationUnit.print ⟨none, none, [], [], [decl]⟩ =
    "@A\nsealed synchronized class C permits D \x7b\n\x7d\n" := by decide +kernel
  refine ⟨⟨none, none, [], [], [decl]⟩, ?_, sealedAllowed_of_class rfl (by decide) (by decide)
    (by simp [decl, TypeDecl.bare]) (by simp [decl, TypeDecl.bare]), ?_⟩
  · refine @parse_of_tokenizeChars _ _ _ _ [] (by decide +kernel) (by cbv) ?_
    rfl
  · rw [print]
    let fault : Fault := ⟨.expected "class, interface, enum or record" (some "sealed"), some ⟨1, 0⟩⟩
    refine @exists_parse_error _ _ _ fault (by decide +kernel) (by cbv) ?_
    rfl

/-- A file that is not printed as the same text when it is read again, and one that cannot be read
again, though both use `sealed` as it is allowed. -/
theorem exists_print_not_read :
    (∃ u v, parse ⟨"C.java"⟩ "class C \x7b <T> @A int x; \x7d" = .ok u ∧
      (∀ t ∈ u.types, t.All TypeDecl.SealedAllowed) ∧ parse ⟨"C.java"⟩ u.print = .ok v ∧
        v.print ≠ u.print) ∧
    ∃ u, parse ⟨"C.java"⟩ "sealed @A synchronized class C permits D \x7b\x7d" = .ok u ∧
      (∀ t ∈ u.types, t.All TypeDecl.SealedAllowed) ∧ ∃ e, parse ⟨"C.java"⟩ u.print = .error e :=
  ⟨exists_print_ne, exists_print_error⟩

end PlatformOverlay.Java
