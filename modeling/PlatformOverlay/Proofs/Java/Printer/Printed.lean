import PlatformOverlay.Java.Printer
import PlatformOverlay.Proofs.Java.Respace
import PlatformOverlay.Proofs.Java.WellFormed

/-!
# What printing makes of declarations

Printing keeps every part of a declaration but for snippets, which are moved to the column of their
level (`CompilationUnit.printed`).  To print them from there moves them no more, so a file that has
been printed has the same printed form (`CompilationUnit.print_printed`).

What can be read back is a condition on declarations as they are, not on their print (`Printable`):
the type of a field does not start with an annotation, and `sealed` is used as the language allows
it and not in front of a modifier with which it would be read as a name.
-/

namespace PlatformOverlay.Java

open Printer (snippet)

/-- The snippet where it is printed. -/
def Snippet.printed (level : Nat) (s : Snippet) : Snippet := ⟨snippet level s, 4 * level⟩

def Content.printed (level : Nat) : Content → Content
  | .field f => .field { f with init := f.init.map (·.printed level) }
  | .method m => .method { m with body := m.body.map (·.printed level) }
  | .constructor c => .constructor { c with body := c.body.printed level }
  | .initializer b => .initializer (b.printed level)

def Item.printed (level : Nat) (i : Item) : Item :=
  { i with doc := i.doc.map (·.printed level), content := i.content.printed level }

mutual

def TypeDecl.printed (level : Nat) : TypeDecl → TypeDecl
  | ⟨doc, annotations, modifiers, kind, name, typeParams, components, extending, implementing,
      permitting, enumConstants, ms⟩ =>
    ⟨doc.map (·.printed level), annotations, modifiers, kind, name, typeParams,
      components, extending,
      implementing, permitting, enumConstants.map (·.printed (level + 1)),
        printedMembers (level + 1) ms⟩

def printedMembers (level : Nat) : List Member → List Member
  | [] => []
  | m :: ms => m.printed level :: printedMembers level ms

def Member.printed (level : Nat) : Member → Member
  | .item i => .item (i.printed level)
  | .type t => .type (t.printed level)

end

/-- The declaration that is read back from its print: snippets have been moved to the columns
they are printed at. -/
theorem TypeDecl.printed_eq (level : Nat) (decl : TypeDecl) : decl.printed level =
    { decl with
      doc := decl.doc.map (·.printed level)
      enumConstants := decl.enumConstants.map (·.printed (level + 1))
      members := printedMembers (level + 1) decl.members } := by
  cases decl
  rfl

def CompilationUnit.printed (u : CompilationUnit) : CompilationUnit :=
  { u with header := u.header.map (·.printed 0), types := u.types.map (·.printed 0) }

/-! ## What can be read back -/

/-- A type that starts with an at sign would be read as annotations of the field. -/
def Content.PlainlyTyped : Content → Prop
  | .field f => f.type.toList.head? ≠ some '@'
  | .method _ | .constructor _ | .initializer _ => True

/-- `sealed` is used as the language allows it, on classes and interfaces that are neither final
nor non-sealed; nested types aside. -/
structure TypeDecl.SealedAllowed (decl : TypeDecl) : Prop where
  kind : .sealed ∈ decl.modifiers → decl.kind = .classType ∨ decl.kind = .interfaceType
  final : .sealed ∈ decl.modifiers → .final ∉ decl.modifiers
  nonSealed : .sealed ∈ decl.modifiers → .nonSealed ∉ decl.modifiers
  items : ∀ i, .item i ∈ decl.members → .sealed ∉ i.modifiers

/-- Modifiers that no type can have; in front of them `sealed` is read as a name. -/
def unsealing : List Modifier := [.native, .synchronized, .transient, .volatile, .default]

/-- The type and its members, nested types aside, are printed so that they can be read again. -/
structure TypeDecl.Printable (decl : TypeDecl) : Prop extends decl.SealedAllowed where
  behind : ∀ m ∈ unsealing, ¬ [.sealed, m] <:+: decl.modifiers.keywords
  plain : ∀ i, .item i ∈ decl.members → i.content.PlainlyTyped

/-- All types, nested ones included, can be read again. -/
def CompilationUnit.Printable (u : CompilationUnit) :
    Prop := ∀ t ∈ u.types, t.All TypeDecl.Printable

/-! ## Printing once more -/

/-- A snippet that has been moved is printed as before. -/
@[simp] theorem snippet_printed (level : Nat) (s : Snippet) :
    snippet level (s.printed level) = snippet level s :=
  reindent_reindent s.text s.column (4 * level)

theorem map_snippet_printed (level : Nat) (s : Option Snippet) :
    (s.map (·.printed level)).map (snippet level) = s.map (snippet level) := by
  cases s <;> simp

namespace Printer

theorem lead_printed (level : Nat) (doc : Option Snippet) (annotations : List Annotation) :
    lead level (doc.map (·.printed level)) annotations = lead level doc annotations := by
  cases doc <;> simp [lead]

theorem content_printed (level : Nat) (c : Content) :
    content level (c.printed level) = content level c := by
  cases c with
  | field f => simp only [Content.printed, content, map_snippet_printed]
  | method m => cases h : m.body <;> simp [Content.printed, content, h]
  | constructor c => simp [Content.printed, content]
  | initializer b => simp [Content.printed, content]

theorem item_printed (level : Nat) (i : Item) : item level (i.printed level) = item level i := by
  simp only [item, Item.printed, lead_printed, content_printed]

theorem constants_printed (level : Nat) (kind : TypeKind) (hasMembers : Bool) (s : Option Snippet) :
    constants level kind hasMembers (s.map (·.printed level)) =
      constants level kind hasMembers s := by
  cases s <;> simp [constants]

theorem isEmpty_printedMembers (level : Nat) (ms : List Member) :
    (printedMembers level ms).isEmpty = ms.isEmpty := by
  cases ms <;> rfl

mutual

/-- The print of what is read back is the first print, at every level. By recursion on the
declaration, with its members. -/
theorem typeDecl_printed (level : Nat) : ∀ decl : TypeDecl,
    typeDecl level (decl.printed level) = typeDecl level decl
  | ⟨doc, annotations, modifiers, kind, name, typeParams, components, extending, implementing,
      permitting, enumConstants, ms⟩ => by
    simp only [TypeDecl.printed, typeDecl, lead_printed, constants_printed, isEmpty_printedMembers,
      members_printed]
    rfl

theorem members_printed (level : Nat) (first : Bool) : ∀ ms : List Member,
    members level first (printedMembers level ms) = members level first ms
  | [] => rfl
  | m :: ms => by simp only [printedMembers, members, member_printed, members_printed]

theorem member_printed (level : Nat) : ∀ m : Member, member level (m.printed level) = member level m
  | .item i => by simp only [Member.printed, member, item_printed]
  | .type t => by simp only [Member.printed, member, typeDecl_printed]

end

theorem types_printed (first : Bool) (ts : List TypeDecl) :
    types first (ts.map (·.printed 0)) = types first ts := by
  induction ts generalizing first with
  | nil => rfl
  | cons t ts ih => simp only [List.map_cons, types, typeDecl_printed, ih]

end Printer

/-- A file that is printed, read back and printed again is printed as before. -/
theorem CompilationUnit.print_printed (u : CompilationUnit) : u.printed.print = u.print := by
  simp only [print, Printer.compilationUnit, printed, Printer.lead_printed, Printer.types_printed]
  rfl

end PlatformOverlay.Java
