import PlatformOverlay.Java.Decl
import PlatformOverlay.Java.Reindent

/-!
# Printing declarations

The printed form is uniform: four blanks for each level, one declarator to a field, one empty line
between members.  Snippets keep their text and are moved from the column at which they were found to
the one at which they are printed.

A declaration is printed in this order: its comments, its annotations on a line each, its modifiers,
and its head. Modifiers stand in the order of the source, with annotations between them moved to the
front. What is printed depends on the declaration alone.
-/

namespace PlatformOverlay.Java.Printer

/-- The indentation of a level of nesting. -/
def indentation (level : Nat) : String := String.ofList (List.replicate (4 * level) ' ')

/-- A printed line; an empty one is not indented. -/
def line (level : Nat) (text : String) : String :=
  if text.isEmpty then "\n" else indentation level ++ text ++ "\n"

def snippet (level : Nat) (s : Snippet) : String := reindent s.text s.column (indentation level)

def annotationText (a : Annotation) : String := "@" ++ a.name ++ a.arguments.getD ""

def importDecl (i : Import) : String :=
  "import " ++ (if i.isStatic then "static " else "") ++ i.path ++
    (if i.wildcard then ".*" else "") ++ ";"

def modifiers (ms : Modifiers) : String :=
  String.join (ms.keywords.map fun m ↦ m.keyword ++ " ")

def param (p : Param) : String :=
  (p.lead.map (· ++ " ")).getD "" ++ p.type ++ (if p.varargs then "..." else "") ++ " " ++ p.name

def params (ps : List Param) : String := String.intercalate ", " (ps.map param)

/-- An optional part with something in front of it and behind it. -/
def optional (before : String) (part : Option String) (behind : String) : String :=
  match part with
  | some text => before ++ text ++ behind
  | none => ""

/-- The comment and the annotations in front of a declaration. -/
def lead (level : Nat) (doc : Option Snippet) (annotations : List Annotation) : String :=
  (doc.map fun d ↦ line level (snippet level d)).getD "" ++
    String.join (annotations.map fun a ↦ line level (annotationText a))

def clause (keyword : String) (types : List String) : String :=
  if types.isEmpty then "" else " " ++ keyword ++ " " ++ String.intercalate ", " types

/-- The line that opens a type. -/
def typeHead (decl : TypeDecl) : String :=
  modifiers decl.modifiers ++ decl.kind.keyword ++ " " ++ decl.name ++ decl.typeParams.getD "" ++
    (if decl.kind = .recordType then "(" ++ params decl.components ++ ")" else "") ++
    clause "extends" decl.extending ++ clause "implements" decl.implementing ++
    clause "permits" decl.permitting ++ " \x7b"

def content (level : Nat) : Content → String
  | .field f =>
      f.type ++ " " ++ f.name ++ optional " = " (f.init.map (snippet level)) "" ++ ";"
  | .method m =>
      optional "" m.typeParams " " ++ m.result ++ " " ++ m.name ++ "(" ++ params m.params ++ ")" ++
        optional " throws " m.throws "" ++ optional " default " m.defaultValue "" ++
        (match m.body with
          | some body => " " ++ snippet level body
          | none => ";")
  | .constructor c =>
      optional "" c.typeParams " " ++ c.name ++
        (if c.compact then "" else "(" ++ params c.params ++ ")") ++
        optional " throws " c.throws "" ++ " " ++ snippet level c.body
  | .initializer body => snippet level body

def item (level : Nat) (i : Item) : String :=
  lead level i.doc i.annotations ++ line level (modifiers i.modifiers ++ content level i.content)

/-- The constants of an enum.  Without any, a semicolon sets the members apart. -/
def constants (level : Nat) (kind : TypeKind) (hasMembers : Bool) : Option Snippet → String
  | some s => line level (snippet level s ++ ";")
  | none => if kind = .enumType ∧ hasMembers then line level ";" else ""

mutual

def typeDecl (level : Nat) : TypeDecl → String
  | ⟨doc, annotations, modifiers, kind, name, typeParams, components, extending, implementing,
      permitting, enumConstants, ms⟩ =>
    let head := typeHead ⟨doc, annotations, modifiers, kind, name, typeParams, components,
      extending, implementing, permitting, enumConstants, ms⟩
    let first := constants (level + 1) kind (!ms.isEmpty) enumConstants
    lead level doc annotations ++ line level head ++ first ++
      members (level + 1) first.isEmpty ms ++ line level "\x7d"

/-- Members with an empty line before each, the very first thing in a body aside. -/
def members (level : Nat) (first : Bool) : List Member → String
  | [] => ""
  | m :: ms => (if first then "" else "\n") ++ member level m ++ members level false ms

def member (level : Nat) : Member → String
  | .item i => item level i
  | .type t => typeDecl level t

end

theorem typeDecl_eq (level : Nat) (decl : TypeDecl) :
    typeDecl level decl =
      let first := constants (level + 1) decl.kind (!decl.members.isEmpty) decl.enumConstants
      lead level decl.doc decl.annotations ++ line level (typeHead decl) ++ first ++
        members (level + 1) first.isEmpty decl.members ++ line level "\x7d" := by
  cases decl; rfl

def types (first : Bool) : List TypeDecl → String
  | [] => ""
  | t :: ts => (if first then "" else "\n") ++ typeDecl 0 t ++ types false ts

def compilationUnit (u : CompilationUnit) : String :=
  lead 0 u.header u.packageAnnotations ++
    optional "package " u.package ";\n\n" ++
    (if u.imports.isEmpty then ""
      else String.join (u.imports.map fun i ↦ importDecl i ++ "\n") ++ "\n") ++
    types true u.types

end Printer

/-- The printed form of a source file. -/
def CompilationUnit.print (u : CompilationUnit) : String := Printer.compilationUnit u

end PlatformOverlay.Java
