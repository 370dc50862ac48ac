import PlatformOverlay.Config.Project
import PlatformOverlay.Toml.Document

/-!
# Reading a project file

The fields of a project or module are read in the order in which they are written, and
the first problem counts.  What is missing shows only at the end.
-/

namespace PlatformOverlay.Config

open Files (FileStore)
open Toml

def projectFields : List String := ["generate_code", "output_root", "common", "modules"]

def moduleFields : List String := ["name", "sources", "output"]

/-! ## Values

A value that has no line of its own is reported on the line that is given with it. -/

def wrongType (line : Nat) (v : Value) (expected : Expected) : Problem :=
  .wrongType (v.line?.getD line) (.ofValue v) expected

def boolean (line : Nat) : Value → Except Problem Bool
  | .scalar _ (.boolean b) => .ok b
  | v => .error (wrongType line v .boolean)

def string (line : Nat) (expected : Expected) : Value → Except Problem String
  | .scalar _ (.string s) => .ok s
  | v => .error (wrongType line v expected)

def path (line : Nat) (v : Value) : Except Problem Path := Path.mk <$> string line .path v

/-- The values of an array, or the tables of an array of tables. -/
def items? : Value → Option (List Value)
  | .array _ vs => some vs
  | .tables ts => some (ts.map Value.table)
  | .scalar _ _ | .table _ => none

def sequence (item : Nat → Value → Except Problem α) (line : Nat) (v : Value) :
    Except Problem (List α) :=
  match items? v with
  | some vs => vs.mapM (item (v.line?.getD line))
  | none => .error (wrongType line v .sequence)

/-! ## Modules -/

structure ModuleDraft where
  name : Option String
  sources : List Path
  output : Option Path

namespace ModuleDraft

def empty : ModuleDraft := ⟨none, [], none⟩

def addField (m : ModuleDraft) (e : Entry) : Except Problem ModuleDraft := do
  if e.key = "name" then return { m with name := some (← string e.keyLine .string e.value) }
  else if e.key = "sources" then return { m with sources := ← sequence path e.keyLine e.value }
  else if e.key = "output" then return { m with output := some (← path e.keyLine e.value) }
  else throw (.unknownField e.keyLine e.key moduleFields)

/-- The module, if it has a name. -/
def settings (m : ModuleDraft) (missing : Problem) : Except Problem ModuleSettings :=
  match m.name with
  | some name => .ok ⟨name, m.sources, m.output⟩
  | none => .error missing

end ModuleDraft

/-- A module written as a table. -/
def moduleOfTable (line : Nat) (t : Table) : Except Problem ModuleSettings := do
  (← t.entries.foldlM ModuleDraft.addField .empty).settings
    (.missingField (t.line.getD line) "name")

/-- A module written as an array: its name, sources and output. -/
def moduleOfItems (line : Nat) : List Value → Except Problem ModuleSettings
  | [] => .error (.emptyModule line)
  | [name] => do return ⟨← string line .string name, [], none⟩
  | [name, sources] => do
      return ⟨← string line .string name, ← sequence path line sources, none⟩
  | name :: sources :: output :: _ => do
      return ⟨← string line .string name, ← sequence path line sources,
        some (← path line output)⟩

def moduleOfValue (line : Nat) : Value → Except Problem ModuleSettings
  | .table t => moduleOfTable line t
  | .array line vs => moduleOfItems line vs
  | .tables ts => moduleOfItems (((ts.head?.bind Table.line)).getD line) (ts.map Value.table)
  | .scalar line .datetime =>
      .error (.unknownField line "$__toml_private_datetime" moduleFields)
  | v => .error (wrongType line v .module)

/-! ## Projects -/

structure ProjectDraft where
  generateCode : Bool
  outputRoot : Path
  common : Option ModuleSettings
  modules : List ModuleSettings

namespace ProjectDraft

def empty : ProjectDraft := ⟨false, ⟨"build/generated/overwrite"⟩, none, []⟩

def addField (p : ProjectDraft) (e : Entry) : Except Problem ProjectDraft := do
  if e.key = "generate_code" then return { p with generateCode := ← boolean e.keyLine e.value }
  else if e.key = "output_root" then return { p with outputRoot := ← path e.keyLine e.value }
  else if e.key = "common" then
    return { p with common := some (← moduleOfValue e.keyLine e.value) }
  else if e.key = "modules" then
    return { p with modules := ← sequence moduleOfValue e.keyLine e.value }
  else throw (.unknownField e.keyLine e.key projectFields)

end ProjectDraft

def projectOfTable (t : Table) : Except Problem ProjectSettings := do
  let p ← t.entries.foldlM ProjectDraft.addField .empty
  match p.common with
  | some common => return ⟨p.generateCode, p.outputRoot, common, p.modules⟩
  | none => throw (.missingField (t.line.getD 1) "common")

/-- The project that a text describes; its paths are seen from a directory. -/
def read (text : String) (base : Path) : Except Problem ProjectSettings :=
  match document? text with
  | some t => (projectOfTable t).map (·.relativeTo base)
  | none => .error .notToml

/-- The project that a file describes; its paths are seen from the file's directory. -/
def load (store : FileStore) (file : Path) : Except Failure ProjectSettings :=
  match store.readText file with
  | .error cause => .error (.config file (.unreadable cause))
  | .ok text => (read text (file.parent?.getD ⟨""⟩)).mapError (.config file)

end PlatformOverlay.Config
