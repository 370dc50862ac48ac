import PlatformOverlay.Toml.Statement

/-!
# TOML documents

The statements of a document build a table.  Entries go into the table that was opened
last; it takes its place in the document when the next one is opened.
-/

namespace PlatformOverlay.Toml

/-- Where a table goes. -/
inductive Target where
  | document
  | table (path : List Key) (key : Key)
  /-- The end of an array of tables. -/
  | arrayOfTables (path : List Key) (key : Key)

/-- The tables that are complete, and the one that is open. -/
structure Draft where
  finished : Table
  target : Target
  current : Table

namespace Table

/-- The table that a path leads to.  An array of tables stands for its last one. -/
def reach? : List Key → Table → Option Table
  | [], t => some t
  | key :: path, t =>
    match t.find? key.text with
    | some (.table inner) => reach? path inner
    | some (.tables ts) => ts.getLast?.bind (reach? path)
    | _ => none

/-- Put a table under a key that the receiving table does not have. -/
def place (new : Table) (key : Key) (t : Table) : Option Table :=
  match t.find? key.text with
  | none => some (t.add key (.table new))
  | some _ => none

/-- Put a table at the end of the array of tables under a key. -/
def placeLast (new : Table) (key : Key) (t : Table) : Option Table :=
  match t.find? key.text with
  | none => some (t.add key (.tables [new]))
  | some (.tables ts) => some (t.set key.text (.tables (ts ++ [new])))
  | some _ => none

end Table

namespace Draft

def empty : Draft := ⟨.empty .header (some 1), .document, .empty .header (some 1)⟩

/-- The document with the open table in its place. -/
def finish (d : Draft) : Option Table :=
  match d.target with
  | .document => some d.current
  | .table path key => d.finished.modifyAt false (d.current.place key) path
  | .arrayOfTables path key => d.finished.modifyAt false (d.current.placeLast key) path

/-- Open a table.  One that was only named on the way to others before is taken out of
the document and goes on. -/
def openTable (d : Draft) (path : List Key) (key : Key) (line : Nat) : Option Draft := do
  let document ← d.finish
  let named := (document.reach? path).bind (·.find? key.text)
  let remaining ← document.modifyAt false (fun t ↦ some (t.erase key.text)) path
  match named with
  | none => return ⟨remaining, .table path key, .empty .header (some line)⟩
  | some (.table t) =>
      if t.origin = .parent then
        return ⟨remaining, .table path key, { t with origin := .header, line := some line }⟩
      else none
  | some _ => none

/-- Open the next table of an array. -/
def openLast (d : Draft) (path : List Key) (key : Key) (line : Nat) : Option Draft := do
  return ⟨← d.finish, .arrayOfTables path key, .empty .header (some line)⟩

def add (d : Draft) : Statement → Option Draft
  | .entry path key value => do return { d with current := ← d.current.insert path key value }
  | .tableHeader path key line => d.openTable path key line
  | .arrayHeader path key line => d.openLast path key line

end Draft

/-- The table that a text denotes, unless it is no TOML document. -/
def document? (text : String) : Option Table := do
  (← (← statements? text).foldlM Draft.add .empty).finish

end PlatformOverlay.Toml
