import PlatformOverlay.Path

/-!
# File trees

A tree of directories and files.  A place in it is given by the names on the way from
the root.  The entries of a directory are in the order of their names, so that walking
the tree visits them in that order.
-/

namespace PlatformOverlay.Files

mutual

inductive Node where
  | file (content : ByteArray)
  | dir (entries : List Entry)

structure Entry where
  name : String
  node : Node

end

instance : Inhabited Node := ⟨.dir []⟩

/-- The names on the way from the root to a file or directory. -/
abbrev Place := List String

def childNamed? (name : String) (entries : List Entry) : Option Node :=
  (entries.find? (·.name = name)).map Entry.node

/-- Replace the entry of a name, or add it in its place. -/
def putEntry (name : String) (node : Node) : List Entry → List Entry
  | [] => [⟨name, node⟩]
  | e :: es =>
      if e.name = name then ⟨name, node⟩ :: es
      else if name < e.name then ⟨name, node⟩ :: e :: es
      else e :: putEntry name node es

def removeEntry (name : String) (entries : List Entry) : List Entry :=
  entries.filter fun e ↦ e.name ≠ name

namespace Node

def isDir : Node → Bool
  | .file _ => false
  | .dir _ => true

def isFile (node : Node) : Bool := !node.isDir

def get? : Place → Node → Option Node
  | [], node => some node
  | _ :: _, .file _ => none
  | name :: rest, .dir entries => (childNamed? name entries).bind (get? rest)

/-- Put a node at a place whose directory exists; the tree stays as it is when that
does not. -/
def put (new : Node) : Place → Node → Node
  | [], _ => new
  | _ :: _, .file content => .file content
  | [name], .dir entries => .dir (putEntry name new entries)
  | name :: rest, .dir entries =>
    match childNamed? name entries with
    | some child => .dir (putEntry name (put new rest child) entries)
    | none => .dir entries

/-- Take away what is at a place; the root cannot be taken away. -/
def remove : Place → Node → Node
  | [], node => node
  | _ :: _, .file content => .file content
  | [name], .dir entries => .dir (removeEntry name entries)
  | name :: rest, .dir entries =>
    match childNamed? name entries with
    | some child => .dir (putEntry name (remove rest child) entries)
    | none => .dir entries

@[simp] theorem get?_nil (node : Node) : get? [] node = some node := by cases node <;> rfl

@[simp] theorem put_nil (new node : Node) : put new [] node = new := by cases node <;> rfl

mutual

/-- The paths of the files at or below a node whose own path is given, in order. -/
def filesFrom (path : Path) : Node → List Path
  | .file _ => [path]
  | .dir entries => filesFromEntries path entries

def filesFromEntries (path : Path) : List Entry → List Path
  | [] => []
  | e :: es => filesFromEntry path e ++ filesFromEntries path es

def filesFromEntry (path : Path) : Entry → List Path
  | ⟨name, node⟩ => filesFrom (path.join ⟨name⟩) node

end

mutual

/-- The contents at or below a node: each file with its path, and the empty directories,
which have no content. -/
def contentsFrom (path : Path) : Node → List (Path × Option ByteArray)
  | .file content => [(path, some content)]
  | .dir [] => [(path, none)]
  | .dir (e :: es) => contentsFromEntry path e ++ contentsFromEntries path es

def contentsFromEntries (path : Path) : List Entry → List (Path × Option ByteArray)
  | [] => []
  | e :: es => contentsFromEntry path e ++ contentsFromEntries path es

def contentsFromEntry (path : Path) : Entry → List (Path × Option ByteArray)
  | ⟨name, node⟩ => contentsFrom (path.join ⟨name⟩) node

end

end Node

end PlatformOverlay.Files
