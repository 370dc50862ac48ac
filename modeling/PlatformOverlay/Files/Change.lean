import PlatformOverlay.Files.Tree

/-!
# Changes between file trees

The steps that make one file tree into another, in an order in which they can be done.
-/

namespace PlatformOverlay.Files

inductive Change where
  | removeFile (place : Place)
  | removeDir (place : Place)
  | createDir (place : Place)
  | write (place : Place) (content : ByteArray)

namespace Node

/-- Take away a node, if there is one. -/
def removal (place : Place) : Option Node → List Change
  | none => []
  | some (.file _) => [.removeFile place]
  | some (.dir _) => [.removeDir place]

/-- Take away the entries of a directory that another one does not have. -/
def removals (place : Place) (before after : List Entry) : List Change :=
  (before.filter fun e ↦ (childNamed? e.name after).isNone).flatMap fun e ↦
    removal (place ++ [e.name]) (some e.node)

mutual

/-- Make the node at a place, if there is one, into another. -/
def changes (place : Place) (before : Option Node) : Node → List Change
  | .file content =>
    match before with
    | some (.file old) => if old = content then [] else [.write place content]
    | other => removal place other ++ [.write place content]
  | .dir entries =>
    match before with
    | some (.dir old) => removals place old entries ++ changesOfEntries place old entries
    | other => removal place other ++ .createDir place :: changesOfEntries place [] entries

def changesOfEntries (place : Place) (before : List Entry) : List Entry → List Change
  | [] => []
  | e :: es => changesOfEntry place before e ++ changesOfEntries place before es

def changesOfEntry (place : Place) (before : List Entry) : Entry → List Change
  | ⟨name, node⟩ => changes (place ++ [name]) (childNamed? name before) node

end

end Node

end PlatformOverlay.Files
