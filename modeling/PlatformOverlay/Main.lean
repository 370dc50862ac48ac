import PlatformOverlay.CommandLine.Program
import PlatformOverlay.Files.Change

/-!
# The command line

The files that the program looks at are read into a store; the program runs on the store,
and what it changed there is changed on the disk.
-/

namespace PlatformOverlay.CommandLine

open Files

/-- The names in a directory, or nothing if there is no such directory. -/
def namesIn (path : String) : IO (Option (List String)) := do
  try
    let entries ← (← IO.FS.realPath path).readDir
    return some (entries.toList.map (·.fileName))
  catch _ => return none

/-- The system opens no path with more bytes, so none with more names. -/
def longestPath : Nat := 4096

/-- What is on the disk at a path, down to the given number of levels. -/
def readNode : Nat → String → IO (Option Node)
  | 0, _ => return none
  | levels + 1, path => do
    match ← namesIn path with
    | some names =>
        let entries ← names.mapM fun name ↦ return (name, ← readNode levels (path ++ "/" ++ name))
        return some (entries.foldl (fun node (name, child) ↦
          match child with
          | some child => Node.put child [name] node
          | none => node) (.dir []))
    | none => try return some (.file (← IO.FS.readBinFile path)) catch _ => return none

def textOf (place : Place) : String := "/" ++ String.intercalate "/" place

/-- Take a directory into the store, without what is in it. -/
def includeDir (store : FileStore) (place : Place) : IO FileStore := do
  if (store.root.get? place).isSome then return store
  match ← namesIn (textOf place) with
  | some _ => return { store with root := Node.put (.dir []) place store.root }
  | none => return store

/-- Take what is on the disk at a path into the store, with all directories on the way. -/
def includePath (store : FileStore) (p : Path) : IO FileStore := do
  let mut store := store
  let mut place := if p.isAbsolute then [] else store.current
  for step in stepsOf p do
    store ← includeDir store place
    place := step.apply place
  match ← readNode longestPath (textOf place) with
  | some node => return { store with root := Node.put node place store.root }
  | none => return store

/-- The store with nothing in it but the way to the current directory. -/
def initialStore : IO FileStore := do
  let current : Path := ⟨(← IO.currentDir).toString⟩
  let steps := stepsOf current
  let mut store : FileStore := ⟨.dir [], steps.foldl Step.apply []⟩
  for n in List.range (store.current.length + 1) do
    store ← includeDir store (store.current.take n)
  return store

def perform : Change → IO Unit
  | .removeFile place => IO.FS.removeFile (textOf place)
  | .removeDir place => IO.FS.removeDirAll (textOf place)
  | .createDir place => IO.FS.createDir (textOf place)
  | .write place content => IO.FS.writeBinFile (textOf place) content

end PlatformOverlay.CommandLine

open PlatformOverlay CommandLine in
def main (arguments : List String) : IO UInt32 := do
  let environment ← IO.getEnv "OVERWRITE_CONFIG"
  let mut store ← initialStore
  -- The project file has to be there before the directories that it names are known.
  for _ in List.range 2 do
    for p in touched arguments environment store do
      store ← includePath store p
  let (ending, after) := program arguments environment store
  for change in after.root.changes [] (some store.root) do
    perform change
  IO.print ending.out
  IO.eprint ending.err
  return ending.exitCode
