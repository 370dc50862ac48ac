import PlatformOverlay.Failure
import PlatformOverlay.Files.Tree

/-!
# File operations

A file store is a file tree with a current directory.  An operation on a path finds its
place step by step: every step needs an existing directory to start from.  Operations
are computations over the store that keep what they did before they failed.
-/

namespace PlatformOverlay.Files

structure FileStore where
  root : Node
  /-- The place of the current directory. -/
  current : Place

abbrev FileM := ExceptT IoCause (StateM FileStore)

/-! ## Places -/

inductive Step where
  | stay
  | up
  | into (name : String)
deriving DecidableEq, Repr

namespace Step

def ofPiece (piece : String) : Step :=
  if piece = "" ∨ piece = "." then .stay
  else if piece = ".." then .up
  else .into piece

def apply (place : Place) : Step → Place
  | .stay => place
  | .up => place.dropLast
  | .into name => place ++ [name]

end Step

/-- The steps of a path; the slash that makes it absolute is no step. -/
def stepsOf (p : Path) : List Step :=
  let pieces := Text.splitOn '/' p.text
  (if p.isAbsolute then pieces.tail else pieces).map Step.ofPiece

/-- Go from one place to another, each step from an existing directory. -/
def follow (root : Node) : Place → List Step → Except IoCause Place
  | place, [] => .ok place
  | place, s :: ss =>
    match root.get? place with
    | some (.dir _) => follow root (s.apply place) ss
    | some (.file _) => .error .notADirectory
    | none => .error .notFound

/-- Without the slashes at the end. -/
def dropSlashes (p : Path) : Path :=
  let kept := String.ofList (p.text.toList.reverse.dropWhile (· == '/')).reverse
  if kept = "" then p else ⟨kept⟩

namespace FileStore

/-- The place that a path leads to; nothing needs to be there. -/
def place (store : FileStore) (p : Path) : Except IoCause Place :=
  if p.text = "" then .error .notFound
  else follow store.root (if p.isAbsolute then [] else store.current) (stepsOf p)

def node? (store : FileStore) (p : Path) : Except IoCause Node := do
  match store.root.get? (← store.place p) with
  | some node => .ok node
  | none => .error .notFound

def isDir (store : FileStore) (p : Path) : Bool :=
  match store.node? p with
  | .ok node => node.isDir
  | .error _ => false

def isFile (store : FileStore) (p : Path) : Bool :=
  match store.node? p with
  | .ok node => node.isFile
  | .error _ => false

/-- Every file at or below a path. -/
def files (store : FileStore) (p : Path) : Except IoCause (List Path) :=
  (store.node? p).map (Node.filesFrom p)

def read (store : FileStore) (p : Path) : Except IoCause ByteArray := do
  match ← store.node? p with
  | .file content => .ok content
  | .dir _ => .error .isADirectory

def readText (store : FileStore) (p : Path) : Except IoCause String := do
  match String.fromUTF8? (← store.read p) with
  | some text => .ok text
  | none => .error .notText

end FileStore

/-! ## Operations -/

/-- Ask the store. -/
def ask (question : FileStore → Except IoCause α) : FileM α := do
  match question (← get) with
  | .ok a => return a
  | .error e => throw e

def putNode (place : Place) (node : Node) : FileM Unit :=
  modify fun store ↦ { store with root := Node.put node place store.root }

/-- Write a file, which is created in an existing directory or replaced. -/
def writeFile (p : Path) (content : ByteArray) : FileM Unit := do
  let place ← ask (·.place p)
  match (← get).root.get? place with
  | some (.dir _) => throw .isADirectory
  | some (.file _) | none => putNode place (.file content)

/-- Create one directory. -/
def createDir (p : Path) : FileM Unit := do
  let place ← ask (·.place (dropSlashes p))
  match (← get).root.get? place with
  | some _ => throw .exists
  | none =>
    match (← get).root.get? place.dropLast with
    | some (.dir _) => putNode place (.dir [])
    | some (.file _) => throw .notADirectory
    | none => throw .notFound

/-- Create one directory unless it is there. -/
def ensureDir (p : Path) : FileM Unit := fun store ↦
  match createDir p store with
  | (.error e, store) => if store.isDir p then (.ok (), store) else (.error e, store)
  | done => done

/-- Create a directory, and first the directories that it lies in as far as they are
missing; no more of them than the given number. -/
def createDirsUpTo : Nat → Path → FileM Unit
  | 0, p => ensureDir p
  | n + 1, p => fun store ↦
    match createDir p store, p.parent? with
    | (.error .notFound, store), some parent =>
        (if parent.components.isEmpty then ensureDir p
          else do createDirsUpTo n parent; ensureDir p) store
    | (.error e, store), _ => if store.isDir p then (.ok (), store) else (.error e, store)
    | done, _ => done

def createDirs (p : Path) : FileM Unit :=
  if p.components.isEmpty then return else createDirsUpTo p.components.length p

/-- Copy a file byte for byte.  The target is emptied before the source is read, so a
file copied onto itself is empty afterwards. -/
def copyFile (source target : Path) : FileM Unit := do
  let origin ← ask (·.place source)
  let content ← ask (·.read source)
  let destination ← ask (·.place target)
  writeFile target (if destination = origin then .empty else content)

/-- A directory is removed by a path that ends in its name; one that ends in dots only
loses what is in it. -/
def endsInName (p : Path) : Bool :=
  match ((Text.splitOn '/' p.text).filter (· ≠ "")).getLast? with
  | some piece => piece ≠ "." && piece ≠ ".."
  | none => false

/-- Remove a file or a directory with everything below it, if there is any. -/
def clear (p : Path) : FileM Unit := do
  match (← get).place p with
  | .error _ => return
  | .ok place =>
    match (← get).root.get? place with
    | none => return
    | some _ =>
      if endsInName p then
        modify fun store ↦ { store with root := Node.remove place store.root }
      else putNode place (.dir [])

end PlatformOverlay.Files
