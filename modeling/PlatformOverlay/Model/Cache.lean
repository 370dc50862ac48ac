import PlatformOverlay.Failure
import PlatformOverlay.Model.CommonClasses

/-!
# The cache of common classes

All modules are compared with the same common module, which is loaded when it is first
needed and kept.  A load that fails leaves the cache empty.
-/

namespace PlatformOverlay.Model

structure CommonCache where
  loaded : Option CommonClasses

namespace CommonCache

def empty : CommonCache := ⟨none⟩

def isInitialized (cache : CommonCache) : Bool := cache.loaded.isSome

def get (cache : CommonCache) : Except Failure CommonClasses :=
  match cache.loaded with
  | some common => .ok common
  | none => .error .outOfOrder

/-- The classes in the cache, or else those that `load` gives, which are then kept. -/
def getOrLoad (cache : CommonCache) (load : Unit → Except Failure CommonClasses) :
    Except Failure CommonClasses × CommonCache :=
  match cache.loaded with
  | some common => (.ok common, cache)
  | none =>
    match load () with
    | .ok common => (.ok common, ⟨some common⟩)
    | .error e => (.error e, cache)

end CommonCache

end PlatformOverlay.Model
