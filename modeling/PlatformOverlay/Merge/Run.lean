import PlatformOverlay.Merge.Pass

/-!
# Merging

`run` runs all passes over a platform model.  `verify` checks the marks of a model
without changing it.
-/

namespace PlatformOverlay.Merge

open Java Model

/-- Run passes one after another with one emit set, up to the first fault. -/
def runPasses (common : CommonClasses) (passes : List Pass)
    (start : Visited EmitSet MergeError SourceModel) :
    Visited EmitSet MergeError SourceModel :=
  passes.foldl (fun r pass ↦ r.andThen fun emit model ↦ pass.run common emit model) start

/-- Run every pass over a model.  The model comes back as the passes left it, also when a
fault stopped them. -/
def run (common : CommonClasses) (model : SourceModel) :
    Visited EmitSet MergeError SourceModel :=
  runPasses common Pass.all ⟨model, .empty, none⟩

/-- What is wrong with the marks of one class, if anything is. -/
def verifyClass (common : CommonClasses) (c : ClassRef) : Option MergeError :=
  if c.decl.isMarked then
    match counterpart common c.qualified with
    | .error e => some e
    | .ok target => overwriteError? c.qualified c.decl target.decl
  else none

/-- Every marked class needs a counterpart and every overwriting item a match in it. -/
def verify (common : CommonClasses) (model : SourceModel) : Except MergeError Unit :=
  match model.classes.findSome? (verifyClass common) with
  | some e => .error e
  | none => .ok ()

end PlatformOverlay.Merge
