import DurativePlanning.Run.Config

/-!
# Overriding Settings

Single settings can be given apart from the document, and take the place of what the document says.

* `Overrides.apply`: settings with some of them replaced.
* `RunConfig.resolve`: the settings of a document or the usual ones, after replacement.
-/

namespace DurativePlanning

open Yaml Storage

/-- Settings that are given apart from a document; what is `none` is not given. -/
structure Overrides (α : Type) where
  domain : Option String := none
  kind : Option DomainKind := none
  deadline : Option Nat := none
  objectAmount : Option Nat := none
  garbageAmount : Option Nat := none
  runs : Option Nat := none
  solver : Option Solver := none
  horizonSecs : Option Float := none
  searchTimeSecs : Option Float := none
  searchDepth : Option Nat := none
  explorationConstant : Option α := none
  selection : Option Selection := none
  k : Option Nat := none
  maxIterations : Option Nat := none
  seed : Option UInt64 := none
  discount : Option α := none
  cacheDir : Option String := none

variable {α : Type}

/-- Settings with some of them replaced. -/
def Overrides.apply (o : Overrides α) (c : RunConfig α) : RunConfig α where
  domain := o.domain.getD c.domain
  kind := o.kind.getD c.kind
  deadline := o.deadline.getD c.deadline
  objectAmount := o.objectAmount.getD c.objectAmount
  garbageAmount := o.garbageAmount.getD c.garbageAmount
  runs := o.runs.getD c.runs
  solver := o.solver.getD c.solver
  horizonSecs := o.horizonSecs.getD c.horizonSecs
  searchTimeSecs := o.searchTimeSecs.getD c.searchTimeSecs
  searchDepth := o.searchDepth.getD c.searchDepth
  explorationConstant := o.explorationConstant.getD c.explorationConstant
  selection := o.selection.getD c.selection
  k := o.k.getD c.k
  maxIterations := o.maxIterations.getD c.maxIterations
  seed := o.seed.getD c.seed
  discount := o.discount.getD c.discount
  cacheDir := o.cacheDir.getD c.cacheDir

/-- Why the settings of a run are not resolved. -/
inductive ResolveError (α : Type) where
  /-- The file has no settings that are in range. -/
  | unloadable (path : String) (cause : RunConfigError α)
  /-- The settings are out of range after replacement. -/
  | outOfRange (cause : RunConfigError α)
  deriving Repr

/-- The text of an error, as it is reported. -/
def ResolveError.message : ResolveError Float → String
  | unloadable path cause => s!"failed to load run config {path}: {cause.message}"
  | outOfRange cause => s!"invalid run configuration: {cause.message}"

variable {m : Type → Type} [Monad m] [Arithmetic α] [Stored α]

namespace RunConfig

/-- The settings with some of them replaced (`Overrides.apply`), if they are in range then
(`checked`). -/
def override (c : RunConfig α) (o : Overrides α) : Except (ResolveError α) (RunConfig α) :=
  match (o.apply c).checked with
  | .ok config => .ok config
  | .error cause => .error (.outOfRange cause)

/-- The settings of a file, or `RunConfig.standard` without a file, after `override`. Those of the
file must be in range before replacement too (`ofFile`). -/
def resolve (files : FileAccess m) (path : Option String) (o : Overrides α) :
    m (Except (ResolveError α) (RunConfig α)) := do
  match path with
  | none => return override standard o
  | some path =>
    match ← ofFile files path with
    | .ok config => return override config o
    | .error cause => return .error (.unloadable path cause)

end RunConfig

end DurativePlanning
