import DurativePlanning.Planner.Evaluation
import DurativePlanning.Reference.Catalogue
import DurativePlanning.Run.Config

/-!
# Compiling the Domain of a Run

* `compile`: the decision process of the domain that the settings of a run name, and the sizes of
  every stage on the way to it.
-/

namespace DurativePlanning

open Storage

/-- The sizes of every stage of a compilation. -/
structure CompileReport where
  domain : String
  kind : DomainKind
  deadline : Nat
  actions : Nat
  events : Nat
  combinations : Option Nat
  propositions : Nat
  mdpActions : Nat
  cache : Option CacheStatus
  compileSecs : Float

/-- Why a domain is not compiled. -/
inductive CompileError (α : Type) where
  | reference (cause : Reference.ReferenceError)
  | model (cause : ModelError)
  | process (cause : MdpError α)

/-- The text of an error, as it is reported. -/
def CompileError.message : CompileError Float → String
  | reference cause => cause.message
  | model cause => cause.message
  | process cause => cause.message

variable {α : Type}

/-- A result under a wider kind of error. -/
def asError {ε ε' β : Type} (f : ε → ε') : Except ε β → Except ε' β
  | .ok x => .ok x
  | .error cause => .error (f cause)

/-- The outcome of a compilation without its duration. -/
def report (domain : Domain α) (config : RunConfig α) (mdp : Mdp α) (split : ConvertedProblem α)
    (combinations : Option Nat) (cache : Option CacheStatus) : CompileReport where
  domain := domain.name
  kind := config.kind
  deadline := mdp.deadline
  actions := split.actions.length
  events := split.eventCount
  combinations
  propositions := split.core.atoms.size
  mdpActions := mdp.actions.size
  cache
  compileSecs := 0

variable [Arithmetic α] {m : Type → Type} [Monad m]

/-- The process of a domain in split mode: `compileSplit`, and then `Mdp.ofConverted`. -/
def compileRegular (domain : Domain α) (config : RunConfig α) :
    Except (CompileError α) (Mdp α × CompileReport) := do
  let split ← asError .model domain.compileSplit
  let mdp ← asError .process (Mdp.ofConverted split config.discount)
  return (mdp, report domain config mdp split none none)

/-- The process of a bundle in combination mode (`Mdp.ofCombination`). -/
def compileBundle (domain : Domain α) (config : RunConfig α) (bundle : Bundle α)
    (cache : Option CacheStatus) : Except (CompileError α) (Mdp α × CompileReport) := do
  let mdp ← asError .process (Mdp.ofCombination bundle.combination config.discount)
  let combinations := bundle.combination.combinations.length
  return (mdp, report domain config mdp bundle.split (some combinations) cache)

/-- The process of a domain by its kind. A bundle is taken from the cache if `useCache` says so. -/
def compileDomain (files : FileAccess m) (codec : BundleCodec α) (domain : Domain α)
    (config : RunConfig α) (useCache : Bool) :
    m (Except (CompileError α) (Mdp α × CompileReport)) := do
  let build (_ : Unit) := asError .model domain.compileCombination
  match config.kind with
  | .regular | .regularAsBaseline => return compileRegular domain config
  | .combination =>
    if useCache then
      match ← loadOrBuild files codec config.cacheDir (.ofDomain domain) config.deadline build with
      | .error cause => return .error cause
      | .ok (bundle, status) => return compileBundle domain config bundle (some status)
    else
      match build () with
      | .error cause => return .error cause
      | .ok bundle => return compileBundle domain config bundle none

/-- The process of the domain that the settings name, through the cache if there is one
(`loadOrBuild`). The clock tells nanoseconds. -/
def compile (files : FileAccess m) (codec : BundleCodec α) (clock : m Nat) (config : RunConfig α)
    (useCache : Bool) : m (Except (CompileError α) (Mdp α × CompileReport)) := do
  let began ← clock
  match Reference.build config.domain config.kind config.deadline config.objectAmount
      config.garbageAmount with
  | .error cause => return .error (.reference cause)
  | .ok domain =>
    match ← compileDomain files codec domain config useCache with
    | .error cause => return .error cause
    | .ok (mdp, sizes) =>
      let ended ← clock
      return .ok (mdp, { sizes with compileSecs := secondsOf (ended - began) })

end DurativePlanning
