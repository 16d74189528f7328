import DurativePlanning.Domain.Basic
import DurativePlanning.Planner.Params
import DurativePlanning.Search.Document

/-!
# Settings of a Run

A run compiles a reference domain and evaluates a planner on it. Its settings come from a document;
those that the document does not name keep their usual values.

* `RunConfig`: the settings.
* `RunConfig.validate`: the first setting that is out of range.
* `RunConfig.ofYaml`, `RunConfig.ofFile`: the settings in a document, which must be in range.
* `RunConfig.planParams`: what the planner needs to know of them.
-/

namespace DurativePlanning

open Yaml Storage

/-- The planners there are. -/
inductive Solver where
  /-- Monte Carlo tree search. -/
  | mcts
  deriving DecidableEq, Repr, Inhabited

namespace Solver

/-- The word for a planner in settings. -/
def text : Solver → String
  | mcts => "mcts"

/-- The planner with a given `text`. -/
def ofText? (s : String) : Option Solver := if s = "mcts" then some mcts else none

end Solver

/-- The settings of a run. -/
structure RunConfig (α : Type) where
  /-- The name of a reference domain. -/
  domain : String
  kind : DomainKind
  deadline : Nat
  objectAmount : Nat
  garbageAmount : Nat
  /-- The number of episodes. -/
  runs : Nat
  solver : Solver
  /-- The seconds that an episode may take. -/
  horizonSecs : Float
  /-- The seconds that the search behind one decision may take. -/
  searchTimeSecs : Float
  searchDepth : Nat
  explorationConstant : α
  selection : Selection
  k : Nat
  maxIterations : Nat
  seed : UInt64
  discount : α
  /-- The directory of compiled bundles. -/
  cacheDir : String

/-- What is wrong with a setting of a run. -/
inductive RunFault where
  | runs
  | objectAmount
  | horizonSecs
  | searchTimeSecs
  | searchDepth
  | explorationConstant
  | k
  | maxIterations
  | unknownKind (text : String)
  | unknownSolver (text : String)
  deriving DecidableEq, Repr

/-- What a message says of a fault. -/
def RunFault.text : RunFault → String
  | runs => "runs must be greater than 0"
  | objectAmount => "object_amount must be greater than 0"
  | horizonSecs => "horizon_secs must be finite and > 0"
  | searchTimeSecs => "search_time_secs must be finite and > 0"
  | searchDepth => "search_depth must be greater than 0"
  | explorationConstant => "exploration_constant must be finite and >= 0"
  | k => "k must be greater than 0"
  | maxIterations => "max_iterations must be greater than 0"
  | unknownKind text =>
    s!"unknown domain type '{text}', expected regular, regular_as_baseline or combination"
  | unknownSolver text => s!"unsupported solver '{text}', expected mcts"

/-- Why there are no settings of a run. -/
inductive RunConfigError (α : Type) where
  | io (cause : FileError)
  | yaml (cause : ReadError)
  | invalidDiscount (value : α)
  | invalidConfig (fault : RunFault)
  deriving Repr

/-- The text of an error, as it is reported. -/
def RunConfigError.message : RunConfigError Float → String
  | io cause => (StorageError.io cause).message
  | yaml cause => (StorageError.yaml cause).message
  | invalidDiscount value =>
    s!"discount factor must be within [0, 1], got {Layout.message.text value}"
  | invalidConfig fault => s!"invalid run configuration: {fault.text}"

/-- Why a text names no selection. -/
def Selection.unknownMessage (text : String) : String :=
  s!"invalid selection type '{text}'; expected one of: avg, max"

variable {α : Type}

/-- The kind of domain that a text names (`DomainKind.ofText?`). -/
def readKind (text : String) : Except (RunConfigError α) DomainKind :=
  match DomainKind.ofText? text with
  | some kind => .ok kind
  | none => .error (.invalidConfig (.unknownKind text))

/-- The planner that a text names (`Solver.ofText?`). -/
def readSolver (text : String) : Except (RunConfigError α) Solver :=
  match Solver.ofText? text with
  | some solver => .ok solver
  | none => .error (.invalidConfig (.unknownSolver text))

instance : Stored DomainKind where
  toNode k := .word k.text
  ofNode := Node.choice "a kind of domain" DomainKind.ofText?

instance : Stored Solver where
  toNode s := .word s.text
  ofNode := Node.choice "mcts" Solver.ofText?

instance : Stored UInt64 where
  toNode n := .word (toString n.toNat)
  ofNode node := UInt64.ofNat <$> Node.natural UInt64.size node

namespace RunConfig

/-- What the planner needs to know, as `PlanParams`. -/
def planParams (c : RunConfig α) : PlanParams α where
  horizonSecs := c.horizonSecs
  searchTimeSecs := c.searchTimeSecs
  searchDepth := c.searchDepth
  explorationConstant := c.explorationConstant
  selection := c.selection
  k := c.k
  seed := c.seed
  maxIterations := c.maxIterations

variable [Arithmetic α]

/-- The settings where nothing else is said. -/
def standard : RunConfig α :=
  let plan : PlanParams α := .standard
  { domain := "full_conc"
    kind := .regular
    deadline := 20
    objectAmount := 1
    garbageAmount := 0
    runs := 1
    solver := .mcts
    horizonSecs := plan.horizonSecs
    searchTimeSecs := plan.searchTimeSecs
    searchDepth := plan.searchDepth
    explorationConstant := plan.explorationConstant
    selection := plan.selection
    k := plan.k
    maxIterations := plan.maxIterations
    seed := plan.seed
    discount := Arithmetic.ratio 95 100
    cacheDir := "cache_domains" }

/-- The first setting that is out of range, the discount aside, if there is one. -/
def fault? (c : RunConfig α) : Option RunFault :=
  if c.runs = 0 then some .runs
  else if c.objectAmount = 0 then some .objectAmount
  else if !Arithmetic.isPositive c.horizonSecs then some .horizonSecs
  else if !Arithmetic.isPositive c.searchTimeSecs then some .searchTimeSecs
  else if c.searchDepth = 0 then some .searchDepth
  else if !Arithmetic.isNonNegative c.explorationConstant then some .explorationConstant
  else if c.k = 0 then some .k
  else if c.maxIterations = 0 then some .maxIterations
  else none

/-- Whether all settings are in range: the discount is a unit, and `fault?` finds nothing else. -/
def validate (c : RunConfig α) : Except (RunConfigError α) Unit :=
  if !Arithmetic.isUnit c.discount then .error (.invalidDiscount c.discount)
  else match c.fault? with
    | some fault => .error (.invalidConfig fault)
    | none => .ok ()

variable [Stored α]

/-- The names of the settings in documents and reports. -/
def names : List String :=
  ["domain", "domain_type", "deadline", "object_amount", "garbage_amount", "runs", "solver",
    "horizon_secs", "search_time_secs", "search_depth", "exploration_constant", "selection", "k",
    "max_iterations", "seed", "discount", "cache_dir"]

instance : Stored (RunConfig α) where
  toNode c := .record (names.zip [toNode c.domain, toNode c.kind, toNode c.deadline,
    toNode c.objectAmount, toNode c.garbageAmount, toNode c.runs, toNode c.solver,
    toNode c.horizonSecs, toNode c.searchTimeSecs, toNode c.searchDepth,
    toNode c.explorationConstant, toNode c.selection, toNode c.k, toNode c.maxIterations,
    toNode c.seed, toNode c.discount, toNode c.cacheDir])
  ofNode node := do
    let usual : RunConfig α := .standard
    let fields ← node.fields names
    let word (name : String) (default : Nat) : Reading Nat :=
      Number32.value <$> fields.getD name ⟨default⟩
    return {
      domain := ← fields.getD "domain" usual.domain
      kind := ← fields.getD "domain_type" usual.kind
      deadline := ← word "deadline" usual.deadline
      objectAmount := ← word "object_amount" usual.objectAmount
      garbageAmount := ← word "garbage_amount" usual.garbageAmount
      runs := ← fields.getD "runs" usual.runs
      solver := ← fields.getD "solver" usual.solver
      horizonSecs := ← fields.getD "horizon_secs" usual.horizonSecs
      searchTimeSecs := ← fields.getD "search_time_secs" usual.searchTimeSecs
      searchDepth := ← fields.getD "search_depth" usual.searchDepth
      explorationConstant := ← fields.getD "exploration_constant" usual.explorationConstant
      selection := ← fields.getD "selection" usual.selection
      k := ← fields.getD "k" usual.k
      maxIterations := ← fields.getD "max_iterations" usual.maxIterations
      seed := ← fields.getD "seed" usual.seed
      discount := ← fields.getD "discount" usual.discount
      cacheDir := ← fields.getD "cache_dir" usual.cacheDir }

/-- The same settings, if all are in range (`validate`). -/
def checked (c : RunConfig α) : Except (RunConfigError α) (RunConfig α) := do
  c.validate
  return c

/-- The settings in a document, `checked`. -/
def ofYaml (text : String) : Except (RunConfigError α) (RunConfig α) :=
  match read text with
  | .ok config => checked config
  | .error cause => .error (.yaml cause)

/-- The settings in a file, read as by `ofYaml`. -/
def ofFile {m : Type → Type} [Monad m] (files : FileAccess m) (path : String) :
    m (Except (RunConfigError α) (RunConfig α)) := do
  match ← files.read path with
  | .ok text => return ofYaml text
  | .error cause => return .error (.io cause)

end RunConfig

end DurativePlanning
