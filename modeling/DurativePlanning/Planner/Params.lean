import DurativePlanning.Search.Config

/-!
# Settings of the Planner

* `PlanParams`: limits and weights of the planner.
* `PlanParams.validate`: the first setting that is out of range.
* `PlanParams.searchConfig`: the settings of the search behind one decision.
* `PlanError`: why no plan is made.
-/

namespace DurativePlanning

/-- Limits and weights of the planner. -/
structure PlanParams (α : Type) where
  /-- The seconds that an episode may take. -/
  horizonSecs : Float
  /-- The seconds that the search behind one decision may take. -/
  searchTimeSecs : Float
  searchDepth : Nat
  explorationConstant : α
  selection : Selection
  /-- The number of actions that a rollout looks at before it chooses one. -/
  k : Nat
  seed : UInt64
  /-- The greatest number of iterations behind one decision. -/
  maxIterations : Nat

/-- The settings of the planner that are out of range. -/
inductive PlanParamsFault where
  | horizonSecs
  | k
  deriving DecidableEq, Repr

/-- What a message says of a fault. -/
def PlanParamsFault.text : PlanParamsFault → String
  | horizonSecs => "horizon_secs must be finite and > 0"
  | k => "k must be greater than 0"

/-- Why no plan is made. -/
inductive PlanError where
  | invalidParams (fault : PlanParamsFault)
  | config (fault : SearchConfigFault)
  | search (cause : TreeError)
  /-- A time limit has no form in nanoseconds. -/
  | unusableTime (seconds : Float)
  deriving Repr

/-- The text of an error, as it is reported. -/
def PlanError.message : PlanError → String
  | invalidParams fault => s!"invalid planner parameters: {fault.text}"
  | config fault => s!"invalid search config: {fault.text}"
  | search cause => s!"search failed: {cause.message}"
  | unusableTime _ => "a time limit is negative, undefined or too large"

/-- What a failed search means for the plan. -/
def PlanError.ofSearch : SearchError → PlanError
  | .tree cause => search cause
  | .unusableTime seconds => unusableTime seconds

namespace PlanParams

variable {α : Type} [Arithmetic α]

/-- The settings where nothing else is said. -/
def standard : PlanParams α where
  horizonSecs := 90.0
  searchTimeSecs := 1.0
  searchDepth := 40
  explorationConstant := Arithmetic.ofNat 10
  selection := .avg
  k := 10
  seed := 0
  maxIterations := 10000

omit [Arithmetic α]

/-- Whether the settings are in range: `horizonSecs` is finite and positive, and `k` is not zero. -/
def validate (p : PlanParams α) : Except PlanParamsFault Unit :=
  if !Arithmetic.isPositive p.horizonSecs then .error .horizonSecs
  else if p.k = 0 then .error .k
  else .ok ()

/-- The settings of the search behind one decision, under the discount `gamma` of the process. -/
def searchConfig (p : PlanParams α) (gamma : α) : SearchConfig α where
  iterations := p.maxIterations
  timeBudget := some p.searchTimeSecs
  c := p.explorationConstant
  gamma
  maxDepth := p.searchDepth
  returnType := .discounted
  fixedHorizonSteps := p.searchDepth
  selection := p.selection

end PlanParams

end DurativePlanning
