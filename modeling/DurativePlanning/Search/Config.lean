import DurativePlanning.Arithmetic
import DurativePlanning.Search.Error

/-!
# Settings of a Search

* `SearchConfig`: limits and weights of one search.
* `SearchConfig.validate`: the first setting that is out of range.
* `RolloutParams`: what a rollout needs to know of them.
-/

namespace DurativePlanning

/-- Which value of an edge a selection goes by (`EdgeStats.value`). -/
inductive Selection where
  /-- The mean of the returns. -/
  | avg
  /-- The greatest return. -/
  | max
  deriving DecidableEq, Repr, Inhabited

namespace Selection

def all : List Selection := [avg, max]

/-- The word for a selection in settings. -/
def text : Selection → String
  | avg => "avg"
  | max => "max"

/-- The selection with a given `text`. -/
def ofText? (s : String) : Option Selection := all.find? (·.text == s)

end Selection

/-- How the rewards of a rollout become one return. -/
inductive ReturnType where
  /-- The sum of the rewards. -/
  | episodicUndiscounted
  /-- The sum of the rewards, each weighted by a power of the discount. -/
  | discounted
  /-- The sum of the rewards of the first steps. -/
  | fixedHorizon
  deriving DecidableEq, Repr, Inhabited

namespace ReturnType

def all : List ReturnType := [episodicUndiscounted, discounted, fixedHorizon]

/-- The word for a kind of return in settings. -/
def text : ReturnType → String
  | episodicUndiscounted => "episodic_undiscounted"
  | discounted => "discounted"
  | fixedHorizon => "fixed_horizon"

/-- The kind of return with a given `text`. -/
def ofText? (s : String) : Option ReturnType := all.find? (·.text == s)

end ReturnType

/-- Limits and weights of one search. -/
structure SearchConfig (α : Type) where
  /-- The greatest number of iterations. -/
  iterations : Nat
  /-- The seconds after which no further iteration begins. -/
  timeBudget : Option Float
  /-- The weight of exploration. -/
  c : α
  /-- The discount of a rollout. -/
  gamma : α
  /-- The greatest number of steps from the root, in the tree and in the rollout together. -/
  maxDepth : Nat
  returnType : ReturnType
  fixedHorizonSteps : Nat
  selection : Selection

/-- The settings of a search that are out of range. -/
inductive SearchConfigFault where
  | iterations
  | timeBudget
  | c
  | gamma
  | maxDepth
  | fixedHorizonSteps
  deriving DecidableEq, Repr

/-- What a message says of a fault. -/
def SearchConfigFault.text : SearchConfigFault → String
  | iterations => "iterations must be greater than 0"
  | timeBudget => "time_budget_secs must be finite and > 0"
  | c => "c must be finite and >= 0"
  | gamma => "gamma must be finite and >= 0"
  | maxDepth => "max_depth must be greater than 0"
  | fixedHorizonSteps => "fixed_horizon_steps must be greater than 0"

/-- What a rollout needs to know: how rewards count, and how far it may go. -/
structure RolloutParams (α : Type) where
  returnType : ReturnType
  gamma : α
  maxSteps : Nat
  fixedHorizonSteps : Nat

variable {α : Type} [Arithmetic α]

namespace SearchConfig

/-- The settings where nothing else is said. -/
def standard : SearchConfig α where
  iterations := 256
  timeBudget := none
  c := Arithmetic.ratio 14 10
  gamma := 1
  maxDepth := 128
  returnType := .discounted
  fixedHorizonSteps := 32
  selection := .avg

instance : Inhabited (SearchConfig α) := ⟨standard⟩

/-- The first setting that is out of range, if there is one. -/
def fault? (config : SearchConfig α) : Option SearchConfigFault :=
  if config.iterations = 0 then some .iterations
  else if !config.timeBudget.all Arithmetic.isPositive then some .timeBudget
  else if !Arithmetic.isNonNegative config.c then some .c
  else if !Arithmetic.isNonNegative config.gamma then some .gamma
  else if config.maxDepth = 0 then some .maxDepth
  else if config.fixedHorizonSteps = 0 then some .fixedHorizonSteps
  else none

/-- Whether all settings are in range; if not, the error is `fault?`. -/
def validate (config : SearchConfig α) : Except SearchConfigFault Unit :=
  match config.fault? with
  | some fault => .error fault
  | none => .ok ()

omit [Arithmetic α]

/-- What a rollout from a leaf at some depth needs to know: it may use up what `leafDepth` leaves of
`maxDepth`. -/
def rolloutParams (config : SearchConfig α) (leafDepth : Nat) : RolloutParams α where
  returnType := config.returnType
  gamma := config.gamma
  maxSteps := config.maxDepth - leafDepth
  fixedHorizonSteps := config.fixedHorizonSteps

end SearchConfig

namespace RolloutParams

omit [Arithmetic α] in
/-- The greatest number of steps of a rollout: `maxSteps`, and with a fixed horizon at most
`fixedHorizonSteps`. -/
def stepLimit (p : RolloutParams α) : Nat :=
  if p.returnType = .fixedHorizon then min p.fixedHorizonSteps p.maxSteps else p.maxSteps

/-- The factor by which each further reward counts less: `gamma` for discounted returns, else
one. -/
def decay (p : RolloutParams α) : α :=
  match p.returnType with
  | .discounted => p.gamma
  | .episodicUndiscounted | .fixedHorizon => 1

end RolloutParams

end DurativePlanning
