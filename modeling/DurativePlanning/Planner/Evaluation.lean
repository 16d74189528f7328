import DurativePlanning.Planner.Episode

/-!
# Evaluation

A planner is judged by several episodes, whose seeds follow each other.

* `Summary.ofTraces`: counts and means over some episodes.
* `Mdp.evaluate`: the summary of several episodes.
-/

namespace DurativePlanning

/-- Counts and means over some episodes. -/
structure Summary (α : Type) where
  runs : Nat
  successes : Nat
  successRate : α
  /-- The mean of the ticks spent. -/
  meanElapsed : α
  meanSteps : α
  meanWallSeconds : Float
  deadlineExceeded : Nat
  noApplicableAction : Nat
  horizonElapsed : Nat

variable {α γ : Type} {n : Type → Type} [Monad n]

/-- The mean of some numbers, zero without any. -/
def meanOf [Arithmetic α] (xs : List α) : α :=
  if xs.isEmpty then 0 else xs.foldl (· + ·) 0 / Arithmetic.ofNat xs.length

/-- The number of episodes that ended with a given `PlanStatus`. -/
def countStatus (traces : List Trace) (status : PlanStatus) : Nat :=
  traces.countP (·.status == status)

/-- The summary of some episodes: counts by `countStatus`, and means by `meanOf`. -/
def Summary.ofTraces [Arithmetic α] (traces : List Trace) : Summary α :=
  let successes := countStatus traces .goalReached
  { runs := traces.length
    successes
    successRate :=
      if traces.isEmpty then 0 else Arithmetic.ofNat successes / Arithmetic.ofNat traces.length
    meanElapsed := meanOf (traces.map fun t => Arithmetic.ofNat t.finalElapsed)
    meanSteps := meanOf (traces.map fun t => Arithmetic.ofNat t.steps.length)
    meanWallSeconds := meanOf (traces.map (·.wallSeconds))
    deadlineExceeded := countStatus traces .deadlineExceeded
    noApplicableAction := countStatus traces .noApplicableAction
    horizonElapsed := countStatus traces .horizonElapsed }

namespace Mdp

variable [SearchArithmetic α] [SeededSource γ]

variable (γ) in
/-- `runs` episodes, the first with the seed of the settings and each further one with the next
seed; seeds go round after the greatest. -/
def episodes (m : Mdp α) (clock : n Nat) (params : PlanParams α) :
    (runs : Nat) → n (Except PlanError (List Trace))
  | 0 => return .ok []
  | runs + 1 => do
    match ← m.plan γ clock params with
    | .error cause => return .error cause
    | .ok trace =>
      match ← episodes m clock { params with seed := params.seed + 1 } runs with
      | .error cause => return .error cause
      | .ok traces => return .ok (trace :: traces)

variable (γ) in
/-- The summary of several `episodes`, unless one of them fails. -/
def evaluate (m : Mdp α) (clock : n Nat) (runs : Nat) (params : PlanParams α) :
    n (Except PlanError (Summary α)) := do
  match ← m.episodes γ clock params runs with
  | .error cause => return .error cause
  | .ok traces => return .ok (.ofTraces traces)

end Mdp

end DurativePlanning
