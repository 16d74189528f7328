import DurativePlanning.Planner.Decision

/-!
# Episodes

An episode begins in the initial state and takes one decision after the other until the goals are
reached, the deadline is overrun, nothing can be done, or the time for the episode is used up.

* `Trace`: what happened in an episode.
* `Mdp.plan`: one episode.
-/

namespace DurativePlanning

/-- Why an episode ended. -/
inductive PlanStatus where
  | goalReached
  | deadlineExceeded
  | noApplicableAction
  | horizonElapsed
  deriving DecidableEq, Repr

namespace PlanStatus

def all : List PlanStatus := [goalReached, deadlineExceeded, noApplicableAction, horizonElapsed]

/-- The word for a status in a report. -/
def text : PlanStatus → String
  | goalReached => "goal_reached"
  | deadlineExceeded => "deadline_exceeded"
  | noApplicableAction => "no_applicable_action"
  | horizonElapsed => "horizon_elapsed"

/-- The status with a given `text`. -/
def ofText? (s : String) : Option PlanStatus := all.find? (·.text == s)

end PlanStatus

/-- One decision of an episode, and the state after it. -/
structure TraceStep where
  action : String
  /-- The ticks spent since the beginning. -/
  elapsed : Nat
  goalsSatisfied : Nat
  deriving DecidableEq, Repr

/-- What happened in an episode. -/
structure Trace where
  steps : List TraceStep
  status : PlanStatus
  finalElapsed : Nat
  goalsSatisfied : Nat
  /-- The seconds that the episode took. -/
  wallSeconds : Float

variable {α γ : Type} {n : Type → Type} [Monad n]

namespace Mdp

/-- What is recorded of a decision and the state after it: its `actionName?`, and the `elapsed`
ticks. -/
def traceStep (m : Mdp α) (action : Nat) (after : State) : TraceStep where
  action := (m.actionName? action).getD "?"
  elapsed := m.elapsed after
  goalsSatisfied := m.goalsSatisfied after

/-- Whether an episode ends before the next decision because of the state it is in: `isGoal` is
asked before `isFailed`. -/
def finished? (m : Mdp α) (s : State) : Option PlanStatus :=
  if m.isGoal s then some .goalReached
  else if s.isFailed then some .deadlineExceeded
  else none

variable [SearchArithmetic α]

/-- An episode from a state on, with up to `left` decisions. Each decision takes at least one tick,
so one decision more than there are ticks left is enough. -/
def episodeFrom [WordSource γ] (m : Mdp α) (clock : n Nat) (began horizon : Nat)
    (config : SearchConfig α) (k : Nat) :
    (left : Nat) → State → List TraceStep → γ →
      n (Except PlanError (List TraceStep × PlanStatus × State))
  | left, s, steps, source => do
    match m.finished? s with
    | some status => return .ok (steps, status, s)
    | none =>
      let now ← clock
      if horizon ≤ now - began then return .ok (steps, .horizonElapsed, s) else
      match m.applicable s with
      | [] => return .ok (steps, .noApplicableAction, s)
      | first :: others =>
        match left with
        | 0 => return .ok (steps, .horizonElapsed, s)
        | left + 1 =>
          match ← m.decision clock config k s first others source with
          | (.error cause, _) => return .error cause
          | (.ok action, source) =>
            let (next, source) := m.draw s action source
            episodeFrom m clock began horizon config k left next
              (steps ++ [m.traceStep action next]) source

variable (γ) in
/-- One episode, within the limits of `params`, which must pass `validate`. The clock tells
nanoseconds. -/
def plan [SeededSource γ] (m : Mdp α) (clock : n Nat) (params : PlanParams α) :
    n (Except PlanError Trace) := do
  match params.validate with
  | .error fault => return .error (.invalidParams fault)
  | .ok () =>
    let config := params.searchConfig m.discount
    match config.validate with
    | .error fault => return .error (.config fault)
    | .ok () =>
      match nanosecondsOf? params.horizonSecs with
      | none => return .error (.unusableTime params.horizonSecs)
      | some horizon =>
        let began ← clock
        let source : γ := SeededSource.ofSeed params.seed
        match ← m.episodeFrom clock began horizon config params.k (m.deadline + 1)
            m.initialState [] source with
        | .error cause => return .error cause
        | .ok (steps, status, s) =>
          let ended ← clock
          return .ok ⟨steps, status, m.elapsed s, m.goalsSatisfied s, secondsOf (ended - began)⟩

end Mdp

end DurativePlanning
