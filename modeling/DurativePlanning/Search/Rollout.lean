import DurativePlanning.Search.Config
import DurativePlanning.Search.Environment

/-!
# Rollouts

A rollout walks on from a leaf, taking the actions that the environment chooses, and adds up what it
earns. It ends after a terminal step, in a state without actions, or when its steps are used up. An
action that the state does not offer ends it with an error.

* `rollout`: the return of one rollout.
-/

namespace DurativePlanning

variable {σ α : Type} [Arithmetic α]

/-- A walk of at most `steps` steps. `total` is what was earned before, and `weight` is how much the
next reward counts. -/
def walk (env : Environment σ α) (decay : α) :
    (steps : Nat) → (state : Nat) → (total weight : α) → σ → Except TreeError α × σ
  | 0, _, total, _, s => (.ok total, s)
  | steps + 1, state, total, weight, s =>
    let (available, s) := env.actionCount state s
    if available = 0 then (.ok total, s) else
    let (action, s) := env.choose state available s
    if action < available then
      let (t, s) := env.step state action s
      let total := total + weight * t.reward
      if t.terminal then (.ok total, s)
      else walk env decay steps t.next total (weight * decay) s
    else (.error (.invalidRolloutAction state action available), s)

/-- The return of a rollout from a state: a `walk` of at most `stepLimit` steps, with rewards
weighted by powers of `decay`. -/
def rollout (env : Environment σ α) (params : RolloutParams α) (start : Nat) (s : σ) :
    Except TreeError α × σ :=
  walk env params.decay params.stepLimit start 0 1 s

end DurativePlanning
