import DurativePlanning.Arithmetic
import DurativePlanning.Search.Environment
import Std.Data.HashMap

/-!
# Scripted Environments

An environment that answers by rote: what comes of an action depends on the state, the action and
how often it was taken before, and what a rollout takes depends on how often one was asked before.
Such an environment shows what a search does with known answers.

* `Environment.scripted`: the environment of given answers.
* `Environment.ofTable`: the environment that reads its answers off a table.
-/

namespace DurativePlanning

/-- How often a scripted environment was asked. -/
structure Script where
  /-- By state and action. -/
  taken : Std.HashMap (Nat × Nat) Nat := {}
  steps : Nat := 0
  choices : Nat := 0

namespace Environment

variable {α : Type}

/-- The environment of given answers, which may depend on how often it was asked (`Script`). -/
def scripted (actionCount : (state : Nat) → Nat)
    (outcome : (state action turn : Nat) → Transition α)
    (choice : (turn available : Nat) → Nat) : Environment Script α where
  actionCount state s := (actionCount state, s)
  step state action s :=
    let turn := s.taken.getD (state, action) 0
    let taken := s.taken.insert (state, action) (turn + 1)
    (outcome state action turn, { s with taken, steps := s.steps + 1 })
  choose _ available s := (choice s.choices available, { s with choices := s.choices + 1 })

/-- The environment that takes the outcomes of an action in turn from a table of states. A state
that is not in the table offers nothing, and an action without outcomes ends where it began. -/
def ofTable [Arithmetic α] (table : List (Nat × List (List (Transition α))))
    (choice : (turn available : Nat) → Nat) : Environment Script α :=
  let actions (state : Nat) := (table.lookup state).getD []
  scripted (fun state => (actions state).length)
    (fun state action turn =>
      let outcomes := ((actions state)[action]?).getD []
      (outcomes[turn % max outcomes.length 1]?).getD ⟨state, 0, true⟩) choice

end Environment

end DurativePlanning
