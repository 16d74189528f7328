import DurativePlanning.Seconds

/-!
# Faults in a Search

A search fails when the tree and its environment do not fit together: a number was never given out,
or the environment chose an action that it does not offer. None of them is an ordinary outcome.

* `TreeError`: the causes.
* `SearchError`: those, and a time limit that cannot be kept.
-/

namespace DurativePlanning

/-- Why growing or reading a search tree fails. -/
inductive TreeError where
  /-- No node has this number. -/
  | missingNode (node : Nat)
  /-- The node has no edge for this action. -/
  | missingEdge (node action : Nat)
  /-- The node is expanded and has no edge. -/
  | actionSelectionFailed (node : Nat)
  /-- A successor is entered twice under one edge. -/
  | outcomeInsertFailed (node action : Nat)
  /-- A rollout is told to take an action that the state does not offer. -/
  | invalidRolloutAction (state action available : Nat)
  deriving DecidableEq, Repr

/-- The text of an error, as it is reported. -/
def TreeError.message : TreeError → String
  | missingNode node => s!"node {node} is not in the tree"
  | missingEdge node action => s!"node {node} has no edge for action {action}"
  | actionSelectionFailed node => s!"node {node} has no action to select"
  | outcomeInsertFailed node action =>
    s!"successor already registered under action {action} of node {node}"
  | invalidRolloutAction state action available =>
    s!"rollout chose action {action} in state {state} which offers only {available} actions"

/-- Why a run of a search fails. -/
inductive SearchError where
  | tree (cause : TreeError)
  /-- The time limit has no form in nanoseconds. -/
  | unusableTime (seconds : Float)
  deriving Repr

end DurativePlanning
