import DurativePlanning.Search.Environment
import DurativePlanning.Search.Tree

/-!
# Descents

A descent goes down from the root along the edges with the greatest scores. It ends at a terminal
node, at a state without actions, at the greatest depth, or as soon as it meets a successor for the
first time, for which it adds a node. What it changed in the tree stays, however it ends.

* `Tree.descend`: one descent.
-/

namespace DurativePlanning

/-- The result of a descent. -/
structure Descent (α : Type) where
  /-- The edges taken, as node and action, from the root down. -/
  path : List (Nat × Nat)
  /-- The node at which the descent ended. -/
  leaf : Nat
  /-- Whether the leaf was added by this descent. -/
  isNew : Bool
  /-- The sum of the rewards on the way. -/
  reward : α

variable {σ α : Type} [SearchArithmetic α]

namespace Tree

/-- A node with its edges, which it gets when it is first passed (`Node.expand`); none when its
state offers no action. -/
def expandNode (t : Tree α) (env : Environment σ α) (i : Nat) (n : Node α) (s : σ) :
    Option (Node α) × Tree α × σ :=
  if n.expanded then (some n, t, s) else
  let (actions, s) := env.actionCount n.key s
  if actions = 0 then (none, t, s)
  else (some (n.expand actions), t.setNode i (n.expand actions), s)

/-- A successor that was met for the first time, with a node of its own, which `Tree.push` puts at
the end. -/
def addChild (t : Tree α) (i : Nat) (n : Node α) (action : Nat) (e : Edge α)
    (next : Transition α) : Except TreeError Nat × Tree α :=
  let grown := t.push (.leaf next.next (n.depth + 1) (some (i, action)) next.terminal)
  match e.enter? next.next t.size with
  | none => (.error (.outcomeInsertFailed i action), grown)
  | some e => (.ok t.size, grown.setEdge i n action e)

/-- A descent from a node that takes at most `levels` edges more. `path` and `reward` tell how the
node was reached. -/
def descendFrom (env : Environment σ α) (c : α) (selection : Selection) :
    (levels : Nat) → (current : Nat) → (path : List (Nat × Nat)) → (reward : α) →
      Tree α → σ → Except TreeError (Descent α) × Tree α × σ
  | levels, current, path, reward, t, s =>
    match t.node? current with
    | none => (.error (.missingNode current), t, s)
    | some n =>
      if n.terminal then (.ok ⟨path, current, false, reward⟩, t, s) else
      match levels with
      | 0 => (.ok ⟨path, current, false, reward⟩, t, s)
      | levels + 1 =>
        match t.expandNode env current n s with
        | (none, t, s) => (.ok ⟨path, current, false, reward⟩, t, s)
        | (some n, t, s) =>
          match n.select c selection with
          | none => (.error (.actionSelectionFailed current), t, s)
          | some action =>
            let (next, s) := env.step n.key action s
            let path := path ++ [(current, action)]
            let reward := reward + next.reward
            match n.edges[action]? with
            | none => (.error (.missingEdge current action), t, s)
            | some e =>
              match e.outcome? next.next with
              | some known =>
                descendFrom env c selection levels known.child path reward
                  (t.setEdge current n action (e.meet next.next)) s
              | none =>
                match t.addChild current n action e next with
                | (.error cause, t) => (.error cause, t, s)
                | (.ok child, t) => (.ok ⟨path, child, true, reward⟩, t, s)

/-- A descent from the root that takes at most `maxDepth` edges. -/
def descend (t : Tree α) (env : Environment σ α) (c : α) (selection : Selection) (maxDepth : Nat)
    (s : σ) : Except TreeError (Descent α) × Tree α × σ :=
  descendFrom env c selection maxDepth root [] 0 t s

end Tree

end DurativePlanning
