import DurativePlanning.Search.Edge

/-!
# Search Trees

A tree lists its nodes by number, the root first; nodes are never removed. A node belongs to a state
of the environment, which the tree knows by its key alone.

* `Node.select`: the edge that a descent takes.
* `Tree.rootEdges`, `Tree.bestByVisits`, `Tree.bestByValue`: what a search has found out.
* `Tree.backpropagate`: a return added along a path.
-/

namespace DurativePlanning

/-- A decision point. -/
structure Node (α : Type) where
  /-- The key of the node's state. -/
  key : Nat
  depth : Nat
  /-- The node and the action from which this node was reached. -/
  parent : Option (Nat × Nat)
  edges : Array (Edge α)
  terminal : Bool
  expanded : Bool

/-- Nodes by number. -/
structure Tree (α : Type) where
  nodes : Array (Node α)

/-- What is reported of an edge of the root. -/
structure RootEdge (α : Type) where
  action : Nat
  visits : Nat
  q : α
  best : α

variable {α : Type}

namespace Node

/-- A node without edges; it is not `expanded`. -/
def leaf (key depth : Nat) (parent : Option (Nat × Nat)) (terminal : Bool) : Node α :=
  ⟨key, depth, parent, #[], terminal, false⟩

variable [SearchArithmetic α]

/-- A node with one edge per action; one that is `expanded` already stays as it is. -/
def expand (n : Node α) (actions : Nat) : Node α :=
  if n.expanded then n
  else { n with edges := ((List.range actions).map Edge.ofAction).toArray, expanded := true }

/-- How often a node was left, at least once: the visits of its edges, taken together. -/
def visits (n : Node α) : Nat := max (n.edges.foldl (fun total e => total + e.stats.visits) 0) 1

/-- The position of the first edge with the greatest score, `fallback` when no score counts. -/
def firstBest (parentVisits : Nat) (c : α) (selection : Selection) :
    (position fallback : Nat) → Option (Score α) → List (Edge α) → Nat
  | _, fallback, _, [] => fallback
  | position, fallback, top, e :: rest =>
    let score := e.score parentVisits c selection
    if score.beats top then
      firstBest parentVisits c selection (position + 1) position (some score) rest
    else firstBest parentVisits c selection (position + 1) fallback top rest

/-- The action of the first edge with the greatest score (`firstBest`); none without edges. -/
def select (n : Node α) (c : α) (selection : Selection) : Option Nat :=
  if n.edges.isEmpty then none
  else some (firstBest n.visits c selection 0 0 none n.edges.toList)

end Node

namespace Tree

/-- A tree that has only its root. -/
def ofRoot (key : Nat) (terminal : Bool) : Tree α := ⟨#[.leaf key 0 none terminal]⟩

/-- The number of the root. -/
def root : Nat := 0

/-- The number of nodes. -/
def size (t : Tree α) : Nat := t.nodes.size

/-- The node with a number. -/
def node? (t : Tree α) (i : Nat) : Option (Node α) := t.nodes[i]?

/-- The tree with a node replaced. -/
def setNode (t : Tree α) (i : Nat) (n : Node α) : Tree α := ⟨t.nodes.setIfInBounds i n⟩

/-- The tree with an edge of a node replaced, in a copy of the node that `setNode` puts back. -/
def setEdge (t : Tree α) (i : Nat) (n : Node α) (action : Nat) (e : Edge α) : Tree α :=
  t.setNode i { n with edges := n.edges.setIfInBounds action e }

/-- The tree with one more node, whose number is the `size` before. -/
def push (t : Tree α) (n : Node α) : Tree α := ⟨t.nodes.push n⟩

variable [SearchArithmetic α]

/-- The edges of the root in order of action. -/
def rootEdges (t : Tree α) : Except TreeError (List (RootEdge α)) :=
  match t.node? root with
  | none => .error (.missingNode root)
  | some n => .ok (n.edges.toList.map fun e => ⟨e.action, e.stats.visits, e.stats.q, e.stats.best⟩)

/-- The action with the greatest value under `value`, and that value; the first of equals. -/
def pickBest (value : RootEdge α → α) : Option (Nat × α) → List (RootEdge α) → Option (Nat × α)
  | top, [] => top
  | none, e :: rest => pickBest value (some (e.action, value e)) rest
  | some (action, x), e :: rest =>
    if value e ≤ x then pickBest value (some (action, x)) rest
    else pickBest value (some (e.action, value e)) rest

/-- The root action that was taken most often, out of `rootEdges`; the first of equals. -/
def bestByVisits (t : Tree α) : Except TreeError (Option Nat) := do
  let edges ← t.rootEdges
  return (pickBest (fun e => Arithmetic.ofNat e.visits) none edges).map Prod.fst

/-- The root action with the greatest value, `q` or `best`; the first of equals. -/
def bestByValue (t : Tree α) (selection : Selection) : Except TreeError (Option Nat) := do
  let edges ← t.rootEdges
  let value : RootEdge α → α := match selection with
    | .avg => (·.q)
    | .max => (·.best)
  return (pickBest value none edges).map Prod.fst

/-- A return recorded at each edge of a path (`Edge.record`), from its beginning; edges before one
that is missing keep what was recorded. -/
def backpropagate (t : Tree α) (x : α) : List (Nat × Nat) → Except TreeError Unit × Tree α
  | [] => (.ok (), t)
  | (i, action) :: rest =>
    match t.node? i with
    | none => (.error (.missingNode i), t)
    | some n =>
      match n.edges[action]? with
      | none => (.error (.missingEdge i action), t)
      | some e => backpropagate (t.setEdge i n action (e.record x)) x rest

end Tree

end DurativePlanning
