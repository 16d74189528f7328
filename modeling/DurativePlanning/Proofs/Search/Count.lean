import DurativePlanning.Proofs.Search.Walk
import Mathlib.Algebra.Ring.Nat

/-!
# Counting the Nodes of a Search Tree

A walk adds a node only together with a successor of an edge. So the nodes of a tree can be counted
at its edges.

* `Tree.Counted`: all nodes but the root are successors.
* `Tree.Counted.setEdge`, `Tree.Counted.walk`: changes that keep this.
-/

namespace DurativePlanning

variable {α : Type}

/-- `setIfInBounds` changes a sum over the array by the difference of the two entries. -/
theorem sum_map_setIfInBounds {β : Type} (f : β → ℕ) {xs : Array β} {i : ℕ} {x : β}
    (h : xs[i]? = some x) (y : β) :
    ((xs.setIfInBounds i y).toList.map f).sum + f x = (xs.toList.map f).sum + f y := by
  rw [Array.toList_setIfInBounds]
  rw [← Array.getElem?_toList] at h
  generalize xs.toList = l at h ⊢
  induction l generalizing i with
  | nil => exact absurd h (by simp)
  | cons z rest ih =>
      cases i with
      | zero =>
          obtain rfl : z = x := by simpa using h
          simp only [List.set_cons_zero, List.map_cons, List.sum_cons]
          omega
      | succ i =>
          have hrest := ih (i := i) (by simpa using h)
          simp only [List.set_cons_succ, List.map_cons, List.sum_cons]
          omega

/-- The number of the successors that the edges of a node list. -/
def Node.successors (n : Node α) : ℕ := (n.edges.toList.map (·.outcomes.length)).sum

namespace Tree

/-- The number of the successors that all edges list. -/
def successors (t : Tree α) : ℕ := (t.nodes.toList.map Node.successors).sum

/-- All nodes but the root are `successors`. -/
def Counted (t : Tree α) : Prop := t.size = 1 + t.successors

variable {t t' : Tree α} {i a : ℕ} {n : Node α} {e e' : Edge α}

/-- Replacing a node changes the number by the difference of the two nodes. -/
theorem successors_setNode (hn : t.node? i = some n) (n' : Node α) :
    (t.setNode i n').successors + n.successors = t.successors + n'.successors :=
  sum_map_setIfInBounds Node.successors hn n'

/-- Replacing an edge changes the number by the difference of the two edges. -/
theorem successors_setEdge (hn : t.node? i = some n) (he : n.edges[a]? = some e) (e' : Edge α) :
    (t.setEdge i n a e').successors + e.outcomes.length = t.successors + e'.outcomes.length := by
  have hnode := successors_setNode hn { n with edges := n.edges.setIfInBounds a e' }
  have hedge := sum_map_setIfInBounds (·.outcomes.length) he e'
  simp only [Node.successors] at hnode
  rw [setEdge]
  omega

/-- A leaf that is pushed has no edges. -/
theorem successors_push_leaf (t : Tree α) (key depth : ℕ) (parent : Option (ℕ × ℕ))
    (terminal : Bool) : (t.push (.leaf key depth parent terminal)).successors = t.successors := by
  simp [successors, push, Node.successors, Node.leaf]

/-- Replacing an edge by one with as many successors keeps the count. -/
theorem Counted.setEdge (hcount : t.Counted) (hn : t.node? i = some n)
    (he : n.edges[a]? = some e) (hlength : e'.outcomes.length = e.outcomes.length) :
    (t.setEdge i n a e').Counted := by
  have hset := successors_setEdge hn he e'
  rw [Counted] at hcount
  rw [Counted, size_setEdge]
  omega

variable [SearchArithmetic α]

/-- `Node.expand` keeps the count: the new edges list no successor yet. -/
theorem Counted.setNode_expand (hcount : t.Counted) (ht : t.WellFormed) (hn : t.node? i = some n)
    (hexpanded : n.expanded = false) (k : ℕ) : (t.setNode i (n.expand k)).Counted := by
  have hset := successors_setNode hn (n.expand k)
  have hbefore : n.successors = 0 := by
    have hempty : n.edges = #[] := by
      rw [← Array.size_eq_zero_iff]
      have hexpanded' := (ht.expanded hn).not.mp (by simp [hexpanded])
      omega
    rw [Node.successors, hempty]
    rfl
  have hafter : (n.expand k).successors = 0 := by
    have hzero : (fun e : Edge α => e.outcomes.length) ∘ Edge.ofAction = fun _ => 0 := rfl
    simp [Node.successors, Node.expand, hexpanded, hzero]
  rw [Counted] at hcount
  rw [Counted, size_setNode]
  omega

/-- **A walk keeps the count**: it adds a node only together with a successor. -/
theorem Counted.walk {leaf : ℕ} {path : List (ℕ × ℕ)} (hcount : t.Counted)
    (hwalk : Walk t i path leaf t') (ht : t.WellFormed) : t'.Counted := by
  induction hwalk with
  | rest => exact hcount
  | expand hn hexpanded hk _ ih =>
      exact ih (hcount.setNode_expand ht hn hexpanded _) (ht.setNode_expand hn hexpanded hk)
  | @meet _ _ _ _ _ e o _ _ hn he _ _ ih =>
      have hlength : (e.meet o.key).outcomes.length = e.outcomes.length := by
        rw [Edge.outcomes_meet, List.length_map]
      exact ih (hcount.setEdge hn he hlength) (ht.setEdge_meet hn he o.key)
  | @enter t i n a e key terminal hn he _ =>
      have hset := successors_setEdge (node?_push_of_node? hn
        (.leaf key (n.depth + 1) (some (i, a)) terminal)) he (e.extend key t.size)
      rw [successors_push_leaf, Edge.extend, List.length_append, List.length_singleton] at hset
      rw [Counted] at hcount
      rw [Counted, size_grow, grow, Edge.extend]
      omega

end Tree

end DurativePlanning
