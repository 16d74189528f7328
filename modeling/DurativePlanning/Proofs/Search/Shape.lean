import DurativePlanning.Search.Tree
import Mathlib.Data.List.Nodup
import Mathlib.Data.Nat.Notation

/-!
# The Shape of a Search Tree

A tree stores each link twice: a node names the edge it was reached by, and that edge lists the node
as a successor. This module says when the two agree, and that every change a search makes to its
tree keeps them in agreement. There are three such changes: a node gets its edges, an edge is
replaced by one that leads to the same nodes, and an edge gets a successor with a node of its own.

* `Tree.WellFormed`: the invariant, which a tree that has only its root satisfies.
* `Tree.edge?_setEdge`, `Tree.edge?_setNode_expand`, `Tree.edge?_grow`: the edges after a change.
* `Tree.WellFormed.of_keeps`: what a change has to respect.
* `Tree.WellFormed.setNode_expand`, `Tree.WellFormed.setEdge`, `Tree.WellFormed.grow`: the three
  changes respect it.
-/

namespace DurativePlanning

variable {α : Type}

/-! ### Where an edge leads -/

namespace Edge

/-- The key and the node of each successor met so far. -/
def links (e : Edge α) : List (ℕ × ℕ) := e.outcomes.map fun o => (o.key, o.child)

/-- The node to which an edge leads for the key of a state. -/
def child? (e : Edge α) (key : ℕ) : Option ℕ := (e.outcome? key).map (·.child)

/-- An edge with one more successor, met once. -/
def extend (e : Edge α) (key child : ℕ) : Edge α :=
  { e with outcomes := e.outcomes ++ [⟨key, child, 1⟩] }

/-- The keys of the links are those of the successors. -/
theorem map_fst_links (e : Edge α) : e.links.map Prod.fst = e.outcomes.map (·.key) := by
  rw [links, List.map_map]
  rfl

/-- A link belongs to a successor with its key and its node. -/
theorem mem_links {e : Edge α} {key child : ℕ} :
    (key, child) ∈ e.links ↔ ∃ o ∈ e.outcomes, o.key = key ∧ o.child = child := by
  simp [links]

/-- `extend` adds one link at the end. -/
theorem links_extend (e : Edge α) (key child : ℕ) :
    (e.extend key child).links = e.links ++ [(key, child)] := by
  simp [links, extend]

/-- The entry that `outcome?` finds is listed, with the key. -/
theorem mem_of_outcome? {e : Edge α} {key : ℕ} {o : OutcomeEntry} (h : e.outcome? key = some o) :
    o ∈ e.outcomes ∧ o.key = key :=
  ⟨List.mem_of_find?_eq_some h, by simpa using List.find?_some h⟩

/-- `outcome?` finds nothing when no successor has the key. -/
theorem outcome?_eq_none_iff {e : Edge α} {key : ℕ} :
    e.outcome? key = none ↔ key ∉ e.outcomes.map (·.key) := by
  simp [outcome?, List.find?_eq_none]

/-- With distinct keys the entry of a key is the only one. -/
theorem outcome?_of_mem {e : Edge α} (hdistinct : (e.outcomes.map (·.key)).Nodup)
    {o : OutcomeEntry} (ho : o ∈ e.outcomes) : e.outcome? o.key = some o := by
  cases hfound : e.outcome? o.key with
  | none => exact absurd (List.mem_map_of_mem ho) (outcome?_eq_none_iff.mp hfound)
  | some o' =>
      obtain ⟨ho', hkey⟩ := mem_of_outcome? hfound
      rw [List.inj_on_of_nodup_map hdistinct ho' ho hkey]

/-- With distinct keys an edge leads for a key to the node it is linked to. -/
theorem child?_eq_some_iff {e : Edge α} (hdistinct : (e.outcomes.map (·.key)).Nodup)
    {key child : ℕ} : e.child? key = some child ↔ (key, child) ∈ e.links := by
  rw [child?, Option.map_eq_some_iff, mem_links]
  constructor
  · rintro ⟨o, ho, rfl⟩
    obtain ⟨hmem, hkey⟩ := mem_of_outcome? ho
    exact ⟨o, hmem, hkey, rfl⟩
  · rintro ⟨o, ho, rfl, rfl⟩
    exact ⟨o, outcome?_of_mem hdistinct ho, rfl⟩

/-- `meet` counts the successor with the key once more. -/
theorem outcomes_meet (e : Edge α) (key : ℕ) : (e.meet key).outcomes =
    e.outcomes.map fun o => if o.key = key then { o with count := o.count + 1 } else o := rfl

/-- `meet` leaves the links of an edge as they are. -/
theorem links_meet (e : Edge α) (key : ℕ) : (e.meet key).links = e.links := by
  rw [links, outcomes_meet, List.map_map]
  refine List.map_congr_left fun o _ => ?_
  simp only [Function.comp_apply]
  split <;> rfl

/-- `meet` keeps counts positive. -/
theorem one_le_count_meet {e : Edge α} {key : ℕ} (h : ∀ o ∈ e.outcomes, 1 ≤ o.count) :
    ∀ o ∈ (e.meet key).outcomes, 1 ≤ o.count := by
  intro o ho
  obtain ⟨o', ho', rfl⟩ := List.mem_map.mp ho
  split
  · exact Nat.le_add_left _ _
  · exact h o' ho'

/-- `extend` keeps counts positive: the new successor was met once. -/
theorem one_le_count_extend {e : Edge α} (h : ∀ o ∈ e.outcomes, 1 ≤ o.count) (key child : ℕ) :
    ∀ o ∈ (e.extend key child).outcomes, 1 ≤ o.count := by
  intro o ho
  rcases List.mem_append.mp ho with ho | ho
  · exact h o ho
  · obtain rfl := List.mem_singleton.mp ho
    exact Nat.le_refl 1

/-- Keys stay distinct when a successor gets its first entry. -/
theorem nodup_extend {e : Edge α} {key : ℕ} (hdistinct : (e.outcomes.map (·.key)).Nodup)
    (hnone : e.outcome? key = none) (child : ℕ) :
    ((e.extend key child).outcomes.map (·.key)).Nodup := by
  rw [← map_fst_links, links_extend, List.map_append, map_fst_links]
  refine List.nodup_append.mpr ⟨hdistinct, List.nodup_singleton _, ?_⟩
  rintro x hx y hy rfl
  obtain rfl : x = key := List.mem_singleton.mp hy
  exact outcome?_eq_none_iff.mp hnone hx

/-- `enter?` accepts a successor that has no entry yet. -/
theorem enter?_of_outcome?_eq_none {e : Edge α} {key : ℕ} (h : e.outcome? key = none)
    (child : ℕ) : e.enter? key child = some (e.extend key child) := by
  simp [enter?, h, extend]

end Edge

/-! ### Nodes without their edges -/

/-- What of a node never changes: everything but its edges, as the leaf that it once was. -/
def Node.bare (n : Node α) : Node α := .leaf n.key n.depth n.parent n.terminal

theorem Node.key_eq_of_bare_eq {n n' : Node α} (h : n.bare = n'.bare) : n.key = n'.key :=
  (Node.mk.inj h).1

theorem Node.depth_eq_of_bare_eq {n n' : Node α} (h : n.bare = n'.bare) : n.depth = n'.depth :=
  (Node.mk.inj h).2.1

theorem Node.parent_eq_of_bare_eq {n n' : Node α} (h : n.bare = n'.bare) :
    n.parent = n'.parent :=
  (Node.mk.inj h).2.2.1

theorem Node.terminal_eq_of_bare_eq {n n' : Node α} (h : n.bare = n'.bare) :
    n.terminal = n'.terminal :=
  (Node.mk.inj h).2.2.2.2.1

namespace Tree

/-- The edge for an action of a node. -/
def edge? (t : Tree α) (i a : ℕ) : Option (Edge α) := (t.node? i).bind (·.edges[a]?)

/-- The tree in which an edge `e` for the action `a` of the node `n` with number `i` has got a
successor with a node of its own. -/
def grow (t : Tree α) (i : ℕ) (n : Node α) (a : ℕ) (e : Edge α) (key : ℕ) (terminal : Bool) :
    Tree α :=
  (t.push (.leaf key (n.depth + 1) (some (i, a)) terminal)).setEdge i n a (e.extend key t.size)

/-- **The invariant** of a search tree: the root begins the tree, every other node hangs from an
earlier one by an edge that leads to it, every edge leads to nodes that hang from it, with distinct
keys and positive counts, and a node that was expanded has an edge for each of its actions. -/
structure WellFormed (t : Tree α) : Prop where
  root : ∃ n, t.node? root = some n ∧ n.depth = 0 ∧ n.parent = none
  parent : ∀ {i n}, t.node? i = some n → i ≠ Tree.root → ∃ p a m e, n.parent = some (p, a) ∧ p < i ∧
    t.node? p = some m ∧ n.depth = m.depth + 1 ∧ t.edge? p a = some e ∧ e.child? n.key = some i
  child : ∀ {p a e}, t.edge? p a = some e → ∀ o ∈ e.outcomes,
    ∃ n, t.node? o.child = some n ∧ n.key = o.key ∧ n.parent = some (p, a)
  distinct : ∀ {p a e}, t.edge? p a = some e → (e.outcomes.map (·.key)).Nodup
  counted : ∀ {p a e}, t.edge? p a = some e → ∀ o ∈ e.outcomes, 1 ≤ o.count
  numbered : ∀ {p a e}, t.edge? p a = some e → e.action = a
  expanded : ∀ {p n}, t.node? p = some n → (n.expanded = true ↔ 0 < n.edges.size)

/-! ### Nodes and edges after a change -/

variable {t t' : Tree α} {i j a b : ℕ} {n n' : Node α} {e e' : Edge α}

/-- A node has a number below the size of the tree. -/
theorem lt_size_of_node? (h : t.node? i = some n) : i < t.size :=
  (Array.getElem?_eq_some_iff.mp h).1

/-- Each number below the size of the tree has a node. -/
theorem node?_of_lt_size (h : i < t.size) : ∃ n, t.node? i = some n :=
  ⟨_, Array.getElem?_eq_getElem h⟩

/-- `edge?` finds the edge at the position of the action among those of the node. -/
theorem edge?_eq_some_iff :
    t.edge? i a = some e ↔ ∃ n, t.node? i = some n ∧ n.edges[a]? = some e :=
  Option.bind_eq_some_iff

/-- `edge?` of a node that is there looks among its edges. -/
theorem edge?_of_node? (h : t.node? i = some n) (a : ℕ) : t.edge? i a = n.edges[a]? := by
  rw [edge?, h, Option.bind_some]

@[simp] theorem size_setNode (t : Tree α) (i : ℕ) (n : Node α) : (t.setNode i n).size = t.size :=
  Array.size_setIfInBounds

@[simp] theorem size_setEdge (t : Tree α) (i : ℕ) (n : Node α) (a : ℕ) (e : Edge α) :
    (t.setEdge i n a e).size = t.size :=
  size_setNode ..

@[simp] theorem size_push (t : Tree α) (n : Node α) : (t.push n).size = t.size + 1 :=
  Array.size_push n

@[simp] theorem size_grow (t : Tree α) (i : ℕ) (n : Node α) (a : ℕ) (e : Edge α) (key : ℕ)
    (terminal : Bool) : (t.grow i n a e key terminal).size = t.size + 1 := by
  simp [grow]

theorem node?_setNode (h : t.node? i = some n) (n' : Node α) (j : ℕ) :
    (t.setNode i n').node? j = if i = j then some n' else t.node? j := by
  have hlt : i < t.nodes.size := lt_size_of_node? h
  simp only [setNode, node?, Array.getElem?_setIfInBounds, if_pos hlt]

theorem node?_setNode_self (h : t.node? i = some n) (n' : Node α) :
    (t.setNode i n').node? i = some n' := by
  rw [node?_setNode h, if_pos rfl]

theorem node?_push (t : Tree α) (n : Node α) (j : ℕ) :
    (t.push n).node? j = if j = t.size then some n else t.node? j :=
  Array.getElem?_push

theorem node?_push_of_node? (h : t.node? i = some n) (n' : Node α) :
    (t.push n').node? i = some n := by
  rw [node?_push, if_neg (Nat.ne_of_lt (lt_size_of_node? h)), h]

/-- `expand` gives a node one edge for each action. -/
theorem getElem?_edges_expand [SearchArithmetic α] (h : n.expanded = false) (k : ℕ) :
    (n.expand k).edges[a]? = if a < k then some (Edge.ofAction a) else none := by
  by_cases ha : a < k
  · simp [Node.expand, h, ha]
  · simp [Node.expand, h, ha]

/-- `edge?` after a node has got its edges by `expand`. -/
theorem edge?_setNode_expand [SearchArithmetic α] (hn : t.node? i = some n)
    (hexpanded : n.expanded = false) (k p b : ℕ) :
    (t.setNode i (n.expand k)).edge? p b =
      if p = i then (if b < k then some (.ofAction b) else none) else t.edge? p b := by
  rw [edge?, node?_setNode hn]
  by_cases h : i = p
  · rw [if_pos h, if_pos h.symm, Option.bind_some, getElem?_edges_expand hexpanded]
  · rw [if_neg h, if_neg (Ne.symm h), edge?]

/-- `edge?` after an edge has been replaced. -/
theorem edge?_setEdge (hn : t.node? i = some n) (he : n.edges[a]? = some e) (e' : Edge α)
    (p b : ℕ) :
    (t.setEdge i n a e').edge? p b = if p = i ∧ b = a then some e' else t.edge? p b := by
  have hlt : a < n.edges.size := (Array.getElem?_eq_some_iff.mp he).1
  rw [setEdge, edge?, node?_setNode hn]
  by_cases hp : i = p
  · subst hp
    rw [if_pos rfl, Option.bind_some, Array.getElem?_setIfInBounds, if_pos hlt, edge?_of_node? hn]
    by_cases hb : a = b
    · rw [if_pos hb, if_pos ⟨rfl, hb.symm⟩]
    · rw [if_neg hb, if_neg fun h => hb h.2.symm]
  · rw [if_neg hp, if_neg fun h => hp h.1.symm, edge?]

/-- An edge that `edge?` finds after an edge has been replaced is an old one or the replacement. -/
theorem edge?_setEdge_cases (hn : t.node? i = some n) (he : n.edges[a]? = some e) {p : ℕ}
    {e₁ : Edge α} (he₁ : (t.setEdge i n a e').edge? p b = some e₁) :
    t.edge? p b = some e₁ ∨ p = i ∧ b = a ∧ e₁ = e' := by
  rw [edge?_setEdge hn he] at he₁
  split at he₁
  · next h => exact Or.inr ⟨h.1, h.2, (Option.some.inj he₁).symm⟩
  · exact Or.inl he₁

/-- `edge?` after a node without edges has been pushed: it adds none. -/
theorem edge?_push_leaf (t : Tree α) (key depth : ℕ) (parent : Option (ℕ × ℕ)) (terminal : Bool)
    (p b : ℕ) : (t.push (.leaf key depth parent terminal)).edge? p b = t.edge? p b := by
  rw [edge?, node?_push, edge?]
  split
  · next h =>
    have hnone : t.node? p = none := h ▸ Array.getElem?_size
    rw [hnone]
    rfl
  · rfl

/-- `edge?` after an edge has got a successor with a node of its own. -/
theorem edge?_grow (hn : t.node? i = some n) (he : n.edges[a]? = some e) (key : ℕ)
    (terminal : Bool) (p b : ℕ) : (t.grow i n a e key terminal).edge? p b =
      if p = i ∧ b = a then some (e.extend key t.size) else t.edge? p b := by
  rw [grow, edge?_setEdge (node?_push_of_node? hn _) he, edge?_push_leaf]

/-- An edge that `edge?` finds after an edge has got a successor is an old one or that edge. -/
theorem edge?_grow_cases (hn : t.node? i = some n) (he : n.edges[a]? = some e) {key : ℕ}
    {terminal : Bool} {p : ℕ} {e₁ : Edge α}
    (he₁ : (t.grow i n a e key terminal).edge? p b = some e₁) :
    t.edge? p b = some e₁ ∨ p = i ∧ b = a ∧ e₁ = e.extend key t.size := by
  have hcases := edge?_setEdge_cases (node?_push_of_node? hn _) he he₁
  rwa [edge?_push_leaf] at hcases

/-- `node?` after an edge has got a successor with a node of its own. -/
theorem node?_grow (hn : t.node? i = some n) (a : ℕ) (e : Edge α) (key : ℕ) (terminal : Bool)
    (j : ℕ) : (t.grow i n a e key terminal).node? j =
      if i = j then some { n with edges := n.edges.setIfInBounds a (e.extend key t.size) }
      else if j = t.size then some (.leaf key (n.depth + 1) (some (i, a)) terminal)
      else t.node? j := by
  rw [grow, setEdge, node?_setNode (node?_push_of_node? hn _), node?_push]

/-- The successor that an edge has got is the last node. -/
theorem node?_grow_size (hn : t.node? i = some n) (a : ℕ) (e : Edge α) (key : ℕ)
    (terminal : Bool) : (t.grow i n a e key terminal).node? t.size =
      some (.leaf key (n.depth + 1) (some (i, a)) terminal) := by
  rw [node?_grow hn, if_neg (Nat.ne_of_lt (lt_size_of_node? hn)), if_pos rfl]

/-! ### Changes that keep the invariant -/

/-- A node hangs from an edge that leads to it. -/
def Hangs (t : Tree α) (i : ℕ) (n : Node α) : Prop :=
  ∃ p a m e, n.parent = some (p, a) ∧ p < i ∧ t.node? p = some m ∧ n.depth = m.depth + 1 ∧
    t.edge? p a = some e ∧ (n.key, i) ∈ e.links

/-- An edge leads to a node that hangs from it. -/
def Holds (t : Tree α) (p a key child : ℕ) : Prop :=
  ∃ n, t.node? child = some n ∧ n.key = key ∧ n.parent = some (p, a)

/-- Every node of a tree is still there in another one, with the same key, depth and parent, as its
`bare` part says. -/
def Keeps (t t' : Tree α) : Prop :=
  ∀ ⦃j n⦄, t.node? j = some n → ∃ n', t'.node? j = some n' ∧ n'.bare = n.bare

/-- Every edge of a tree is still there in another one, and leads where it led. -/
def KeepsLinks (t t' : Tree α) : Prop :=
  ∀ ⦃p a e⦄, t.edge? p a = some e → ∃ e', t'.edge? p a = some e' ∧ e.links ⊆ e'.links

/-- **A change keeps the invariant** when it `Keeps` the nodes and `KeepsLinks`, and every node and
every link that is new agrees with its counterpart. -/
theorem WellFormed.of_keeps (ht : t.WellFormed) (hkeeps : Keeps t t') (hold : KeepsLinks t t')
    (hhangs : ∀ {j n'}, t'.node? j = some n' → (∃ n, t.node? j = some n) ∨ t'.Hangs j n')
    (hholds : ∀ {p a e'}, t'.edge? p a = some e' → ∀ key child, (key, child) ∈ e'.links →
      (∃ e, t.edge? p a = some e ∧ (key, child) ∈ e.links) ∨ t'.Holds p a key child)
    (hdistinct : ∀ {p a e'}, t'.edge? p a = some e' → (e'.outcomes.map (·.key)).Nodup)
    (hcounted : ∀ {p a e'}, t'.edge? p a = some e' → ∀ o ∈ e'.outcomes, 1 ≤ o.count)
    (hnumbered : ∀ {p a e'}, t'.edge? p a = some e' → e'.action = a)
    (hexpanded : ∀ {p n'}, t'.node? p = some n' → (n'.expanded = true ↔ 0 < n'.edges.size)) :
    t'.WellFormed := by
  refine ⟨?_, ?_, ?_, hdistinct, hcounted, hnumbered, hexpanded⟩
  · obtain ⟨n, hn, hdepth, hparent⟩ := ht.root
    obtain ⟨n', hn', hbare⟩ := hkeeps hn
    exact ⟨n', hn', (Node.depth_eq_of_bare_eq hbare).trans hdepth,
      (Node.parent_eq_of_bare_eq hbare).trans hparent⟩
  · intro j n' hn' hj
    have hhangs' : t'.Hangs j n' := by
      rcases hhangs hn' with ⟨n, hn⟩ | h
      · obtain ⟨n₁, hn₁, hbare⟩ := hkeeps hn
        obtain rfl : n₁ = n' := Option.some.inj (hn₁.symm.trans hn')
        obtain ⟨p, a, m, e, hparent, hlt, hm, hdepth, he, hchild⟩ := ht.parent hn hj
        obtain ⟨m', hm', hbare'⟩ := hkeeps hm
        obtain ⟨e', he', hlinks⟩ := hold he
        refine ⟨p, a, m', e', (Node.parent_eq_of_bare_eq hbare).trans hparent, hlt, hm', ?_, he',
          ?_⟩
        · rw [Node.depth_eq_of_bare_eq hbare, hdepth, Node.depth_eq_of_bare_eq hbare']
        · rw [Node.key_eq_of_bare_eq hbare]
          exact hlinks ((Edge.child?_eq_some_iff (ht.distinct he)).mp hchild)
      · exact h
    obtain ⟨p, a, m, e, hparent, hlt, hm, hdepth, he, hlink⟩ := hhangs'
    exact ⟨p, a, m, e, hparent, hlt, hm, hdepth, he,
      (Edge.child?_eq_some_iff (hdistinct he)).mpr hlink⟩
  · intro p a e' he' o ho
    rcases hholds he' o.key o.child (Edge.mem_links.mpr ⟨o, ho, rfl, rfl⟩) with ⟨e, he, hlink⟩ | h
    · obtain ⟨o', ho', hkey, hchild⟩ := Edge.mem_links.mp hlink
      obtain ⟨n, hn, hnkey, hparent⟩ := ht.child he o' ho'
      obtain ⟨n', hn', hbare⟩ := hkeeps hn
      refine ⟨n', hchild ▸ hn', ?_, (Node.parent_eq_of_bare_eq hbare).trans hparent⟩
      rw [Node.key_eq_of_bare_eq hbare, hnkey, hkey]
    · exact h

theorem Keeps.refl (t : Tree α) : Keeps t t := fun _ n hn => ⟨n, hn, rfl⟩

theorem Keeps.trans {t'' : Tree α} (h : Keeps t t') (h' : Keeps t' t'') : Keeps t t'' := by
  intro j n hn
  obtain ⟨n', hn', hbare⟩ := h hn
  obtain ⟨n'', hn'', hbare'⟩ := h' hn'
  exact ⟨n'', hn'', hbare'.trans hbare⟩

/-- A node may be replaced by one that differs in its edges only. -/
theorem keeps_setNode (hn : t.node? i = some n) (hbare : n'.bare = n.bare) :
    Keeps t (t.setNode i n') := by
  intro j m hm
  rw [node?_setNode hn]
  split
  · next h =>
    obtain rfl : n = m := Option.some.inj (hn.symm.trans (h ▸ hm))
    exact ⟨n', rfl, hbare⟩
  · exact ⟨m, hm, rfl⟩

theorem keeps_setEdge (hn : t.node? i = some n) (a : ℕ) (e' : Edge α) :
    Keeps t (t.setEdge i n a e') :=
  keeps_setNode hn rfl

/-- Giving a node its edges keeps the nodes. -/
theorem keeps_setNode_expand [SearchArithmetic α] (hn : t.node? i = some n) (k : ℕ) :
    Keeps t (t.setNode i (n.expand k)) := by
  refine keeps_setNode hn ?_
  rw [Node.expand]
  split <;> rfl

theorem keeps_grow (hn : t.node? i = some n) (a : ℕ) (e : Edge α) (key : ℕ) (terminal : Bool) :
    Keeps t (t.grow i n a e key terminal) := by
  intro j m hm
  exact keeps_setEdge (node?_push_of_node? hn _) a _ (node?_push_of_node? hm _)

theorem KeepsLinks.refl (t : Tree α) : KeepsLinks t t := fun _ _ e he => ⟨e, he, List.Subset.refl _⟩

theorem KeepsLinks.trans {t'' : Tree α} (h : KeepsLinks t t') (h' : KeepsLinks t' t'') :
    KeepsLinks t t'' := by
  intro p b e he
  obtain ⟨e', he', hlinks⟩ := h he
  obtain ⟨e'', he'', hlinks'⟩ := h' he'
  exact ⟨e'', he'', List.Subset.trans hlinks hlinks'⟩

/-- A node that was not expanded has no edges. -/
theorem WellFormed.edge?_of_not_expanded (ht : t.WellFormed) (hn : t.node? i = some n)
    (hexpanded : n.expanded = false) (b : ℕ) : t.edge? i b = none := by
  have hempty : ¬0 < n.edges.size := fun h => by
    simp [(ht.expanded hn).mpr h] at hexpanded
  rw [edge?_of_node? hn]
  exact Array.getElem?_eq_none (by omega)

/-- An old edge stays when a node gets its edges: it belongs to another node. -/
theorem WellFormed.edge?_setNode_expand_of_edge? [SearchArithmetic α] (ht : t.WellFormed)
    (hn : t.node? i = some n) (hexpanded : n.expanded = false) (k : ℕ) {p b : ℕ}
    (he : t.edge? p b = some e) : (t.setNode i (n.expand k)).edge? p b = some e := by
  rw [edge?_setNode_expand hn hexpanded]
  split
  · next h =>
    rw [h, ht.edge?_of_not_expanded hn hexpanded] at he
    exact absurd he (by simp)
  · exact he

/-- Giving a node its edges keeps the links. -/
theorem WellFormed.keepsLinks_setNode_expand [SearchArithmetic α] (ht : t.WellFormed)
    (hn : t.node? i = some n) (hexpanded : n.expanded = false) (k : ℕ) :
    KeepsLinks t (t.setNode i (n.expand k)) := fun _ _ e he =>
  ⟨e, ht.edge?_setNode_expand_of_edge? hn hexpanded k he, List.Subset.refl _⟩

/-- An edge may be replaced by one that leads wherever it led. -/
theorem keepsLinks_setEdge (hn : t.node? i = some n) (he : n.edges[a]? = some e)
    (hlinks : e.links ⊆ e'.links) : KeepsLinks t (t.setEdge i n a e') := by
  intro p b e₀ he₀
  rw [edge?_setEdge hn he]
  split
  · next h =>
    obtain ⟨rfl, rfl⟩ := h
    obtain rfl : e = e₀ := Option.some.inj (((edge?_of_node? hn b).trans he).symm.trans he₀)
    exact ⟨e', rfl, hlinks⟩
  · exact ⟨e₀, he₀, List.Subset.refl _⟩

/-- Giving a successor a node keeps the links, and adds one. -/
theorem keepsLinks_grow (hn : t.node? i = some n) (he : n.edges[a]? = some e) (key : ℕ)
    (terminal : Bool) : KeepsLinks t (t.grow i n a e key terminal) := by
  intro p b e₀ he₀
  have hlinks : e.links ⊆ (e.extend key t.size).links :=
    Edge.links_extend e key t.size ▸ List.subset_append_left _ _
  exact keepsLinks_setEdge (node?_push_of_node? hn _) he hlinks ((edge?_push_leaf ..).trans he₀)

/-- A tree of the same size has no node that the other lacks. -/
theorem exists_node?_of_size (hsize : t'.size = t.size) (hn' : t'.node? j = some n') :
    ∃ n, t.node? j = some n :=
  node?_of_lt_size (hsize ▸ lt_size_of_node? hn')

/-- **Giving a node its edges** by `expand` keeps the invariant. -/
theorem WellFormed.setNode_expand [SearchArithmetic α] (ht : t.WellFormed)
    (hn : t.node? i = some n) (hexpanded : n.expanded = false) {k : ℕ} (hk : k ≠ 0) :
    (t.setNode i (n.expand k)).WellFormed := by
  -- an edge afterwards is an old one, or a new one that leads nowhere
  have hedge : ∀ {p b e'}, (t.setNode i (n.expand k)).edge? p b = some e' →
      t.edge? p b = some e' ∨ e' = .ofAction b := by
    intro p b e' he'
    rw [edge?_setNode_expand hn hexpanded] at he'
    split at he'
    · split at he'
      · exact Or.inr (Option.some.inj he').symm
      · exact absurd he' (by simp)
    · exact Or.inl he'
  refine ht.of_keeps (keeps_setNode_expand hn k) (ht.keepsLinks_setNode_expand hn hexpanded k)
    (fun hn' => Or.inl (exists_node?_of_size (size_setNode ..) hn')) ?_ ?_ ?_ ?_ ?_
  · intro p b e' he' key child hlink
    rcases hedge he' with he | rfl
    · exact Or.inl ⟨e', he, hlink⟩
    · exact absurd hlink List.not_mem_nil
  · intro p b e' he'
    rcases hedge he' with he | rfl
    · exact ht.distinct he
    · exact List.nodup_nil
  · intro p b e' he'
    rcases hedge he' with he | rfl
    · exact ht.counted he
    · exact fun o ho => absurd ho List.not_mem_nil
  · intro p b e' he'
    rcases hedge he' with he | rfl
    · exact ht.numbered he
    · rfl
  · intro p n' hn'
    rw [node?_setNode hn] at hn'
    split at hn'
    · obtain rfl := Option.some.inj hn'
      simp [Node.expand, hexpanded, Nat.pos_of_ne_zero hk]
    · exact ht.expanded hn'

/-- The node of an edge that is replaced stays expanded. -/
theorem WellFormed.expanded_setEdge (ht : t.WellFormed) (hn : t.node? i = some n) (a : ℕ)
    (e' : Edge α) {p : ℕ} (hn' : (t.setEdge i n a e').node? p = some n') :
    n'.expanded = true ↔ 0 < n'.edges.size := by
  rw [Tree.setEdge, node?_setNode hn] at hn'
  split at hn'
  · obtain rfl := Option.some.inj hn'
    rw [Array.size_setIfInBounds]
    exact ht.expanded hn
  · exact ht.expanded hn'

/-- **Replacing an edge** by one with the same `links` keeps the invariant. -/
theorem WellFormed.setEdge (ht : t.WellFormed) (hn : t.node? i = some n)
    (he : n.edges[a]? = some e) (haction : e'.action = e.action) (hlinks : e'.links = e.links)
    (hcount : ∀ o ∈ e'.outcomes, 1 ≤ o.count) : (t.setEdge i n a e').WellFormed := by
  have hat : t.edge? i a = some e := (edge?_of_node? hn a).trans he
  refine ht.of_keeps (keeps_setEdge hn a e')
    (keepsLinks_setEdge hn he (hlinks ▸ List.Subset.refl _))
    (fun hn' => Or.inl (exists_node?_of_size (size_setEdge ..) hn')) ?_ ?_ ?_ ?_
    (fun hn' => ht.expanded_setEdge hn a e' hn')
  · intro p b e₁ he₁ key child hlink
    rcases edge?_setEdge_cases hn he he₁ with he₁ | ⟨rfl, rfl, rfl⟩
    · exact Or.inl ⟨e₁, he₁, hlink⟩
    · exact Or.inl ⟨e, hat, hlinks ▸ hlink⟩
  · intro p b e₁ he₁
    rcases edge?_setEdge_cases hn he he₁ with he₁ | ⟨rfl, rfl, rfl⟩
    · exact ht.distinct he₁
    · rw [← Edge.map_fst_links, hlinks, Edge.map_fst_links]
      exact ht.distinct hat
  · intro p b e₁ he₁
    rcases edge?_setEdge_cases hn he he₁ with he₁ | ⟨rfl, rfl, rfl⟩
    · exact ht.counted he₁
    · exact hcount
  · intro p b e₁ he₁
    rcases edge?_setEdge_cases hn he he₁ with he₁ | ⟨rfl, rfl, rfl⟩
    · exact ht.numbered he₁
    · exact haction.trans (ht.numbered hat)

/-- **Meeting a known successor** by `meet` keeps the invariant. -/
theorem WellFormed.setEdge_meet (ht : t.WellFormed) (hn : t.node? i = some n)
    (he : n.edges[a]? = some e) (key : ℕ) : (t.setEdge i n a (e.meet key)).WellFormed :=
  ht.setEdge hn he rfl (Edge.links_meet e key)
    (Edge.one_le_count_meet (ht.counted ((edge?_of_node? hn a).trans he)))

/-- **Meeting a successor for the first time**: `grow` keeps the invariant, since the new node hangs
from the edge that now leads to it. -/
theorem WellFormed.grow (ht : t.WellFormed) (hn : t.node? i = some n)
    (he : n.edges[a]? = some e) {key : ℕ} (hnone : e.outcome? key = none) (terminal : Bool) :
    (t.grow i n a e key terminal).WellFormed := by
  have hat : t.edge? i a = some e := (edge?_of_node? hn a).trans he
  have hat' : (t.grow i n a e key terminal).edge? i a = some (e.extend key t.size) := by
    rw [edge?_grow hn he, if_pos ⟨rfl, rfl⟩]
  have hlink : (key, t.size) ∈ (e.extend key t.size).links := by
    rw [Edge.links_extend]
    exact List.mem_append_right _ (List.mem_singleton_self _)
  have hnode := node?_grow_size hn a e key terminal
  refine ht.of_keeps (keeps_grow hn a e key terminal) (keepsLinks_grow hn he key terminal)
    ?_ ?_ ?_ ?_ ?_ ?_
  · intro j m hm
    by_cases hj : j = t.size
    · obtain rfl : Node.leaf key (n.depth + 1) (some (i, a)) terminal = m :=
        Option.some.inj (hnode.symm.trans (hj ▸ hm))
      obtain ⟨n', hn', hbare⟩ := keeps_grow hn a e key terminal hn
      refine Or.inr ⟨i, a, n', _, rfl, hj ▸ lt_size_of_node? hn, hn', ?_, hat', hj ▸ hlink⟩
      exact congrArg (· + 1) (Node.depth_eq_of_bare_eq hbare).symm
    · have hlt := lt_size_of_node? hm
      rw [size_grow] at hlt
      exact Or.inl (node?_of_lt_size (by omega))
  · intro p b e₁ he₁ key' child hlink'
    rcases edge?_grow_cases hn he he₁ with he₁ | ⟨rfl, rfl, rfl⟩
    · exact Or.inl ⟨e₁, he₁, hlink'⟩
    · rw [Edge.links_extend, List.mem_append, List.mem_singleton] at hlink'
      rcases hlink' with hlink' | hlink'
      · exact Or.inl ⟨e, hat, hlink'⟩
      · obtain ⟨rfl, rfl⟩ := Prod.mk.inj hlink'
        exact Or.inr ⟨_, hnode, rfl, rfl⟩
  · intro p b e₁ he₁
    rcases edge?_grow_cases hn he he₁ with he₁ | ⟨rfl, rfl, rfl⟩
    · exact ht.distinct he₁
    · exact Edge.nodup_extend (ht.distinct hat) hnone t.size
  · intro p b e₁ he₁
    rcases edge?_grow_cases hn he he₁ with he₁ | ⟨rfl, rfl, rfl⟩
    · exact ht.counted he₁
    · exact Edge.one_le_count_extend (ht.counted hat) key t.size
  · intro p b e₁ he₁
    rcases edge?_grow_cases hn he he₁ with he₁ | ⟨rfl, rfl, rfl⟩
    · exact ht.numbered he₁
    · exact (ht.numbered hat : e.action = b)
  · intro p m hm
    rw [Tree.grow, Tree.setEdge, node?_setNode (node?_push_of_node? hn _)] at hm
    split at hm
    · obtain rfl := Option.some.inj hm
      rw [Array.size_setIfInBounds]
      exact ht.expanded hn
    · rw [node?_push] at hm
      split at hm
      · obtain rfl := Option.some.inj hm
        simp [Node.leaf]
      · exact ht.expanded hm

/-- No edge leads to the root. -/
theorem WellFormed.child_ne_root (ht : t.WellFormed) (hat : t.edge? i a = some e)
    {o : OutcomeEntry} (ho : o ∈ e.outcomes) : o.child ≠ Tree.root := by
  obtain ⟨m, hm, -, hparent⟩ := ht.child hat o ho
  intro h
  obtain ⟨r, hr, -, hnone⟩ := ht.root
  obtain rfl : r = m := Option.some.inj (hr.symm.trans (h ▸ hm))
  rw [hparent] at hnone
  exact absurd hnone (by simp)

/-- A successor is one level below the node of its edge. -/
theorem WellFormed.exists_child (ht : t.WellFormed) (hn : t.node? i = some n)
    (hat : t.edge? i a = some e) {o : OutcomeEntry} (ho : o ∈ e.outcomes) :
    ∃ m, t.node? o.child = some m ∧ m.key = o.key ∧ m.parent = some (i, a) ∧
      m.depth = n.depth + 1 := by
  obtain ⟨m, hm, hkey, hparent⟩ := ht.child hat o ho
  obtain ⟨p, b, n', -, hparent', -, hn', hdepth, -⟩ := ht.parent hm (ht.child_ne_root hat ho)
  obtain ⟨rfl, rfl⟩ := Prod.mk.inj (Option.some.inj (hparent.symm.trans hparent'))
  obtain rfl : n = n' := Option.some.inj (hn.symm.trans hn')
  exact ⟨m, hm, hkey, hparent, hdepth⟩

/-- Different successors of an edge have different nodes. -/
theorem WellFormed.eq_of_child_eq (ht : t.WellFormed) {p : ℕ}
    (he : t.edge? p a = some e) {o o' : OutcomeEntry} (ho : o ∈ e.outcomes) (ho' : o' ∈ e.outcomes)
    (h : o'.child = o.child) : o' = o := by
  obtain ⟨n, hn, hkey, -⟩ := ht.child he o ho
  obtain ⟨n', hn', hkey', -⟩ := ht.child he o' ho'
  obtain rfl : n = n' := Option.some.inj (hn.symm.trans (h ▸ hn'))
  exact List.inj_on_of_nodup_map (ht.distinct he) ho' ho (hkey'.symm.trans hkey)

/-- The edges of a node are numbered in order: their actions are `List.range`. -/
theorem WellFormed.map_action_eq_range (ht : t.WellFormed) {i : ℕ} {n : Node α}
    (hn : t.node? i = some n) : n.edges.toList.map (·.action) = List.range n.edges.size := by
  refine List.ext_getElem (by simp) fun a ha _ => ?_
  rw [List.length_map, Array.length_toList] at ha
  have hat : t.edge? i a = some n.edges[a] :=
    (edge?_of_node? hn a).trans (Array.getElem?_eq_getElem ha)
  rw [List.getElem_map, Array.getElem_toList, ht.numbered hat, List.getElem_range]

/-- A tree that has only its root has no edge. -/
theorem edge?_ofRoot (key : ℕ) (terminal : Bool) (p b : ℕ) :
    (ofRoot key terminal : Tree α).edge? p b = none := by
  rw [edge?, Option.bind_eq_none_iff]
  intro m hm
  have hlt : p < 1 := lt_size_of_node? hm
  obtain rfl : p = 0 := by omega
  obtain rfl := Option.some.inj hm
  rfl

/-- A tree that has only its root has no other node. -/
theorem eq_of_node?_ofRoot {key : ℕ} {terminal : Bool} {m : Node α}
    (hm : (ofRoot key terminal : Tree α).node? i = some m) :
    i = 0 ∧ m = .leaf key 0 none terminal := by
  have hlt : i < 1 := lt_size_of_node? hm
  obtain rfl : i = 0 := by omega
  exact ⟨rfl, (Option.some.inj hm).symm⟩

/-- A tree that has only its root is `WellFormed`. -/
theorem wellFormed_ofRoot (key : ℕ) (terminal : Bool) :
    (ofRoot key terminal : Tree α).WellFormed := by
  refine ⟨⟨_, rfl, rfl, rfl⟩, fun hm hj => absurd (eq_of_node?_ofRoot hm).1 hj, ?_, ?_, ?_, ?_, ?_⟩
  · intro p b e he
    exact absurd ((edge?_ofRoot key terminal p _).symm.trans he) (by simp)
  · intro p b e he
    exact absurd ((edge?_ofRoot key terminal p _).symm.trans he) (by simp)
  · intro p b e he
    exact absurd ((edge?_ofRoot key terminal p _).symm.trans he) (by simp)
  · intro p b e he
    exact absurd ((edge?_ofRoot key terminal p _).symm.trans he) (by simp)
  · intro p m hm
    obtain ⟨rfl, rfl⟩ := eq_of_node?_ofRoot hm
    simp [Node.leaf]

end Tree

end DurativePlanning
