import DurativePlanning.Proofs.Search.Shape
import DurativePlanning.Search.Descent

/-!
# What a Descent Does to the Tree

Whatever its environment answers, a descent is a walk: it gives nodes their edges, follows edges to
nodes that are known, and may end by adding one node. This module says so once, as a relation
between the tree before and the tree after that no longer mentions the environment. What later
modules need to know of a descent is derived from the relation by induction on the walk.

* `Tree.Walk`: the walks.
* `Tree.descend_walk`: every descent of a well-formed tree succeeds, and is a walk.
* `Tree.Walk.wellFormed`, `Tree.Walk.keeps`: a walk keeps the shape and the nodes of the tree.
* `Tree.Walk.exists_leaf`, `Tree.Walk.nodup`: a walk goes down, so that it takes no edge twice.
-/

namespace DurativePlanning

variable {σ α : Type} [SearchArithmetic α]

/-! ### Selection -/

/-- `firstBest` gives one of the edges listed, or the fallback. -/
theorem Node.firstBest_lt {visits : ℕ} {c : α} {selection : Selection} {bound : ℕ}
    {l : List (Edge α)} {position fallback : ℕ} {top : Option (Score α)}
    (hfallback : fallback < bound) (hposition : position + l.length ≤ bound) :
    Node.firstBest visits c selection position fallback top l < bound := by
  induction l generalizing position fallback top with
  | nil => exact hfallback
  | cons e rest ih =>
      rw [List.length_cons] at hposition
      rw [firstBest]
      split
      · exact ih (by omega) (by omega)
      · exact ih hfallback (by omega)

/-- **A node with edges selects one of them**: `select` gives a position that has an edge. -/
theorem Node.exists_select {n : Node α} (h : 0 < n.edges.size) (c : α) (selection : Selection) :
    ∃ a e, n.select c selection = some a ∧ n.edges[a]? = some e := by
  have hne : n.edges.isEmpty = false := by
    rw [Array.isEmpty_eq_false_iff]
    exact Array.ne_empty_of_size_pos h
  have hlt : firstBest n.visits c selection 0 0 none n.edges.toList < n.edges.size :=
    firstBest_lt h (by simp)
  refine ⟨_, _, ?_, Array.getElem?_eq_getElem hlt⟩
  simp [select, hne]

namespace Tree

variable {t t' : Tree α} {i a leaf : ℕ} {n : Node α} {e : Edge α} {path : List (ℕ × ℕ)}

/-! ### The cases of a descent -/

section Cases

variable {env : Environment σ α} {c : α} {selection : Selection} {levels current : ℕ}
  {reward : α} {s : σ}

/-- A descent ends at a terminal node. -/
theorem descendFrom_of_terminal (hn : t.node? current = some n) (hterminal : n.terminal = true) :
    descendFrom env c selection levels current path reward t s =
      (.ok ⟨path, current, false, reward⟩, t, s) := by
  rw [descendFrom]
  simp only [hn, hterminal, if_true]

/-- A descent ends where no levels are left. -/
theorem descendFrom_zero (hn : t.node? current = some n) :
    descendFrom env c selection 0 current path reward t s =
      (.ok ⟨path, current, false, reward⟩, t, s) := by
  rw [descendFrom]
  simp only [hn]
  split <;> rfl

/-- `descendFrom` ends at a node whose state offers no action. -/
theorem descendFrom_of_no_action (hn : t.node? current = some n) (hterminal : n.terminal = false)
    (hexpanded : n.expanded = false) (hcount : (env.actionCount n.key s).1 = 0) :
    descendFrom env c selection (levels + 1) current path reward t s =
      (.ok ⟨path, current, false, reward⟩, t, (env.actionCount n.key s).2) := by
  rw [descendFrom]
  simp only [hn, hterminal, expandNode, hexpanded, hcount, if_true, Bool.false_eq_true, if_false]

/-- At a node without edges a descent goes on as if the node had had its edges before. -/
theorem descendFrom_of_unexpanded (hn : t.node? current = some n) (hterminal : n.terminal = false)
    (hexpanded : n.expanded = false) (hcount : (env.actionCount n.key s).1 ≠ 0) :
    descendFrom env c selection (levels + 1) current path reward t s =
      descendFrom env c selection (levels + 1) current path reward
        (t.setNode current (n.expand (env.actionCount n.key s).1)) (env.actionCount n.key s).2 := by
  have hn' := node?_setNode_self hn (n.expand (env.actionCount n.key s).1)
  have hkey : (n.expand (env.actionCount n.key s).1).key = n.key := by simp [Node.expand, hexpanded]
  have hterminal' : (n.expand (env.actionCount n.key s).1).terminal = false := by
    simp [Node.expand, hexpanded, hterminal]
  have hexpanded' : (n.expand (env.actionCount n.key s).1).expanded = true := by
    simp [Node.expand, hexpanded]
  rw [descendFrom, descendFrom]
  simp only [hn, hn', hterminal, hterminal', expandNode, hexpanded, hexpanded', hcount, if_true,
    Bool.false_eq_true, if_false]

/-- From a node with edges a descent follows the selected edge to a node that is known. -/
theorem descendFrom_of_known (hn : t.node? current = some n) (hterminal : n.terminal = false)
    (hexpanded : n.expanded = true) (hselect : n.select c selection = some a)
    (he : n.edges[a]? = some e) {known : OutcomeEntry}
    (hknown : e.outcome? (env.step n.key a s).1.next = some known) :
    descendFrom env c selection (levels + 1) current path reward t s =
      descendFrom env c selection levels known.child (path ++ [(current, a)])
        (reward + (env.step n.key a s).1.reward)
        (t.setEdge current n a (e.meet (env.step n.key a s).1.next)) (env.step n.key a s).2 := by
  rw [descendFrom]
  simp only [hn, hterminal, expandNode, hexpanded, if_true, Bool.false_eq_true, if_false, hselect,
    he, hknown]

/-- From a node with edges a descent ends at a successor that it meets for the first time, for
which it adds a node. -/
theorem descendFrom_of_new (hn : t.node? current = some n) (hterminal : n.terminal = false)
    (hexpanded : n.expanded = true) (hselect : n.select c selection = some a)
    (he : n.edges[a]? = some e) (hnew : e.outcome? (env.step n.key a s).1.next = none) :
    descendFrom env c selection (levels + 1) current path reward t s =
      (.ok ⟨path ++ [(current, a)], t.size, true, reward + (env.step n.key a s).1.reward⟩,
        t.grow current n a e (env.step n.key a s).1.next (env.step n.key a s).1.terminal,
        (env.step n.key a s).2) := by
  rw [descendFrom]
  simp only [hn, hterminal, expandNode, hexpanded, if_true, Bool.false_eq_true, if_false, hselect,
    he, hnew, addChild, Edge.enter?_of_outcome?_eq_none hnew]
  rfl

end Cases

/-! ### Walks -/

/-- **A walk** from a node: the tree before, the node, the edges taken, the node where the walk
ends, and the tree after. -/
inductive Walk : Tree α → ℕ → List (ℕ × ℕ) → ℕ → Tree α → Prop
  /-- The walk ends at its first node. -/
  | rest (t : Tree α) (i : ℕ) : Walk t i [] i t
  /-- A node gets its edges before the walk goes on. -/
  | expand {t t' : Tree α} {i : ℕ} {n : Node α} {k : ℕ} {path : List (ℕ × ℕ)} {leaf : ℕ} :
      t.node? i = some n → n.expanded = false → k ≠ 0 →
        Walk (t.setNode i (n.expand k)) i path leaf t' → Walk t i path leaf t'
  /-- An edge is followed to a node that is known. -/
  | meet {t t' : Tree α} {i : ℕ} {n : Node α} {a : ℕ} {e : Edge α} {o : OutcomeEntry}
      {path : List (ℕ × ℕ)} {leaf : ℕ} :
      t.node? i = some n → n.edges[a]? = some e → o ∈ e.outcomes →
        Walk (t.setEdge i n a (e.meet o.key)) o.child path leaf t' →
          Walk t i ((i, a) :: path) leaf t'
  /-- An edge gets a successor with a node of its own, where the walk ends. -/
  | enter {t : Tree α} {i : ℕ} {n : Node α} {a : ℕ} {e : Edge α} {key : ℕ} {terminal : Bool} :
      t.node? i = some n → n.edges[a]? = some e → e.outcome? key = none →
        Walk t i [(i, a)] t.size (t.grow i n a e key terminal)

/-- A descent from a node succeeds, and walks on by `steps`. -/
def Follows (env : Environment σ α) (c : α) (selection : Selection) (levels i : ℕ)
    (path : List (ℕ × ℕ)) (reward : α) (t : Tree α) (s : σ) (steps : List (ℕ × ℕ)) : Prop :=
  ∃ d t' s', descendFrom env c selection levels i path reward t s = (.ok d, t', s') ∧
    d.path = path ++ steps ∧ Walk t i steps d.leaf t'

/-- A node that has its edges is left by the selected one, when descents with fewer levels are
walks. -/
theorem exists_follows_of_expanded {env : Environment σ α} {c : α} {selection : Selection}
    {levels : ℕ} {reward : α} {s : σ} (ht : t.WellFormed) (hn : t.node? i = some n)
    (hterminal : n.terminal = false) (hexpanded : n.expanded = true)
    (hfewer : ∀ {t : Tree α} {i : ℕ} {n : Node α} (path : List (ℕ × ℕ)) (reward : α) (s : σ),
      t.WellFormed → t.node? i = some n →
        ∃ steps, Follows env c selection levels i path reward t s steps) :
    ∃ steps, Follows env c selection (levels + 1) i path reward t s steps ∧ steps ≠ [] := by
  obtain ⟨a, e, hselect, he⟩ := Node.exists_select ((ht.expanded hn).mp hexpanded) c selection
  have hat : t.edge? i a = some e := (edge?_of_node? hn a).trans he
  cases hfound : e.outcome? (env.step n.key a s).1.next with
  | none =>
      exact ⟨[(i, a)], ⟨_, _, _, descendFrom_of_new hn hterminal hexpanded hselect he hfound, rfl,
        .enter hn he hfound⟩, List.cons_ne_nil _ _⟩
  | some o =>
      obtain ⟨ho, hkey⟩ := Edge.mem_of_outcome? hfound
      obtain ⟨m, hm, -⟩ := ht.child hat o ho
      obtain ⟨m', hm', -⟩ := keeps_setEdge hn a (e.meet o.key) hm
      obtain ⟨steps, d, t', s', hd, hpath, hwalk⟩ := hfewer (path ++ [(i, a)])
        (reward + (env.step n.key a s).1.reward) (env.step n.key a s).2
        (ht.setEdge_meet hn he o.key) hm'
      refine ⟨(i, a) :: steps, ⟨d, t', s', ?_, ?_, .meet hn he ho hwalk⟩, List.cons_ne_nil _ _⟩
      · rw [descendFrom_of_known hn hterminal hexpanded hselect he hfound, ← hkey]
        exact hd
      · rw [hpath, List.append_assoc]
        rfl

/-- **Every descent is a walk**, and none fails: `Follows` holds of some steps. It takes an edge
whenever it may: when the node is not terminal, levels are left, and the node has its edges or is
offered some. -/
theorem exists_follows (env : Environment σ α) (c : α) (selection : Selection) (levels : ℕ)
    (path : List (ℕ × ℕ)) (reward : α) (s : σ) (ht : t.WellFormed) (hn : t.node? i = some n) :
    ∃ steps, Follows env c selection levels i path reward t s steps ∧
      (n.terminal = false → levels ≠ 0 →
        (n.expanded = true ∨ (env.actionCount n.key s).1 ≠ 0) → steps ≠ []) := by
  induction levels generalizing t i n path reward s with
  | zero =>
      exact ⟨[], ⟨_, t, s, descendFrom_zero hn, (List.append_nil _).symm, .rest t i⟩,
        fun _ h => absurd rfl h⟩
  | succ levels ih =>
      have hfewer : ∀ {t : Tree α} {i : ℕ} {n : Node α} (path : List (ℕ × ℕ)) (reward : α) (s : σ),
          t.WellFormed → t.node? i = some n →
            ∃ steps, Follows env c selection levels i path reward t s steps := by
        intro t i n path reward s ht hn
        obtain ⟨steps, hfollows, -⟩ := ih path reward s ht hn
        exact ⟨steps, hfollows⟩
      cases hterminal : n.terminal with
      | true =>
          exact ⟨[], ⟨_, t, s, descendFrom_of_terminal hn hterminal, (List.append_nil _).symm,
            .rest t i⟩, fun h => absurd h (by simp)⟩
      | false =>
          cases hexpanded : n.expanded with
          | true =>
              obtain ⟨steps, hfollows, hne⟩ :=
                exists_follows_of_expanded ht hn hterminal hexpanded hfewer
              exact ⟨steps, hfollows, fun _ _ _ => hne⟩
          | false =>
              by_cases hcount : (env.actionCount n.key s).1 = 0
              · exact ⟨[], ⟨_, t, _, descendFrom_of_no_action hn hterminal hexpanded hcount,
                  (List.append_nil _).symm, .rest t i⟩,
                  fun _ _ h => absurd hcount (h.resolve_left (by simp))⟩
              · have hn' := node?_setNode_self hn (n.expand (env.actionCount n.key s).1)
                obtain ⟨steps, ⟨d, t', s', hd, hpath, hwalk⟩, hne⟩ := exists_follows_of_expanded
                  (ht.setNode_expand hn hexpanded hcount) hn'
                  (by simp [Node.expand, hexpanded, hterminal]) (by simp [Node.expand, hexpanded])
                  hfewer
                exact ⟨steps, ⟨d, t', s',
                  (descendFrom_of_unexpanded hn hterminal hexpanded hcount).trans hd, hpath,
                  .expand hn hexpanded hcount hwalk⟩, fun _ _ _ => hne⟩

/-- **Every descent succeeds**, and is a `Walk` from the root. -/
theorem descend_walk (ht : t.WellFormed) (env : Environment σ α) (c : α) (selection : Selection)
    (maxDepth : ℕ) (s : σ) :
    ∃ d t' s', t.descend env c selection maxDepth s = (.ok d, t', s') ∧
      Walk t root d.path d.leaf t' ∧
      ∀ {n}, t.node? root = some n → n.terminal = false → maxDepth ≠ 0 →
        (n.expanded = true ∨ (env.actionCount n.key s).1 ≠ 0) → d.path ≠ [] := by
  obtain ⟨n, hn, -⟩ := ht.root
  obtain ⟨steps, ⟨d, t', s', hd, hpath, hwalk⟩, hne⟩ :=
    exists_follows env c selection maxDepth [] 0 s ht hn
  rw [List.nil_append] at hpath
  subst hpath
  refine ⟨d, t', s', hd, hwalk, fun {m} hm => ?_⟩
  obtain rfl : n = m := Option.some.inj (hn.symm.trans hm)
  exact hne

/-! ### What a walk keeps -/

/-- A walk keeps a tree `WellFormed`. -/
theorem Walk.wellFormed (hwalk : Walk t i path leaf t') (ht : t.WellFormed) : t'.WellFormed := by
  induction hwalk with
  | rest => exact ht
  | expand hn hexpanded hk _ ih => exact ih (ht.setNode_expand hn hexpanded hk)
  | meet hn he _ _ ih => exact ih (ht.setEdge_meet hn he _)
  | enter hn he hnone => exact ht.grow hn he hnone _

/-- A walk `Keeps` the nodes of the tree. -/
theorem Walk.keeps (hwalk : Walk t i path leaf t') : Keeps t t' := by
  induction hwalk with
  | rest => exact .refl _
  | expand hn _ _ _ ih => exact (keeps_setNode_expand hn _).trans ih
  | meet hn _ _ _ ih => exact (keeps_setEdge hn _ _).trans ih
  | enter hn _ _ => exact keeps_grow hn _ _ _ _

/-- A walk `KeepsLinks`: the edges of the tree are still there, and lead where they led. -/
theorem Walk.keepsLinks (hwalk : Walk t i path leaf t') (ht : t.WellFormed) : KeepsLinks t t' := by
  induction hwalk with
  | rest => exact .refl _
  | expand hn hexpanded hk _ ih =>
      exact (ht.keepsLinks_setNode_expand hn hexpanded _).trans
        (ih (ht.setNode_expand hn hexpanded hk))
  | @meet t t' i n a e o _ _ hn he _ _ ih =>
      have hlinks : e.links ⊆ (e.meet o.key).links := Edge.links_meet e o.key ▸ List.Subset.refl _
      exact (keepsLinks_setEdge hn he hlinks).trans (ih (ht.setEdge_meet hn he _))
  | enter hn he _ => exact keepsLinks_grow hn he _ _

/-! ### A walk goes down -/

/-- **The length of a walk** is the depth of its last node below its first one. -/
theorem Walk.exists_leaf (hwalk : Walk t i path leaf t') (ht : t.WellFormed)
    (hn : t.node? i = some n) :
    ∃ m, t'.node? leaf = some m ∧ m.depth = n.depth + path.length := by
  induction hwalk generalizing n with
  | rest => exact ⟨n, hn, rfl⟩
  | expand hn₁ hexpanded hk _ ih =>
      obtain ⟨n', hn', hbare⟩ := keeps_setNode_expand hn₁ _ hn
      obtain ⟨m, hm, hdepth⟩ := ih (ht.setNode_expand hn₁ hexpanded hk) hn'
      exact ⟨m, hm, by rw [hdepth, Node.depth_eq_of_bare_eq hbare]⟩
  | @meet t t' i n₁ a e o path leaf hn₁ he ho _ ih =>
      have hat : t.edge? i a = some e := (edge?_of_node? hn₁ a).trans he
      obtain ⟨m, hm, -, -, hmdepth⟩ := ht.exists_child hn hat ho
      obtain ⟨m', hm', hbare⟩ := keeps_setEdge hn₁ a (e.meet o.key) hm
      obtain ⟨l, hl, hldepth⟩ := ih (ht.setEdge_meet hn₁ he o.key) hm'
      refine ⟨l, hl, ?_⟩
      rw [hldepth, Node.depth_eq_of_bare_eq hbare, hmdepth, List.length_cons]
      omega
  | @enter t i n₁ a e key terminal hn₁ _ _ =>
      obtain rfl : n₁ = n := Option.some.inj (hn₁.symm.trans hn)
      exact ⟨_, node?_grow_size hn₁ a e key terminal, rfl⟩

/-- The nodes on a walk are not above its first node. -/
theorem Walk.depth_le (hwalk : Walk t i path leaf t') (ht : t.WellFormed)
    (hn : t.node? i = some n) :
    ∀ x ∈ path, ∃ m, t'.node? x.1 = some m ∧ n.depth ≤ m.depth := by
  induction hwalk generalizing n with
  | rest => exact fun x hx => absurd hx List.not_mem_nil
  | expand hn₁ hexpanded hk _ ih =>
      obtain ⟨n', hn', hbare⟩ := keeps_setNode_expand hn₁ _ hn
      rw [← Node.depth_eq_of_bare_eq hbare]
      exact ih (ht.setNode_expand hn₁ hexpanded hk) hn'
  | @meet t t' i n₁ a e o path leaf hn₁ he ho hwalk ih =>
      have hat : t.edge? i a = some e := (edge?_of_node? hn₁ a).trans he
      obtain ⟨m, hm, -, -, hmdepth⟩ := ht.exists_child hn hat ho
      obtain ⟨m', hm', hbare⟩ := keeps_setEdge hn₁ a (e.meet o.key) hm
      rw [List.forall_mem_cons]
      refine ⟨?_, fun x hx => ?_⟩
      · obtain ⟨n', hn', hbare'⟩ := (keeps_setEdge hn₁ a _).trans hwalk.keeps hn
        exact ⟨n', hn', Nat.le_of_eq (Node.depth_eq_of_bare_eq hbare').symm⟩
      · obtain ⟨l, hl, hle⟩ := ih (ht.setEdge_meet hn₁ he o.key) hm' x hx
        rw [Node.depth_eq_of_bare_eq hbare, hmdepth] at hle
        exact ⟨l, hl, by omega⟩
  | enter hn₁ _ _ =>
      intro x hx
      obtain rfl := List.mem_singleton.mp hx
      obtain ⟨n', hn', hbare⟩ := keeps_grow hn₁ _ _ _ _ hn
      exact ⟨n', hn', Nat.le_of_eq (Node.depth_eq_of_bare_eq hbare).symm⟩

/-- **A walk leaves no node twice**: every edge leads one level down, by `Walk.depth_le`. -/
theorem Walk.nodup (hwalk : Walk t i path leaf t') (ht : t.WellFormed) :
    (path.map Prod.fst).Nodup := by
  induction hwalk with
  | rest => exact List.nodup_nil
  | expand hn hexpanded hk _ ih => exact ih (ht.setNode_expand hn hexpanded hk)
  | @meet t t' i n a e o path leaf hn he ho hwalk ih =>
      have ht' := ht.setEdge_meet hn he o.key
      rw [List.map_cons, List.nodup_cons]
      refine ⟨fun hmem => ?_, ih ht'⟩
      -- the rest of the walk begins one level below the node, and so does not come back to it
      obtain ⟨x, hx, hxi⟩ := List.mem_map.mp hmem
      have hat : t.edge? i a = some e := (edge?_of_node? hn a).trans he
      obtain ⟨m, hm, -, -, hmdepth⟩ := ht.exists_child hn hat ho
      obtain ⟨m', hm', hbare⟩ := keeps_setEdge hn a (e.meet o.key) hm
      obtain ⟨l, hl, hle⟩ := hwalk.depth_le ht' hm' x hx
      obtain ⟨n', hn', hbare'⟩ := (keeps_setEdge hn a (e.meet o.key)).trans hwalk.keeps hn
      obtain rfl : l = n' := Option.some.inj (hl.symm.trans (hxi ▸ hn'))
      rw [Node.depth_eq_of_bare_eq hbare, hmdepth, Node.depth_eq_of_bare_eq hbare'] at hle
      omega
  | enter => exact List.nodup_singleton _

/-- The edges of a walk are edges of the tree. -/
theorem Walk.exists_edge? (hwalk : Walk t i path leaf t') (ht : t.WellFormed) :
    ∀ x ∈ path, ∃ e, t'.edge? x.1 x.2 = some e := by
  induction hwalk with
  | rest => exact fun x hx => absurd hx List.not_mem_nil
  | expand hn hexpanded hk _ ih => exact ih (ht.setNode_expand hn hexpanded hk)
  | @meet t t' i n a e o path leaf hn he ho hwalk ih =>
      have ht' := ht.setEdge_meet hn he o.key
      have hat : (t.setEdge i n a (e.meet o.key)).edge? i a = some (e.meet o.key) := by
        rw [edge?_setEdge hn he, if_pos ⟨rfl, rfl⟩]
      obtain ⟨e', he', -⟩ := hwalk.keepsLinks ht' hat
      exact List.forall_mem_cons.mpr ⟨⟨e', he'⟩, ih ht'⟩
  | enter hn he _ =>
      intro x hx
      obtain rfl := List.mem_singleton.mp hx
      exact ⟨_, by rw [edge?_grow hn he, if_pos ⟨rfl, rfl⟩]⟩

end Tree

end DurativePlanning
