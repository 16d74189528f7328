import DurativePlanning.Proofs.Search.Shift

/-!
# Crediting Edges With What Comes After Them

A search adds the return of a whole iteration to every edge of its path, the rewards before the edge
included. A variant of it credits each edge only with the rewards from the edge on. When the reward
of a step is determined by the two states and the action, the rewards before a node are the same in
every iteration that comes to the node, so that the two differ at all edges of a node by one and the
same number. Both then select the same edges for ever.

* `Tree.iterateOnward`: one iteration of the variant.
* `Tree.Earned`: the reward that is earned on the way to a node.
* `Tree.Above`: a tree whose returns are those of another one, raised at each node by what was
  earned on the way to it.
* `Tree.SameChoice.grow`, `Tree.SameChoice.follow`, `Tree.GoTogether.expand`,
  `Tree.GoTogether.rest`: one lemma for each kind of step of two descents that go along together.
* `Tree.Above.exists_descendFrom`: descents in both trees go along together.
* `Tree.Above.backpropagate`: backing up keeps the trees apart by the same numbers.
* `Tree.search_whole_onward`: the two searches compared.
-/

namespace DurativePlanning

variable {σ α : Type}

/-- An environment that also keeps the rewards of its steps, in order, in its hidden state. -/
def Environment.recording (env : Environment σ α) : Environment (σ × List α) α where
  actionCount state s := ((env.actionCount state s.1).1, (env.actionCount state s.1).2, s.2)
  step state action s := ((env.step state action s.1).1, (env.step state action s.1).2,
    s.2 ++ [(env.step state action s.1).1.reward])
  choose state available s := ((env.choose state available s.1).1,
    (env.choose state available s.1).2, s.2)

namespace Tree

/-! ### The variant -/

section Variant

variable [SearchArithmetic α]

/-- The return from some rewards on, when `estimated` comes after them. -/
def returnFrom (estimated : α) (rewards : List α) : α := rewards.foldr (· + ·) estimated

/-- Credits each edge of a path by `backpropagate` with the rewards from the edge on. -/
def creditOnward (t : Tree α) (estimated : α) :
    List (ℕ × ℕ) → (rewards : List α) → Except TreeError Unit × Tree α
  | [], _ => (.ok (), t)
  | step :: rest, rewards =>
    match t.backpropagate (returnFrom estimated rewards) [step] with
    | (.error cause, t) => (.error cause, t)
    | (.ok (), t) => creditOnward t estimated rest rewards.tail

/-- **One iteration of the variant**: the same descent and the same estimate, with the rewards of
the descent kept for crediting. -/
def iterateOnward (t : Tree α) (env : Environment σ α) (config : SearchConfig α) (s : σ) :
    Except TreeError (Iteration α) × Tree α × σ :=
  match t.descend env.recording config.c config.selection config.maxDepth (s, []) with
  | (.error cause, t, s, _) => (.error cause, t, s)
  | (.ok d, t, s, rewards) =>
    match t.node? d.leaf with
    | none => (.error (.missingNode d.leaf), t, s)
    | some leaf =>
      match estimate env config leaf s with
      | (.error cause, s) => (.error cause, t, s)
      | (.ok estimated, s) =>
        match t.creditOnward estimated d.path rewards with
        | (.error cause, t) => (.error cause, t, s)
        | (.ok (), t) =>
          (.ok ⟨d.leaf, d.path.length, d.reward, estimated, d.reward + estimated⟩, t, s)

/-- One iteration, with what it did. -/
def stepWhole (env : Environment σ α) (config : SearchConfig α) (t : Tree α) (s : σ) :
    Visit α × Tree α × σ :=
  (t.visit env config s, (t.iterate env config s).2)

/-- One iteration of the variant, with what it did. -/
def stepOnward (env : Environment σ α) (config : SearchConfig α) (t : Tree α) (s : σ) :
    Visit α × Tree α × σ :=
  (⟨(t.descend env.recording config.c config.selection config.maxDepth (s, [])).1,
    (t.iterateOnward env config s).1⟩, (t.iterateOnward env config s).2)

/-- **A search**: iterations in order, each with settings of its own, with what each of them did.
An iteration that fails is followed by the next one all the same. -/
def search (step : SearchConfig α → Tree α → σ → Visit α × Tree α × σ) :
    List (SearchConfig α) → Tree α → σ → List (Visit α) × Tree α × σ
  | [], t, s => ([], t, s)
  | config :: rest, t, s =>
    let (v, t, s) := step config t s
    let (log, t, s) := search step rest t s
    (v :: log, t, s)

end Variant

variable {K : Type} [Field K]

/-! ### What is earned on the way -/

/-- The **reward that is earned on the way** to a node, when a step earns `reward` of the state, the
action and the next state. -/
inductive Earned (reward : ℕ → ℕ → ℕ → K) (t : Tree K) : ℕ → K → Prop
  | root : Earned reward t Tree.root 0
  | child {p a i : ℕ} {m n : Node K} {x : K} :
      Earned reward t p x → t.node? p = some m → t.node? i = some n → n.parent = some (p, a) →
        Earned reward t i (x + reward m.key a n.key)

variable {reward : ℕ → ℕ → ℕ → K} {t t' u : Tree K} {i a : ℕ} {n n' : Node K} {x : K}

/-- What was earned on the way to a node stays as the tree grows. -/
theorem Earned.keeps (h : Earned reward t i x) (hkeeps : Keeps t t') : Earned reward t' i x := by
  induction h with
  | root => exact .root
  | child _ hm hn hparent ih =>
      obtain ⟨m', hm', hbare⟩ := hkeeps hm
      obtain ⟨n', hn', hbare'⟩ := hkeeps hn
      rw [← Node.key_eq_of_bare_eq hbare, ← Node.key_eq_of_bare_eq hbare']
      exact .child ih hm' hn' ((Node.parent_eq_of_bare_eq hbare').trans hparent)

/-- What was earned on the way to an old node was so before the tree grew. -/
theorem Earned.of_keeps (h : Earned reward t' i x) (ht : t.WellFormed) (hkeeps : Keeps t t')
    (hn : t.node? i = some n) : Earned reward t i x := by
  induction h generalizing n with
  | root => exact .root
  | @child p a i m₁ n₁ x _ hm₁ hn₁ hparent₁ ih =>
      obtain ⟨n₂, hn₂, hbare⟩ := hkeeps hn
      obtain rfl : n₂ = n₁ := Option.some.inj (hn₂.symm.trans hn₁)
      have hparent : n.parent = some (p, a) := (Node.parent_eq_of_bare_eq hbare).symm.trans hparent₁
      have hi : i ≠ Tree.root := by
        rintro rfl
        obtain ⟨n₀, hn₀, -, hnone⟩ := ht.root
        obtain rfl : n₀ = n := Option.some.inj (hn₀.symm.trans hn)
        exact absurd (hnone.symm.trans hparent) (by simp)
      obtain ⟨p', a', m, -, hparent', -, hm, -⟩ := ht.parent hn hi
      obtain ⟨rfl, rfl⟩ : p' = p ∧ a' = a :=
        Prod.mk.inj (Option.some.inj (hparent'.symm.trans hparent))
      obtain ⟨m₂, hm₂, hbare'⟩ := hkeeps hm
      obtain rfl : m₂ = m₁ := Option.some.inj (hm₂.symm.trans hm₁)
      rw [Node.key_eq_of_bare_eq hbare, Node.key_eq_of_bare_eq hbare']
      exact .child (ih hm) hm hn hparent

/-- What is `Earned` on the way to a node is determined by the tree. -/
theorem Earned.unique {y : K} (h : Earned reward t i x) (h' : Earned reward t i y)
    (ht : t.WellFormed) : x = y := by
  have hroot : ∀ {n p a}, t.node? Tree.root = some n → n.parent ≠ some (p, a) := by
    intro n p a hn hparent
    obtain ⟨n₀, hn₀, -, hnone⟩ := ht.root
    obtain rfl : n₀ = n := Option.some.inj (hn₀.symm.trans hn)
    exact absurd (hnone.symm.trans hparent) (by simp)
  induction h generalizing y with
  | root =>
      cases h' with
      | root => rfl
      | child _ _ hn hparent => exact absurd hparent (hroot hn)
  | child _ hm hn hparent ih =>
      cases h' with
      | root => exact absurd hparent (hroot hn)
      | child hx' hm' hn' hparent' =>
          obtain rfl := Option.some.inj (hn.symm.trans hn')
          obtain ⟨rfl, rfl⟩ := Prod.mk.inj (Option.some.inj (hparent.symm.trans hparent'))
          obtain rfl := Option.some.inj (hm.symm.trans hm')
          rw [ih hx']

/-- **Something is `Earned` on the way to every node**: by induction along the parents. -/
theorem WellFormed.exists_earned (ht : t.WellFormed) (reward : ℕ → ℕ → ℕ → K)
    (hn : t.node? i = some n) : ∃ x, Earned reward t i x := by
  induction i using Nat.strong_induction_on generalizing n with
  | _ i ih =>
      by_cases hi : i = Tree.root
      · exact ⟨0, hi ▸ .root⟩
      · obtain ⟨p, a, m, -, hparent, hlt, hm, -⟩ := ht.parent hn hi
        obtain ⟨x, hx⟩ := ih p hlt hm
        exact ⟨_, .child hx hm hn hparent⟩

variable [LinearOrder K] [IsStrictOrderedRing K] [FloorSemiring K] [Elementary K]

/-! ### Trees with raised returns -/

/-- A tree whose returns are those of another one, **raised at each node** by what was `Earned` on
the way to it. -/
structure Above (reward : ℕ → ℕ → ℕ → K) (t u : Tree K) : Prop where
  size : u.size = t.size
  node : ∀ {i : ℕ} {n n' : Node K} {x : K}, t.node? i = some n → u.node? i = some n' →
    Earned reward t i x → n.Above x n'

namespace Above

/-- Each node of the one tree has its counterpart in the other. -/
theorem exists_node (h : Above reward t u) (hn : t.node? i = some n) :
    ∃ n', u.node? i = some n' :=
  node?_of_lt_size (h.size.symm ▸ lt_size_of_node? hn)

/-- Where the one tree has no node the other has none. -/
theorem node?_eq_none (h : Above reward t u) (hn : t.node? i = none) : u.node? i = none := by
  rw [node?, Array.getElem?_eq_none_iff] at hn ⊢
  exact h.size.trans_le hn

/-- A node is replaced in both trees. -/
theorem setNode (h : Above reward t u) (ht : t.WellFormed) (hn : t.node? i = some n)
    (hn' : u.node? i = some n') {m m' : Node K} (hbare : m.bare = n.bare)
    (hm : ∀ x, Earned reward t i x → n.Above x n' → m.Above x m') :
    Above reward (t.setNode i m) (u.setNode i m') := by
  refine ⟨by simpa using h.size, ?_⟩
  intro j k k' x hk hk' hx
  obtain ⟨k₀, hk₀⟩ := exists_node?_of_size (size_setNode ..) hk
  have hx₀ : Earned reward t j x := hx.of_keeps ht (keeps_setNode hn hbare) hk₀
  rw [node?_setNode hn] at hk
  rw [node?_setNode hn'] at hk'
  by_cases hij : i = j
  · subst hij
    rw [if_pos rfl] at hk hk'
    obtain rfl := Option.some.inj hk
    obtain rfl := Option.some.inj hk'
    exact hm x hx₀ (h.node hn hn' hx₀)
  · rw [if_neg hij] at hk hk'
    exact h.node hk hk' hx₀

/-- An edge is replaced in both trees. -/
theorem setEdge (h : Above reward t u) (ht : t.WellFormed) (hn : t.node? i = some n)
    (hn' : u.node? i = some n') {e e' : Edge K} (he : ∀ x, Earned reward t i x → e.Above x e')
    (a : ℕ) : Above reward (t.setEdge i n a e) (u.setEdge i n' a e') :=
  h.setNode ht hn hn' rfl fun x hx hnode => hnode.setEdge (he x hx) a

/-- A node gets its edges by `expand` in both trees. -/
theorem setNode_expand (h : Above reward t u) (ht : t.WellFormed) (hn : t.node? i = some n)
    (hn' : u.node? i = some n') (hexpanded : n.expanded = false) (k : ℕ) :
    Above reward (t.setNode i (n.expand k)) (u.setNode i (n'.expand k)) := by
  refine h.setNode ht hn hn' ?_ fun x _ hnode => hnode.expand hexpanded k
  rw [Node.expand]
  split <;> rfl

/-- An edge gets a successor with a node of its own in both trees. -/
theorem grow (h : Above reward t u) (ht : t.WellFormed) (hn : t.node? i = some n)
    (hn' : u.node? i = some n') {e e' : Edge K} (hdepth : n'.depth = n.depth)
    (he : ∀ x, Earned reward t i x → e.Above x e') (a key : ℕ) (terminal : Bool) :
    Above reward (t.grow i n a e key terminal) (u.grow i n' a e' key terminal) := by
  refine ⟨by simpa using h.size, ?_⟩
  intro j k k' x hk hk' hx
  rw [node?_grow hn] at hk
  rw [node?_grow hn', h.size] at hk'
  have hold : ∀ {k₀}, t.node? j = some k₀ → Earned reward t j x := fun hk₀ =>
    hx.of_keeps ht (keeps_grow hn a e key terminal) hk₀
  by_cases hij : i = j
  · subst hij
    rw [if_pos rfl] at hk hk'
    obtain rfl := Option.some.inj hk
    obtain rfl := Option.some.inj hk'
    exact (h.node hn hn' (hold hn)).setEdge ((he x (hold hn)).extend key t.size) a
  · rw [if_neg hij] at hk hk'
    by_cases hj : j = t.size
    · rw [if_pos hj] at hk hk'
      rw [hdepth] at hk'
      obtain rfl := Option.some.inj hk
      obtain rfl := Option.some.inj hk'
      exact .leaf x ..
    · rw [if_neg hj] at hk hk'
      exact h.node hk hk' (hold hk)

end Above

/-! ### Descents -/

/-- The rewards of a path from a node on, with the reward earned on the way to each node that is
left. -/
inductive Passes (reward : ℕ → ℕ → ℕ → K) (t : Tree K) : K → List (ℕ × ℕ) → List K → Prop
  | nil (x : K) : Passes reward t x [] []
  | cons {x y : K} {p a : ℕ} {path : List (ℕ × ℕ)} {rewards : List K} :
      Earned reward t p x → Passes reward t (x + y) path rewards →
        Passes reward t x ((p, a) :: path) (y :: rewards)

omit [LinearOrder K] [IsStrictOrderedRing K] [FloorSemiring K] [Elementary K] in
/-- The rewards of a path stay as the tree grows. -/
theorem Passes.keeps {path : List (ℕ × ℕ)} {rewards : List K}
    (h : Passes reward t x path rewards) (hkeeps : Keeps t t') :
    Passes reward t' x path rewards := by
  induction h with
  | nil x => exact .nil x
  | cons hx _ ih => exact .cons (hx.keeps hkeeps) ih

/-- Two descents **go along together**: they take the same edges to the same leaf with the same
rewards, and leave trees of which one is `Above` the other again. -/
def GoTogether (reward : ℕ → ℕ → ℕ → K) (env : Environment σ K) (c : K) (selection : Selection)
    (levels i : ℕ) (path : List (ℕ × ℕ)) (total : K) (t u : Tree K) (s : σ) (before : List K)
    (x : K) : Prop :=
  ∃ steps rewards leaf isNew t' u' s',
    descendFrom env c selection levels i path total t s =
      (.ok ⟨path ++ steps, leaf, isNew, total + rewards.sum⟩, t', s') ∧
    descendFrom env.recording c selection levels i path total u (s, before) =
      (.ok ⟨path ++ steps, leaf, isNew, total + rewards.sum⟩, u', s', before ++ rewards) ∧
    t'.WellFormed ∧ Keeps t t' ∧ Above reward t' u' ∧ Passes reward t' x steps rewards ∧
    leaf < t'.size

section Descent

variable {env : Environment σ K} {c : K} {selection : Selection} {levels : ℕ}

/-- A descent that stops where it is. -/
theorem GoTogether.rest {path : List (ℕ × ℕ)} {total : K} {s s' : σ} {before : List K}
    (ht : t.WellFormed) (h : Above reward t u) (hn : t.node? i = some n)
    (hwhole : descendFrom env c selection levels i path total t s =
      (.ok ⟨path, i, false, total⟩, t, s'))
    (honward : descendFrom env.recording c selection levels i path total u (s, before) =
      (.ok ⟨path, i, false, total⟩, u, s', before)) (x : K) :
    GoTogether reward env c selection levels i path total t u s before x := by
  refine ⟨[], [], i, false, t, u, s', ?_, ?_, ht, .refl t, h, .nil x, lt_size_of_node? hn⟩
  · rw [hwhole, List.append_nil, List.sum_nil, add_zero]
  · rw [honward, List.append_nil, List.append_nil, List.sum_nil, add_zero]

/-- The nodes at one position of both trees **choose the same edge**, and what the two edges know
differs by what was earned on the way to the node. -/
structure SameChoice (reward : ℕ → ℕ → ℕ → K) (c : K) (selection : Selection) (t u : Tree K)
    (i a : ℕ) (n n' : Node K) (e e' : Edge K) : Prop where
  node : t.node? i = some n
  node' : u.node? i = some n'
  bare : n'.bare = n.bare
  terminal : n.terminal = false
  expanded : n.expanded = true
  expanded' : n'.expanded = true
  select : n.select c selection = some a
  select' : n'.select c selection = some a
  edge : n.edges[a]? = some e
  edge' : n'.edges[a]? = some e'
  above : ∀ x, Earned reward t i x → e.Above x e'

/-- Raising the returns of a node by one amount does not change which edge it chooses. -/
theorem Above.exists_sameChoice (h : Above reward t u) (ht : t.WellFormed)
    (hn : t.node? i = some n) (hn' : u.node? i = some n') (hx : Earned reward t i x)
    (hterminal : n.terminal = false) (hexpanded : n.expanded = true) (c : K)
    (selection : Selection) :
    ∃ a e e', SameChoice reward c selection t u i a n n' e e' := by
  have hnode := h.node hn hn' hx
  obtain ⟨a, e, hselect, he⟩ := Node.exists_select ((ht.expanded hn).mp hexpanded) c selection
  obtain ⟨e', he', -⟩ := hnode.exists_edge he
  exact ⟨a, e, e', hn, hn', hnode.bare, hterminal, hexpanded, hnode.expanded.trans hexpanded,
    hselect, (hnode.select_eq c selection).trans hselect, he, he',
    fun x hx => (h.node hn hn' hx).edge he he'⟩

namespace SameChoice

variable {e e' : Edge K}

theorem key (h : SameChoice reward c selection t u i a n n' e e') : n'.key = n.key :=
  Node.key_eq_of_bare_eq h.bare

theorem terminal' (h : SameChoice reward c selection t u i a n n' e e') : n'.terminal = false :=
  (Node.terminal_eq_of_bare_eq h.bare).trans h.terminal

/-- Both edges know the same successors, also of the step that is recorded. -/
theorem outcome?_eq (h : SameChoice reward c selection t u i a n n' e e')
    (hx : Earned reward t i x) (s : σ) (before : List K) :
    e'.outcome? (env.recording.step n'.key a (s, before)).1.next =
      e.outcome? (env.step n.key a s).1.next := by
  rw [(h.above x hx).outcome?_eq, h.key]
  rfl

/-- **A step to a successor that is met for the first time**: both descents end at a node of its
own. -/
theorem grow (hchoice : SameChoice reward c selection t u i a n n' e e') (ht : t.WellFormed)
    (h : Above reward t u) (hx : Earned reward t i x) {s : σ}
    (hfound : e.outcome? (env.step n.key a s).1.next = none) (path : List (ℕ × ℕ)) (total : K)
    (before : List K) :
    GoTogether reward env c selection (levels + 1) i path total t u s before x := by
  have hkey := hchoice.key
  have hfound' := (hchoice.outcome?_eq hx s before).trans hfound
  have hkeeps := keeps_grow hchoice.node a e (env.step n.key a s).1.next
    (env.step n.key a s).1.terminal
  refine ⟨[(i, a)], [(env.step n.key a s).1.reward], t.size, true,
    t.grow i n a e (env.step n.key a s).1.next (env.step n.key a s).1.terminal,
    u.grow i n' a e' (env.step n.key a s).1.next (env.step n.key a s).1.terminal,
    (env.step n.key a s).2, ?_, ?_, ht.grow hchoice.node hchoice.edge hfound _, hkeeps,
    h.grow ht hchoice.node hchoice.node' (Node.depth_eq_of_bare_eq hchoice.bare) hchoice.above a _ _,
    .cons (hx.keeps hkeeps) (.nil _), by simp⟩
  · rw [List.sum_singleton]
    exact descendFrom_of_new hchoice.node hchoice.terminal hchoice.expanded hchoice.select
      hchoice.edge hfound
  · rw [List.sum_singleton, ← hkey, ← h.size]
    exact descendFrom_of_new hchoice.node' hchoice.terminal' hchoice.expanded' hchoice.select'
      hchoice.edge' hfound'

/-- **A step to a successor that is known**: both descents go on from its node, with one more reward
earned on the way. -/
theorem follow (hchoice : SameChoice reward c selection t u i a n n' e e') (hx : Earned reward t i x)
    {s : σ} {o : OutcomeEntry} (hfound : e.outcome? (env.step n.key a s).1.next = some o)
    {path : List (ℕ × ℕ)} {total : K} {before : List K}
    (hrest : GoTogether reward env c selection levels o.child (path ++ [(i, a)])
      (total + (env.step n.key a s).1.reward) (t.setEdge i n a (e.meet o.key))
      (u.setEdge i n' a (e'.meet o.key)) (env.step n.key a s).2
      (before ++ [(env.step n.key a s).1.reward]) (x + (env.step n.key a s).1.reward)) :
    GoTogether reward env c selection (levels + 1) i path total t u s before x := by
  have hkey := hchoice.key
  have hfound' := (hchoice.outcome?_eq hx s before).trans hfound
  have hnext := (Edge.mem_of_outcome? hfound).2
  have hkeeps := keeps_setEdge hchoice.node a (e.meet o.key)
  obtain ⟨steps, rewards, leaf, isNew, t', u', s', hwhole, honward, ht', hkeeps', habove', hpasses,
    hleaf⟩ := hrest
  refine ⟨(i, a) :: steps, (env.step n.key a s).1.reward :: rewards, leaf, isNew, t', u', s',
    ?_, ?_, ht', hkeeps.trans hkeeps', habove', .cons (hx.keeps (hkeeps.trans hkeeps')) hpasses,
    hleaf⟩
  · rw [descendFrom_of_known hchoice.node hchoice.terminal hchoice.expanded hchoice.select
      hchoice.edge hfound, ← hnext, hwhole, List.append_assoc, add_assoc, List.sum_cons]
    rfl
  · have hpath : path ++ (i, a) :: steps = path ++ [(i, a)] ++ steps := by
      rw [List.append_assoc]
      rfl
    have hbefore : before ++ (env.step n.key a s).1.reward :: rewards =
        before ++ [(env.step n.key a s).1.reward] ++ rewards := by
      rw [List.append_assoc]
      rfl
    rw [descendFrom_of_known hchoice.node' hchoice.terminal' hchoice.expanded' hchoice.select'
      hchoice.edge' hfound', hkey, List.sum_cons, ← add_assoc, hpath, hbefore, ← honward, hnext]
    rfl

end SameChoice

/-- From a node that has its edges two descents go along together, when descents with fewer levels
do. -/
theorem goTogether_of_expanded
    (hreward : ∀ state a s, (env.step state a s).1.reward =
      reward state a (env.step state a s).1.next)
    (path : List (ℕ × ℕ)) (total : K) (s : σ) (before : List K) (ht : t.WellFormed)
    (h : Above reward t u) (hn : t.node? i = some n) (hn' : u.node? i = some n')
    (hx : Earned reward t i x) (hterminal : n.terminal = false) (hexpanded : n.expanded = true)
    (hfewer : ∀ {t u : Tree K} {i : ℕ} {n : Node K} {x : K} (path : List (ℕ × ℕ)) (total : K)
      (s : σ) (before : List K), t.WellFormed → Above reward t u → t.node? i = some n →
        Earned reward t i x → GoTogether reward env c selection levels i path total t u s before x) :
    GoTogether reward env c selection (levels + 1) i path total t u s before x := by
  obtain ⟨a, e, e', hchoice⟩ := h.exists_sameChoice ht hn hn' hx hterminal hexpanded c selection
  cases hfound : e.outcome? (env.step n.key a s).1.next with
  | none => exact hchoice.grow ht h hx hfound path total before
  | some o =>
      obtain ⟨ho, hnext⟩ := Edge.mem_of_outcome? hfound
      obtain ⟨m, hm, hmkey, hparent⟩ := ht.child ((edge?_of_node? hn a).trans hchoice.edge) o ho
      -- the reward of the step is what the child has earned more than its parent
      have hearned : Earned reward t o.child (x + (env.step n.key a s).1.reward) := by
        rw [hreward, ← hnext, ← hmkey]
        exact .child hx hn hm hparent
      have hkeeps := keeps_setEdge hn a (e.meet o.key)
      have habove : Above reward (t.setEdge i n a (e.meet o.key))
          (u.setEdge i n' a (e'.meet o.key)) :=
        h.setEdge ht hn hn' (fun x hx => (hchoice.above x hx).meet o.key) a
      obtain ⟨m', hm', -⟩ := hkeeps hm
      exact hchoice.follow hx hfound (hfewer _ _ _ _ (ht.setEdge_meet hn hchoice.edge o.key) habove
        hm' (hearned.keeps hkeeps))

/-- **A node that gets its edges first**: both descents go along together when they do so from the
node with its edges. -/
theorem GoTogether.expand (hn : t.node? i = some n) (hn' : u.node? i = some n')
    (hbare : n'.bare = n.bare) (hterminal : n.terminal = false) (hexpanded : n.expanded = false)
    (hexpanded' : n'.expanded = false) {s : σ} (hcount : (env.actionCount n.key s).1 ≠ 0)
    {path : List (ℕ × ℕ)} {total : K} {before : List K}
    (hrest : GoTogether reward env c selection (levels + 1) i path total
      (t.setNode i (n.expand (env.actionCount n.key s).1))
      (u.setNode i (n'.expand (env.actionCount n.key s).1)) (env.actionCount n.key s).2 before x) :
    GoTogether reward env c selection (levels + 1) i path total t u s before x := by
  have hkey : n'.key = n.key := Node.key_eq_of_bare_eq hbare
  have hterminal' := (Node.terminal_eq_of_bare_eq hbare).trans hterminal
  have hcount' : (env.recording.actionCount n'.key (s, before)).1 ≠ 0 := by
    rw [hkey]
    exact hcount
  obtain ⟨steps, rewards, leaf, isNew, t', u', s', hwhole, honward, ht', hkeeps', hrest⟩ := hrest
  refine ⟨steps, rewards, leaf, isNew, t', u', s', ?_, ?_, ht',
    (keeps_setNode_expand hn _).trans hkeeps', hrest⟩
  · rw [descendFrom_of_unexpanded hn hterminal hexpanded hcount, hwhole]
  · rw [descendFrom_of_unexpanded hn' hterminal' hexpanded' hcount', ← honward, hkey]
    rfl

/-- **Descents in both trees go along together**, by induction on the levels. -/
theorem Above.exists_descendFrom
    (hreward : ∀ state a s, (env.step state a s).1.reward =
      reward state a (env.step state a s).1.next)
    (levels : ℕ) (path : List (ℕ × ℕ)) (total : K) (s : σ) (before : List K) (ht : t.WellFormed)
    (h : Above reward t u) (hn : t.node? i = some n) (hx : Earned reward t i x) :
    GoTogether reward env c selection levels i path total t u s before x := by
  induction levels generalizing t u i n x path total s before with
  | zero =>
      obtain ⟨n', hn'⟩ := h.exists_node hn
      exact .rest ht h hn (descendFrom_zero hn) (descendFrom_zero hn') x
  | succ levels ih =>
      have hfewer : ∀ {t u : Tree K} {i : ℕ} {n : Node K} {x : K} (path : List (ℕ × ℕ)) (total : K)
          (s : σ) (before : List K), t.WellFormed → Above reward t u → t.node? i = some n →
            Earned reward t i x →
              GoTogether reward env c selection levels i path total t u s before x :=
        fun path total s before ht h hn hx => ih path total s before ht h hn hx
      obtain ⟨n', hn'⟩ := h.exists_node hn
      have hnode := h.node hn hn' hx
      have hkey : n'.key = n.key := Node.key_eq_of_bare_eq hnode.bare
      cases hterminal : n.terminal with
      | true =>
          have hterminal' := (Node.terminal_eq_of_bare_eq hnode.bare).trans hterminal
          exact .rest ht h hn (descendFrom_of_terminal hn hterminal)
            (descendFrom_of_terminal hn' hterminal') x
      | false =>
          have hterminal' := (Node.terminal_eq_of_bare_eq hnode.bare).trans hterminal
          cases hexpanded : n.expanded with
          | true =>
              exact goTogether_of_expanded hreward path total s before ht h hn hn' hx hterminal
                hexpanded hfewer
          | false =>
              have hexpanded' := hnode.expanded.trans hexpanded
              by_cases hcount : (env.actionCount n.key s).1 = 0
              · have hcount' : (env.recording.actionCount n'.key (s, before)).1 = 0 := by
                  rw [hkey]
                  exact hcount
                refine .rest ht h hn (descendFrom_of_no_action hn hterminal hexpanded hcount) ?_ x
                rw [descendFrom_of_no_action hn' hterminal' hexpanded' hcount', hkey]
                rfl
              · have hkeeps := keeps_setNode_expand hn (env.actionCount n.key s).1
                refine .expand hn hn' hnode.bare hterminal hexpanded hexpanded' hcount ?_
                exact goTogether_of_expanded hreward path total (env.actionCount n.key s).2 before
                  (ht.setNode_expand hn hexpanded hcount)
                  (h.setNode_expand ht hn hn' hexpanded (env.actionCount n.key s).1)
                  (node?_setNode_self hn _) (node?_setNode_self hn' _) (hx.keeps hkeeps)
                  (by simp [Node.expand, hexpanded, hterminal]) (by simp [Node.expand, hexpanded])
                  hfewer

end Descent

/-! ### Backing up -/

/-- The return from some edge on is the sum of its rewards and the estimate. -/
theorem returnFrom_eq (estimated : K) (rewards : List K) :
    returnFrom estimated rewards = rewards.sum + estimated := by
  induction rewards with
  | nil => exact (zero_add estimated).symm
  | cons y rest ih =>
      rw [returnFrom, List.foldr_cons, List.sum_cons, add_assoc, ← ih]
      rfl

/-- **Backing up keeps the trees apart** by the same numbers: `creditOnward` in the one and
`backpropagate` in the other, when the return of the whole iteration is what was earned on the way
together with the return from the first edge on. -/
theorem Above.backpropagate {path : List (ℕ × ℕ)} {rewards : List K} {total estimated : K}
    (h : Above reward t u) (ht : t.WellFormed) (hpasses : Passes reward t x path rewards)
    (htotal : total = x + returnFrom estimated rewards) :
    (u.creditOnward estimated path rewards).1 = (t.backpropagate total path).1 ∧
      Above reward (t.backpropagate total path).2 (u.creditOnward estimated path rewards).2 := by
  induction path generalizing t u x rewards with
  | nil => exact ⟨rfl, h⟩
  | cons step rest ih =>
      obtain ⟨p, a⟩ := step
      cases hpasses with
      | @cons _ y _ _ _ rewards hx hrest =>
          cases hn : t.node? p with
          | none =>
              have hn' := h.node?_eq_none hn
              simp only [creditOnward, Tree.backpropagate, hn, hn']
              exact ⟨trivial, h⟩
          | some n =>
              obtain ⟨n', hn'⟩ := h.exists_node hn
              have hnode := h.node hn hn' hx
              cases he : n.edges[a]? with
              | none =>
                  have he' := hnode.getElem?_eq_none he
                  simp only [creditOnward, Tree.backpropagate, hn, hn', he, he']
                  exact ⟨trivial, h⟩
              | some e =>
                  obtain ⟨e', he', hedge⟩ := hnode.exists_edge he
                  have hrecord : Above reward (t.setEdge p n a (e.record total))
                      (u.setEdge p n' a (e'.record (returnFrom estimated (y :: rewards)))) := by
                    refine h.setEdge ht hn hn' (fun x' hx' => ?_) a
                    obtain rfl : x = x' := hx.unique hx' ht
                    rw [htotal]
                    exact hedge.record _
                  have hwell : (t.setEdge p n a (e.record total)).WellFormed :=
                    ht.setEdge hn he rfl rfl (ht.counted (e := e) ((edge?_of_node? hn a).trans he))
                  simp only [creditOnward, Tree.backpropagate, hn, hn', he, he']
                  refine ih hrecord hwell (hrest.keeps (keeps_setEdge hn a _)) ?_
                  rw [htotal, returnFrom, List.foldr_cons, ← add_assoc]
                  rfl

/-! ### Iterations and searches -/

section Search

variable {env : Environment σ K}

/-- **One iteration in both trees**: `stepOnward` and `stepWhole` do the same, and leave trees of
which one is raised. -/
theorem Above.step
    (hreward : ∀ state a s, (env.step state a s).1.reward =
      reward state a (env.step state a s).1.next)
    (h : Above reward t u) (ht : t.WellFormed) (config : SearchConfig K) (s : σ) :
    (stepOnward env config u s).1 = (stepWhole env config t s).1 ∧
      (stepOnward env config u s).2.2 = (stepWhole env config t s).2.2 ∧
      Above reward (stepWhole env config t s).2.1 (stepOnward env config u s).2.1 := by
  obtain ⟨n, hn, -⟩ := ht.root
  have htogether : GoTogether reward env config.c config.selection config.maxDepth Tree.root [] 0
      t u s [] 0 :=
    Above.exists_descendFrom hreward config.maxDepth [] 0 s [] ht h hn .root
  obtain ⟨path, rewards, leaf, isNew, t', u', s', hwhole, honward, ht', -, habove, hpasses, hleaf⟩ :=
    htogether
  rw [List.nil_append, zero_add] at hwhole honward
  obtain ⟨m, hm⟩ := node?_of_lt_size hleaf
  obtain ⟨m', hm'⟩ := habove.exists_node hm
  obtain ⟨x, hx⟩ := ht'.exists_earned reward hm
  have hbare := (habove.node hm hm' hx).bare
  -- the estimate looks at the leaf without its edges
  have hestimate : estimate env config m' s' = estimate env config m s' := by
    rw [estimate, estimate, Node.terminal_eq_of_bare_eq hbare, Node.depth_eq_of_bare_eq hbare,
      Node.key_eq_of_bare_eq hbare]
  have hdescend : t.descend env config.c config.selection config.maxDepth s =
      (.ok ⟨path, leaf, isNew, rewards.sum⟩, t', s') := hwhole
  have hdescend' : u.descend env.recording config.c config.selection config.maxDepth (s, []) =
      (.ok ⟨path, leaf, isNew, rewards.sum⟩, u', s', rewards) := honward
  rcases hestimated : estimate env config m s' with ⟨cause | estimated, s''⟩
  · have hiterate : t.iterate env config s = (.error cause, t', s'') := by
      rw [iterate]
      simp only [hdescend, hm, hestimated]
    have hiterate' : u.iterateOnward env config s = (.error cause, u', s'') := by
      rw [iterateOnward]
      simp only [hdescend', hm', hestimate, hestimated]
    simp only [stepOnward, stepWhole, visit, hdescend, hdescend', hiterate, hiterate']
    exact ⟨trivial, trivial, habove⟩
  · have htotal : rewards.sum + estimated = 0 + returnFrom estimated rewards := by
      rw [returnFrom_eq, zero_add]
    obtain ⟨hsame, hback⟩ := habove.backpropagate ht' hpasses htotal
    rcases hcredit : t'.backpropagate (rewards.sum + estimated) path with ⟨result, t''⟩
    rcases hcredit' : u'.creditOnward estimated path rewards with ⟨result', u''⟩
    rw [hcredit, hcredit'] at hsame hback
    obtain rfl : result' = result := hsame
    have hiterate : t.iterate env config s = (result'.map fun _ =>
        ⟨leaf, path.length, rewards.sum, estimated, rewards.sum + estimated⟩, t'', s'') := by
      rw [iterate]
      simp only [hdescend, hm, hestimated, hcredit]
      cases result' <;> rfl
    have hiterate' : u.iterateOnward env config s = (result'.map fun _ =>
        ⟨leaf, path.length, rewards.sum, estimated, rewards.sum + estimated⟩, u'', s'') := by
      rw [iterateOnward]
      simp only [hdescend', hm', hestimate, hestimated, hcredit']
      cases result' <;> rfl
    simp only [stepOnward, stepWhole, visit, hdescend, hdescend', hiterate, hiterate']
    exact ⟨trivial, trivial, hback⟩

/-- **Searches in both trees**, by induction on the iterations with `Above.step`. -/
theorem Above.search
    (hreward : ∀ state a s, (env.step state a s).1.reward =
      reward state a (env.step state a s).1.next)
    (configs : List (SearchConfig K)) (h : Above reward t u) (ht : t.WellFormed) (s : σ) :
    ∃ log t' u' s', Tree.search (stepWhole env) configs t s = (log, t', s') ∧
      Tree.search (stepOnward env) configs u s = (log, u', s') ∧ t'.WellFormed ∧
      Above reward t' u' := by
  induction configs generalizing t u s with
  | nil => exact ⟨[], t, u, s, rfl, rfl, ht, h⟩
  | cons config rest ih =>
      obtain ⟨hvisit, hhidden, habove⟩ := h.step hreward ht config s
      have ht' : (stepWhole env config t s).2.1.WellFormed := ht.iterate env config s
      obtain ⟨log, t', u', s', hwhole, honward, hshape⟩ :=
        ih habove ht' (stepWhole env config t s).2.2
      refine ⟨(stepWhole env config t s).1 :: log, t', u', s', ?_, ?_, hshape⟩
      · rw [Tree.search]
        simp only [hwhole]
      · rw [Tree.search]
        simp only [hvisit, hhidden, honward]

/-- `ofRoot` is raised nowhere: nothing is recorded yet. -/
theorem above_ofRoot (reward : ℕ → ℕ → ℕ → K) (key : ℕ) (terminal : Bool) :
    Above reward (ofRoot key terminal) (ofRoot key terminal) := by
  refine ⟨rfl, ?_⟩
  intro i n n' x hn hn' _
  obtain rfl : n = n' := Option.some.inj (hn.symm.trans hn')
  obtain rfl : n = .leaf key 0 none terminal := by
    rw [node?, ofRoot, List.getElem?_toArray, List.getElem?_singleton] at hn
    split at hn
    · exact (Option.some.inj hn).symm
    · exact absurd hn (by simp)
  exact .leaf x ..

/-- **Crediting edges with what comes after them does not change the search.** Let the reward of a
step be determined by the two states and the action. From the same root, with the same settings and
the same answers of the environment, a search that adds the return of the whole iteration to every
edge of its path and a search that credits each edge only with the rewards from the edge on do the
same in every iteration: the same descents, with the same edges in the same order, and the same
results. They lead to trees with the same nodes and edges and with the same successors, counts and
visits, and at each node both the mean and the greatest return of every edge that was taken differ
by what was earned on the way to the node. -/
theorem search_whole_onward
    (hreward : ∀ state a s, (env.step state a s).1.reward =
      reward state a (env.step state a s).1.next)
    (key : ℕ) (terminal : Bool) (configs : List (SearchConfig K)) (s : σ) :
    ∃ log t u s', Tree.search (stepWhole env) configs (ofRoot key terminal) s = (log, t, s') ∧
      Tree.search (stepOnward env) configs (ofRoot key terminal) s = (log, u, s') ∧
      u.size = t.size ∧
      ∀ i n, t.node? i = some n → ∃ n' x, u.node? i = some n' ∧ Earned reward t i x ∧
        n'.bare = n.bare ∧ n'.expanded = n.expanded ∧ n'.edges.size = n.edges.size ∧
        ∀ (a : ℕ) (e e' : Edge K), n.edges[a]? = some e → n'.edges[a]? = some e' →
          e.action = e'.action ∧ e.outcomes = e'.outcomes ∧ e.stats.visits = e'.stats.visits ∧
          (e.stats.visits ≠ 0 →
            e.stats.q = x + e'.stats.q ∧ e.stats.best = x + e'.stats.best) := by
  obtain ⟨log, t, u, s', hwhole, honward, ht, h⟩ :=
    (above_ofRoot reward key terminal).search hreward configs (wellFormed_ofRoot key terminal) s
  refine ⟨log, t, u, s', hwhole, honward, h.size, fun i n hn => ?_⟩
  obtain ⟨n', hn'⟩ := h.exists_node hn
  obtain ⟨x, hx⟩ := ht.exists_earned reward hn
  have hnode := h.node hn hn' hx
  refine ⟨n', x, hn', hx, hnode.bare, hnode.expanded, hnode.size, fun a e e' he he' => ?_⟩
  have hedge := hnode.edge he he'
  exact ⟨hedge.action, hedge.outcomes, hedge.visits_eq,
    fun htaken => ⟨hedge.value_eq htaken .avg, hedge.value_eq htaken .max⟩⟩

end Search

/-- The reward of a step in a corridor: longer steps earn more, and so do later ones. -/
def corridorReward (state action next : ℕ) : ℚ := state + 2 * action + 3 * next

/-- A corridor in which a step is lengthened every other time. -/
def corridor : Environment ℕ ℚ where
  actionCount _ time := (2, time)
  step state action time :=
    (⟨state + action + time % 2, corridorReward state action (state + action + time % 2), false⟩,
      time + 1)
  choose _ _ time := (0, time)

/-- Settings that go by the mean and by the greatest return, in turn. -/
def corridorConfigs : List (SearchConfig ℚ) :=
  [⟨1, none, 1, 1, 3, .discounted, 1, .avg⟩, ⟨1, none, 1, 1, 3, .discounted, 1, .max⟩,
    ⟨1, none, 1, 1, 3, .discounted, 1, .avg⟩, ⟨1, none, 1, 1, 3, .discounted, 1, .max⟩]

-- The logarithm and the root may be any functions.
local instance : Elementary ℚ := ⟨id, id⟩

/-- What an edge has on record: visits, mean and greatest return. -/
noncomputable def figures (e : Edge ℚ) : ℕ × ℚ × ℚ := (e.stats.visits, e.stats.q, e.stats.best)

/-- The second step in the corridor leads to node 2 and earns 8. The edge that is then taken from
there has a return of 27 on record in the one tree, and of 19 in the other. -/
theorem search_whole_onward_corridor :
    (∀ state a time, (corridor.step state a time).1.reward =
      corridorReward state a (corridor.step state a time).1.next) ∧
    ∃ log t u time, Tree.search (stepWhole corridor) corridorConfigs (ofRoot 0 false) 0 =
        (log, t, time) ∧
      Tree.search (stepOnward corridor) corridorConfigs (ofRoot 0 false) 0 = (log, u, time) ∧
      u.size = t.size ∧ Earned corridorReward t 2 8 ∧
      (t.edge? 2 0).map figures = some (1, 27, 27) ∧
      (u.edge? 2 0).map figures = some (1, 19, 19) := by
  have hreward : ∀ state a time, (corridor.step state a time).1.reward =
      corridorReward state a (corridor.step state a time).1.next := fun _ _ _ => rfl
  have hcredited : ((Tree.search (stepWhole corridor) corridorConfigs (ofRoot 0 false) 0).2.1.edge?
      2 0).map figures = some (1, 27, 27) := by decide +kernel
  have hcredited' : ((Tree.search (stepOnward corridor) corridorConfigs
      (ofRoot 0 false) 0).2.1.edge? 2 0).map figures = some (1, 19, 19) := by decide +kernel
  obtain ⟨log, t, u, time, hwhole, honward, hsize, hshift⟩ :=
    search_whole_onward hreward 0 false corridorConfigs 0
  rw [hwhole] at hcredited
  rw [honward] at hcredited'
  refine ⟨hreward, log, t, u, time, hwhole, honward, hsize, ?_, hcredited, hcredited'⟩
  -- what was earned is what the two edges differ by
  obtain ⟨e, he, hfigures⟩ := Option.map_eq_some_iff.mp hcredited
  obtain ⟨e', he', hfigures'⟩ := Option.map_eq_some_iff.mp hcredited'
  obtain ⟨n, hn, hne⟩ := Option.bind_eq_some_iff.mp he
  obtain ⟨n', hn', hne'⟩ := Option.bind_eq_some_iff.mp he'
  obtain ⟨k, x, hk, hx, -, -, -, hedges⟩ := hshift 2 n hn
  obtain rfl : k = n' := Option.some.inj (hk.symm.trans hn')
  obtain ⟨-, -, -, htaken⟩ := hedges 0 e e' hne hne'
  obtain ⟨hvisits, hq, -⟩ : e.stats.visits = 1 ∧ e.stats.q = 27 ∧ e.stats.best = 27 := by
    simpa [figures] using hfigures
  obtain ⟨-, hq', -⟩ : e'.stats.visits = 1 ∧ e'.stats.q = 19 ∧ e'.stats.best = 19 := by
    simpa [figures] using hfigures'
  have hdiffer := (htaken (by omega)).1
  rw [hq, hq'] at hdiffer
  obtain rfl : x = 8 := by linarith
  exact hx

end Tree

end DurativePlanning
