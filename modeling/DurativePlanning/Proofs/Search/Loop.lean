import DurativePlanning.Proofs.Search.Walk

/-!
# The Loop of a Descent

A descent is told how many edges it may take. Said without that number, it is a loop that looks at
the depth of the node it has come to, and goes on until that node is terminal, is as deep as the
loop may go, offers no action, or has just been added. Nothing in the loop counts. It ends all the
same, because in a tree of the right shape every edge leads one level down, and then it takes as
many edges as the leaf is deep.

* `Tree.Descends`: the loop, as a relation between its states at the beginning and at the end.
* `Tree.exists_descends`: the loop ends.
* `Tree.descend_eq_ok_iff`: a descent is the loop from the root.
* `Tree.Descends.walk`, `Tree.Descends.depth_le`, `Tree.Descends.size_eq`: the edges that the loop
  takes, how deep it goes, and the node that it adds.
-/

namespace DurativePlanning

variable {σ α : Type} [SearchArithmetic α]

/-- `expand` keeps the depth. -/
@[simp] theorem Node.depth_expand (n : Node α) (k : ℕ) : (n.expand k).depth = n.depth := by
  rw [Node.expand]
  split <;> rfl

namespace Tree

/-- **The loop of a descent**, from a node that was reached by a path with a reward, to its result.
-/
inductive Descends (env : Environment σ α) (c : α) (selection : Selection) (maxDepth : ℕ) :
    ℕ → List (ℕ × ℕ) → α → Tree α → σ → Descent α → Tree α → σ → Prop
  /-- The loop stops at a terminal node, and at one that is as deep as it may go. -/
  | stop {i : ℕ} {path : List (ℕ × ℕ)} {reward : α} {t : Tree α} {s : σ} {n : Node α} :
      t.node? i = some n → n.terminal = true ∨ maxDepth ≤ n.depth →
        Descends env c selection maxDepth i path reward t s ⟨path, i, false, reward⟩ t s
  /-- The loop stops at a node without edges whose state offers no action. -/
  | barren {i : ℕ} {path : List (ℕ × ℕ)} {reward : α} {t : Tree α} {s : σ} {n : Node α} :
      t.node? i = some n → n.terminal = false → n.depth < maxDepth → n.expanded = false →
        (env.actionCount n.key s).1 = 0 →
          Descends env c selection maxDepth i path reward t s ⟨path, i, false, reward⟩ t
            (env.actionCount n.key s).2
  /-- A node without edges gets them. -/
  | expand {i : ℕ} {path : List (ℕ × ℕ)} {reward : α} {t t' : Tree α} {s s' : σ} {n : Node α}
      {d : Descent α} :
      t.node? i = some n → n.terminal = false → n.depth < maxDepth → n.expanded = false →
        (env.actionCount n.key s).1 ≠ 0 →
          Descends env c selection maxDepth i path reward
              (t.setNode i (n.expand (env.actionCount n.key s).1)) (env.actionCount n.key s).2
              d t' s' →
            Descends env c selection maxDepth i path reward t s d t' s'
  /-- The selected edge is followed to a node that is known. -/
  | meet {i : ℕ} {path : List (ℕ × ℕ)} {reward : α} {t t' : Tree α} {s s' : σ} {n : Node α}
      {a : ℕ} {e : Edge α} {o : OutcomeEntry} {d : Descent α} :
      t.node? i = some n → n.terminal = false → n.depth < maxDepth → n.expanded = true →
        n.select c selection = some a → n.edges[a]? = some e →
          e.outcome? (env.step n.key a s).1.next = some o →
            Descends env c selection maxDepth o.child (path ++ [(i, a)])
                (reward + (env.step n.key a s).1.reward)
                (t.setEdge i n a (e.meet (env.step n.key a s).1.next)) (env.step n.key a s).2
                d t' s' →
              Descends env c selection maxDepth i path reward t s d t' s'
  /-- The selected edge leads to a state that it has not led to before: a node is added. -/
  | enter {i : ℕ} {path : List (ℕ × ℕ)} {reward : α} {t : Tree α} {s : σ} {n : Node α} {a : ℕ}
      {e : Edge α} :
      t.node? i = some n → n.terminal = false → n.depth < maxDepth → n.expanded = true →
        n.select c selection = some a → n.edges[a]? = some e →
          e.outcome? (env.step n.key a s).1.next = none →
            Descends env c selection maxDepth i path reward t s
              ⟨path ++ [(i, a)], t.size, true, reward + (env.step n.key a s).1.reward⟩
              (t.grow i n a e (env.step n.key a s).1.next (env.step n.key a s).1.terminal)
              (env.step n.key a s).2

variable {env : Environment σ α} {c : α} {selection : Selection} {maxDepth i : ℕ}
  {path : List (ℕ × ℕ)} {reward : α} {t t' : Tree α} {s s' : σ} {n : Node α} {d : Descent α}

/-! ### The loop ends -/

/-- At a node that has its edges the loop ends when it ends one level below. -/
theorem exists_descends_of_expanded (path : List (ℕ × ℕ)) (reward : α) (s : σ)
    (ht : t.WellFormed) (hn : t.node? i = some n)
    (hterminal : n.terminal = false) (hdepth : n.depth < maxDepth) (hexpanded : n.expanded = true)
    (hbelow : ∀ {t : Tree α} {i : ℕ} {m : Node α} (path : List (ℕ × ℕ)) (reward : α) (s : σ),
      t.WellFormed → t.node? i = some m → m.depth = n.depth + 1 →
        ∃ d t' s', Descends env c selection maxDepth i path reward t s d t' s') :
    ∃ d t' s', Descends env c selection maxDepth i path reward t s d t' s' := by
  obtain ⟨a, e, hselect, he⟩ := Node.exists_select ((ht.expanded hn).mp hexpanded) c selection
  cases hfound : e.outcome? (env.step n.key a s).1.next with
  | none => exact ⟨_, _, _, .enter hn hterminal hdepth hexpanded hselect he hfound⟩
  | some o =>
      obtain ⟨ho, -⟩ := Edge.mem_of_outcome? hfound
      obtain ⟨m, hm, -, -, hmdepth⟩ := ht.exists_child hn ((edge?_of_node? hn a).trans he) ho
      obtain ⟨m', hm', hbare⟩ := keeps_setEdge hn a (e.meet (env.step n.key a s).1.next) hm
      obtain ⟨d, t', s', hrest⟩ := hbelow (path ++ [(i, a)])
        (reward + (env.step n.key a s).1.reward) (env.step n.key a s).2
        (ht.setEdge_meet hn he _) hm' ((Node.depth_eq_of_bare_eq hbare).trans hmdepth)
      exact ⟨d, t', s', .meet hn hterminal hdepth hexpanded hselect he hfound hrest⟩

/-- **The loop ends**, in any environment: `Descends` gives a result, since every edge leads one
level down. -/
theorem exists_descends (env : Environment σ α) (c : α) (selection : Selection) (maxDepth : ℕ)
    (path : List (ℕ × ℕ)) (reward : α) (s : σ) (ht : t.WellFormed) (hn : t.node? i = some n) :
    ∃ d t' s', Descends env c selection maxDepth i path reward t s d t' s' := by
  -- the induction is on how far the node is above the greatest depth
  induction hlevels : maxDepth - n.depth generalizing i n path reward t s with
  | zero => exact ⟨_, _, _, .stop hn (Or.inr (Nat.sub_eq_zero_iff_le.mp hlevels))⟩
  | succ levels ih =>
      have hdepth : n.depth < maxDepth := by omega
      have hbelow : ∀ {t : Tree α} {i : ℕ} {m : Node α} (path : List (ℕ × ℕ)) (reward : α) (s : σ),
          t.WellFormed → t.node? i = some m → m.depth = n.depth + 1 →
            ∃ d t' s', Descends env c selection maxDepth i path reward t s d t' s' :=
        fun path reward s ht hm hmdepth => ih path reward s ht hm (by omega)
      cases hterminal : n.terminal with
      | true => exact ⟨_, _, _, .stop hn (Or.inl hterminal)⟩
      | false =>
          cases hexpanded : n.expanded with
          | true =>
              exact exists_descends_of_expanded path reward s ht hn hterminal hdepth hexpanded
                hbelow
          | false =>
              by_cases hcount : (env.actionCount n.key s).1 = 0
              · exact ⟨_, _, _, .barren hn hterminal hdepth hexpanded hcount⟩
              · obtain ⟨d, t', s', hrest⟩ := exists_descends_of_expanded path reward
                  (env.actionCount n.key s).2 (ht.setNode_expand hn hexpanded hcount)
                  (node?_setNode_self hn _)
                  (by simp [Node.expand, hexpanded, hterminal])
                  (by rwa [Node.depth_expand]) (by simp [Node.expand, hexpanded])
                  (by rwa [Node.depth_expand])
                exact ⟨d, t', s', .expand hn hterminal hdepth hexpanded hcount hrest⟩

/-! ### The loop and the count -/

/-- **The loop is a descent** `descendFrom` that may take as many edges as the node is above the
greatest depth. -/
theorem Descends.descendFrom_eq (h : Descends env c selection maxDepth i path reward t s d t' s')
    (ht : t.WellFormed) (hn : t.node? i = some n) :
    descendFrom env c selection (maxDepth - n.depth) i path reward t s = (.ok d, t', s') := by
  induction h generalizing n with
  | stop hn₁ hstop =>
      obtain rfl := Option.some.inj (hn.symm.trans hn₁)
      rcases hstop with hterminal | hdepth
      · exact descendFrom_of_terminal hn hterminal
      · rw [Nat.sub_eq_zero_of_le hdepth]
        exact descendFrom_zero hn
  | barren hn₁ hterminal hdepth hexpanded hcount =>
      obtain rfl := Option.some.inj (hn.symm.trans hn₁)
      obtain ⟨levels, hlevels⟩ := Nat.exists_eq_succ_of_ne_zero (Nat.sub_ne_zero_of_lt hdepth)
      rw [hlevels]
      exact descendFrom_of_no_action hn hterminal hexpanded hcount
  | expand hn₁ hterminal hdepth hexpanded hcount _ ih =>
      obtain rfl := Option.some.inj (hn.symm.trans hn₁)
      have hrest := ih (ht.setNode_expand hn hexpanded hcount) (node?_setNode_self hn _)
      obtain ⟨levels, hlevels⟩ := Nat.exists_eq_succ_of_ne_zero (Nat.sub_ne_zero_of_lt hdepth)
      rw [Node.depth_expand, hlevels] at hrest
      rw [hlevels]
      exact (descendFrom_of_unexpanded hn hterminal hexpanded hcount).trans hrest
  | meet hn₁ hterminal hdepth hexpanded hselect he hfound _ ih =>
      obtain rfl := Option.some.inj (hn.symm.trans hn₁)
      obtain ⟨ho, -⟩ := Edge.mem_of_outcome? hfound
      obtain ⟨m, hm, -, -, hmdepth⟩ := ht.exists_child hn ((edge?_of_node? hn _).trans he) ho
      obtain ⟨m', hm', hbare⟩ := keeps_setEdge hn _ _ hm
      have hrest := ih (ht.setEdge_meet hn he _) hm'
      rw [Node.depth_eq_of_bare_eq hbare, hmdepth] at hrest
      obtain ⟨levels, hlevels⟩ := Nat.exists_eq_succ_of_ne_zero (Nat.sub_ne_zero_of_lt hdepth)
      rw [show maxDepth - (n.depth + 1) = levels by omega] at hrest
      rw [hlevels]
      exact (descendFrom_of_known hn hterminal hexpanded hselect he hfound).trans hrest
  | enter hn₁ hterminal hdepth hexpanded hselect he hnew =>
      obtain rfl := Option.some.inj (hn.symm.trans hn₁)
      obtain ⟨levels, hlevels⟩ := Nat.exists_eq_succ_of_ne_zero (Nat.sub_ne_zero_of_lt hdepth)
      rw [hlevels]
      exact descendFrom_of_new hn hterminal hexpanded hselect he hnew

/-- **A descent is the loop from the root**: `descend` and `Descends` give the same result, since
the number of edges that it may take and the depths of the nodes say the same. -/
theorem descend_eq_ok_iff (ht : t.WellFormed) :
    t.descend env c selection maxDepth s = (.ok d, t', s') ↔
      Descends env c selection maxDepth root [] 0 t s d t' s' := by
  obtain ⟨n, hn, hdepth, -⟩ := ht.root
  have hdescend : ∀ {d t' s'}, Descends env c selection maxDepth root [] 0 t s d t' s' →
      t.descend env c selection maxDepth s = (.ok d, t', s') := by
    intro d t' s' h
    have hcounted := h.descendFrom_eq ht hn
    rwa [hdepth, Nat.sub_zero] at hcounted
  refine ⟨fun h => ?_, hdescend⟩
  obtain ⟨d₁, t₁, s₁, hloop⟩ := exists_descends env c selection maxDepth [] 0 s ht hn
  rw [hdescend hloop] at h
  obtain ⟨hd, hrest⟩ := Prod.mk.inj h
  obtain ⟨rfl, rfl⟩ := Prod.mk.inj hrest
  exact Except.ok.inj hd ▸ hloop

/-! ### What the loop does -/

/-- The loop is a `Walk` from its first node. -/
theorem Descends.walk (h : Descends env c selection maxDepth i path reward t s d t' s') :
    ∃ steps, d.path = path ++ steps ∧ Walk t i steps d.leaf t' := by
  induction h with
  | stop => exact ⟨[], (List.append_nil _).symm, .rest _ _⟩
  | barren => exact ⟨[], (List.append_nil _).symm, .rest _ _⟩
  | expand hn _ _ hexpanded hcount _ ih =>
      obtain ⟨steps, hpath, hwalk⟩ := ih
      exact ⟨steps, hpath, .expand hn hexpanded hcount hwalk⟩
  | @meet i _ _ _ _ _ _ _ a _ _ _ hn _ _ _ _ he hfound _ ih =>
      obtain ⟨steps, hpath, hwalk⟩ := ih
      obtain ⟨ho, hkey⟩ := Edge.mem_of_outcome? hfound
      rw [← hkey] at hwalk
      exact ⟨(i, a) :: steps, by rw [hpath, List.append_assoc]; rfl, .meet hn he ho hwalk⟩
  | @enter i _ _ _ _ _ a _ hn _ _ _ _ he hnew => exact ⟨[(i, a)], rfl, .enter hn he hnew⟩

/-- **The loop does not go deeper than it may**, unless it began deeper. -/
theorem Descends.depth_le (h : Descends env c selection maxDepth i path reward t s d t' s')
    (ht : t.WellFormed) (hn : t.node? i = some n) (hle : n.depth ≤ maxDepth) :
    ∃ leaf, t'.node? d.leaf = some leaf ∧ leaf.depth ≤ maxDepth := by
  induction h generalizing n with
  | stop => exact ⟨n, hn, hle⟩
  | barren => exact ⟨n, hn, hle⟩
  | expand hn₁ _ _ hexpanded hcount _ ih =>
      obtain rfl := Option.some.inj (hn.symm.trans hn₁)
      exact ih (ht.setNode_expand hn hexpanded hcount) (node?_setNode_self hn _)
        (by rwa [Node.depth_expand])
  | meet hn₁ _ hdepth _ _ he hfound _ ih =>
      obtain rfl := Option.some.inj (hn.symm.trans hn₁)
      obtain ⟨ho, -⟩ := Edge.mem_of_outcome? hfound
      obtain ⟨m, hm, -, -, hmdepth⟩ := ht.exists_child hn ((edge?_of_node? hn _).trans he) ho
      obtain ⟨m', hm', hbare⟩ := keeps_setEdge hn _ _ hm
      exact ih (ht.setEdge_meet hn he _) hm' (by
        rw [Node.depth_eq_of_bare_eq hbare, hmdepth]
        exact hdepth)
  | enter hn₁ _ hdepth _ _ _ _ => exact ⟨_, node?_grow_size hn₁ _ _ _ _, hdepth⟩

/-- **The loop adds a node exactly when its leaf is new**, which `isNew` tells. -/
theorem Descends.size_eq (h : Descends env c selection maxDepth i path reward t s d t' s') :
    t'.size = t.size + if d.isNew then 1 else 0 := by
  induction h with
  | stop => rfl
  | barren => rfl
  | expand _ _ _ _ _ _ ih => rw [ih, size_setNode]
  | meet _ _ _ _ _ _ _ _ ih => rw [ih, size_setEdge]
  | enter => rw [size_grow, if_pos rfl]

end Tree

end DurativePlanning
