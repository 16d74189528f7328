import DurativePlanning.Proofs.Search.Growth

/-!
# What an Iteration Counts

An iteration counts in two places. Its descent counts, at each edge it takes, the successor that it
meets; and if its rollout succeeds, its return is recorded at each edge of the path. This module
reads both off the tree as total functions of the edge, for which an edge that does not exist yet
has counted nothing, and says how one iteration changes them.

* `Tree.statsAt`, `Tree.tallyAt`: what was recorded at an edge, and how often it was followed.
* `Tree.Walk.statsAt_eq`, `Tree.Walk.tallyAt_eq`: a descent counts its moves and records nothing.
* `Tree.statsAt_backpropagate`: a return is recorded once at each edge of the path.
* `Tree.iterate_counts`: both together, for an iteration that may fail.
-/

namespace DurativePlanning

variable {σ α : Type}

/-! ### Counting at one edge -/

namespace Edge

/-- How often an edge was followed to one of the nodes that `counts` picks. -/
def tally (e : Edge α) (counts : ℕ → Bool) : ℕ :=
  (e.outcomes.map fun o => if counts o.child then o.count else 0).sum

/-- `extend` counts the new successor once. -/
theorem tally_extend (e : Edge α) (key child : ℕ) (counts : ℕ → Bool) :
    (e.extend key child).tally counts = e.tally counts + if counts child then 1 else 0 := by
  simp [tally, extend]

/-- `meet` counts the successor with the key once more. -/
theorem tally_meet {e : Edge α} (hdistinct : (e.outcomes.map (·.key)).Nodup) {o : OutcomeEntry}
    (ho : o ∈ e.outcomes) (counts : ℕ → Bool) :
    (e.meet o.key).tally counts = e.tally counts + if counts o.child then 1 else 0 := by
  rw [tally, tally, outcomes_meet]
  generalize e.outcomes = l at hdistinct ho ⊢
  induction l with
  | nil => exact absurd ho List.not_mem_nil
  | cons x rest ih =>
      rw [List.map_cons, List.nodup_cons] at hdistinct
      rw [List.map_cons, List.map_cons, List.map_cons, List.sum_cons, List.sum_cons]
      by_cases hx : x.key = o.key
      · -- this is the entry of the successor, and no later entry has its key
        have hxo : x = o := by
          rcases List.mem_cons.mp ho with h | h
          · exact h.symm
          · exact absurd (hx ▸ List.mem_map_of_mem h) hdistinct.1
        have hrest : (rest.map fun o' =>
            if o'.key = o.key then { o' with count := o'.count + 1 } else o') = rest := by
          refine (List.map_congr_left fun y hy => if_neg fun h => hdistinct.1 ?_).trans
            (List.map_id rest)
          rw [hx, ← h]
          exact List.mem_map_of_mem hy
        rw [if_pos hx, hrest, hxo]
        cases counts o.child with
        | true =>
            simp only [if_true]
            omega
        | false => simp only [Bool.false_eq_true, if_false, Nat.add_zero]
      · have hne : o ≠ x := fun h => hx (h ▸ rfl)
        rw [if_neg hx, ih hdistinct.2 ((List.mem_cons.mp ho).resolve_left hne)]
        omega

end Edge

namespace Tree

variable {t t' : Tree α} {i a leaf : ℕ} {n : Node α} {e e' : Edge α} {path : List (ℕ × ℕ)}

/-- How often an edge was followed to one of the nodes that `counts` picks. -/
def tallyAt (t : Tree α) (p b : ℕ) (counts : ℕ → Bool) : ℕ :=
  (t.edge? p b).elim 0 (·.tally counts)

theorem tallyAt_of_edge? {p b : ℕ} (he : t.edge? p b = some e) (counts : ℕ → Bool) :
    t.tallyAt p b counts = e.tally counts := by
  rw [tallyAt, he, Option.elim_some]

/-- What is read at the edges after one of them has been replaced. -/
theorem elim_edge?_setEdge {β : Type} (hn : t.node? i = some n) (he : n.edges[a]? = some e)
    (e' : Edge α) (none : β) (read : Edge α → β) (p b : ℕ) :
    ((t.setEdge i n a e').edge? p b).elim none read =
      if (i, a) = (p, b) then read e' else (t.edge? p b).elim none read := by
  rw [edge?_setEdge hn he]
  by_cases h : (i, a) = (p, b)
  · obtain ⟨rfl, rfl⟩ := Prod.mk.inj h
    rw [if_pos ⟨rfl, rfl⟩, if_pos rfl, Option.elim_some]
  · rw [if_neg fun h' => h (by rw [h'.1, h'.2]), if_neg h]

variable [SearchArithmetic α]

/-- The returns recorded at an edge; at an edge that does not exist yet there are none. -/
def statsAt (t : Tree α) (p b : ℕ) : EdgeStats α := (t.edge? p b).elim .empty (·.stats)

theorem statsAt_of_edge? {p b : ℕ} (he : t.edge? p b = some e) : t.statsAt p b = e.stats := by
  rw [statsAt, he, Option.elim_some]

/-- What is read at the edges does not change when a node gets its edges, if new edges read as
edges that do not exist. -/
theorem WellFormed.elim_edge?_setNode_expand {β : Type} (ht : t.WellFormed)
    (hn : t.node? i = some n) (hexpanded : n.expanded = false) (k : ℕ) {none : β}
    {read : Edge α → β} (hnew : ∀ a, read (.ofAction a) = none) (p b : ℕ) :
    ((t.setNode i (n.expand k)).edge? p b).elim none read = (t.edge? p b).elim none read := by
  rw [edge?_setNode_expand hn hexpanded]
  by_cases h : p = i
  · rw [if_pos h, h, ht.edge?_of_not_expanded hn hexpanded]
    split
    · exact hnew b
    · rfl
  · rw [if_neg h]

/-! ### What a descent counts -/

/-- A descent **records nothing**: `statsAt` every edge is the same after a `Walk`. -/
theorem Walk.statsAt_eq (hwalk : Walk t i path leaf t') (ht : t.WellFormed) (p b : ℕ) :
    t'.statsAt p b = t.statsAt p b := by
  induction hwalk with
  | rest => rfl
  | expand hn hexpanded hk _ ih =>
      exact (ih (ht.setNode_expand hn hexpanded hk)).trans
        (ht.elim_edge?_setNode_expand hn hexpanded _ (fun _ => rfl) p b)
  | @meet t t' i n a e o path leaf hn he ho _ ih =>
      rw [ih (ht.setEdge_meet hn he o.key), statsAt, elim_edge?_setEdge hn he]
      split
      · next h =>
        obtain ⟨rfl, rfl⟩ := Prod.mk.inj h
        rw [statsAt_of_edge? ((edge?_of_node? hn a).trans he)]
        rfl
      · rfl
  | @enter t i n a e key terminal hn he _ =>
      rw [statsAt, edge?_grow hn he]
      split
      · next h =>
        obtain ⟨rfl, rfl⟩ := h
        rw [statsAt_of_edge? ((edge?_of_node? hn b).trans he)]
        rfl
      · rfl

/-- The edges of a path that ends in a node, each with the node to which it was followed. -/
def moves (path : List (ℕ × ℕ)) (leaf : ℕ) : List ((ℕ × ℕ) × ℕ) :=
  path.zip (path.map Prod.fst ++ [leaf]).tail

/-- The moves along a path begin with the one along its first edge. -/
theorem moves_cons {next : ℕ} {rest : List ℕ} (h : path.map Prod.fst ++ [leaf] = next :: rest)
    (step : ℕ × ℕ) : moves (step :: path) leaf = (step, next) :: moves path leaf := by
  simp [moves, h]

theorem map_fst_moves (path : List (ℕ × ℕ)) (leaf : ℕ) : (moves path leaf).map Prod.fst = path := by
  rw [moves, List.map_fst_zip]
  simp

/-- The nodes on a walk begin with its first one. -/
theorem Walk.exists_nodes (hwalk : Walk t i path leaf t') :
    ∃ rest, path.map Prod.fst ++ [leaf] = i :: rest := by
  induction hwalk with
  | rest => exact ⟨[], rfl⟩
  | expand _ _ _ _ ih => exact ih
  | meet => exact ⟨_, rfl⟩
  | enter => exact ⟨_, rfl⟩

/-- A descent **counts its moves**: `tallyAt` each edge goes up by the moves along it. -/
theorem Walk.tallyAt_eq (hwalk : Walk t i path leaf t') (ht : t.WellFormed) (p b : ℕ)
    (counts : ℕ → Bool) :
    t'.tallyAt p b counts = t.tallyAt p b counts +
      (moves path leaf).countP fun x => x.1 = (p, b) ∧ counts x.2 = true := by
  induction hwalk with
  | rest => rfl
  | expand hn hexpanded hk _ ih =>
      rw [ih (ht.setNode_expand hn hexpanded hk)]
      exact congrArg (· + _) (ht.elim_edge?_setNode_expand hn hexpanded _ (fun _ => rfl) p b)
  | @meet t t' i n a e o path leaf hn he ho hwalk ih =>
      have hat : t.edge? i a = some e := (edge?_of_node? hn a).trans he
      obtain ⟨rest, hnodes⟩ := hwalk.exists_nodes
      rw [ih (ht.setEdge_meet hn he o.key), moves_cons hnodes, List.countP_cons, tallyAt,
        elim_edge?_setEdge hn he, Edge.tally_meet (ht.distinct hat) ho]
      by_cases h : (i, a) = (p, b)
      · obtain ⟨rfl, rfl⟩ := Prod.mk.inj h
        simp only [if_true, tallyAt_of_edge? hat, true_and, decide_eq_true_eq]
        omega
      · simp only [h, if_false, false_and, decide_false, Bool.false_eq_true, tallyAt]
        omega
  | @enter t i n a e key terminal hn he _ =>
      have hat : t.edge? i a = some e := (edge?_of_node? hn a).trans he
      rw [tallyAt, edge?_grow hn he, moves_cons rfl, List.countP_cons]
      by_cases h : (i, a) = (p, b)
      · obtain ⟨rfl, rfl⟩ := Prod.mk.inj h
        simp [tallyAt_of_edge? hat, Edge.tally_extend, moves]
      · rw [if_neg fun h' => h (by rw [h'.1, h'.2])]
        simp [h, moves, tallyAt]

/-! ### What a back-up records -/

/-- `backpropagate` **records** a return **once** at each edge of a path without repetitions. -/
theorem statsAt_backpropagate {x : α} (hnodup : path.Nodup)
    (h : t.backpropagate x path = (.ok (), t')) (p b : ℕ) :
    t'.statsAt p b = if (p, b) ∈ path then (t.statsAt p b).record x else t.statsAt p b := by
  induction path generalizing t with
  | nil =>
      obtain rfl : t = t' := congrArg Prod.snd h
      rfl
  | cons step rest ih =>
      obtain ⟨i, a⟩ := step
      rw [List.nodup_cons] at hnodup
      rw [backpropagate] at h
      split at h
      · exact absurd h (by simp)
      · next n hn =>
        split at h
        · exact absurd h (by simp)
        · next e he =>
          rw [ih hnodup.2 h, statsAt, elim_edge?_setEdge hn he]
          by_cases heq : (i, a) = (p, b)
          · obtain ⟨rfl, rfl⟩ := Prod.mk.inj heq
            rw [if_neg hnodup.1, if_pos rfl, if_pos List.mem_cons_self,
              statsAt_of_edge? ((edge?_of_node? hn a).trans he)]
            rfl
          · simp only [List.mem_cons, heq, if_false, Ne.symm heq, false_or]
            rfl

/-- `backpropagate` counts no move. -/
theorem tallyAt_backpropagate (x : α) (path : List (ℕ × ℕ)) (p b : ℕ) (counts : ℕ → Bool) :
    (t.backpropagate x path).2.tallyAt p b counts = t.tallyAt p b counts := by
  refine backpropagate_induction (P := fun t' => t'.tallyAt p b counts = t.tallyAt p b counts)
    (fun t' i a n e h hn he => ?_) path rfl
  rw [tallyAt, elim_edge?_setEdge hn he, ← h]
  split
  · next heq =>
    obtain ⟨rfl, rfl⟩ := Prod.mk.inj heq
    rw [tallyAt_of_edge? ((edge?_of_node? hn a).trans he)]
    rfl
  · rfl

/-! ### What an iteration counts -/

/-- **What one iteration counts**: the `moves` of its descent in any case, and its return at the
edges of the path if it succeeds. -/
theorem iterate_counts (ht : t.WellFormed) (env : Environment σ α) (config : SearchConfig α)
    (s : σ) :
    ∃ d, (t.descend env config.c config.selection config.maxDepth s).1 = .ok d ∧
      (d.path.map Prod.fst).Nodup ∧
      (∀ p b counts, (t.iterate env config s).2.1.tallyAt p b counts = t.tallyAt p b counts +
        (moves d.path d.leaf).countP fun x => x.1 = (p, b) ∧ counts x.2 = true) ∧
      ∀ p b, (t.iterate env config s).2.1.statsAt p b =
        match (t.iterate env config s).1 with
        | .ok i => if (p, b) ∈ d.path then (t.statsAt p b).record i.totalReturn else t.statsAt p b
        | .error _ => t.statsAt p b := by
  obtain ⟨d, t₁, s₁, hd, hwalk, hcases⟩ := iterate_cases ht env config s
  refine ⟨d, congrArg Prod.fst hd, hwalk.nodup ht, ?_⟩
  rcases hcases with ⟨_, _, _, s₂, -, -, h⟩ | ⟨r, t₂, s₂, hback, h⟩
  · rw [h]
    exact ⟨fun p b counts => hwalk.tallyAt_eq ht p b counts, fun p b => hwalk.statsAt_eq ht p b⟩
  · rw [h]
    refine ⟨fun p b counts => ?_, fun p b => ?_⟩
    · have htally := tallyAt_backpropagate (t := t₁) (d.reward + r) d.path p b counts
      rw [hback] at htally
      exact htally.trans (hwalk.tallyAt_eq ht p b counts)
    · simp only [statsAt_backpropagate ((hwalk.nodup ht).of_map _) hback, hwalk.statsAt_eq ht]

end Tree

end DurativePlanning
