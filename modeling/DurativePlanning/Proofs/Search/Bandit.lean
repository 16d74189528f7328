import DurativePlanning.Proofs.Search.Selection
import DurativePlanning.Proofs.Search.Statistics

/-!
# Bandits

In a **bandit** one of several actions is taken, its reward is paid, and all is over. A search that
explores nothing tries every action of a bandit once, and from then on takes the first of those with
the greatest reward. So after any number of iterations it is known how often every action was taken,
and the reports on the root name that action.

* `Environment.IsBandit`: an environment that is a bandit in one of its states.
* `pulls`: how often each action is taken.
* `Tree.Played`: what the tree looks like after some iterations.
* `Tree.Played.iterate`: one iteration more.
* `Tree.greedy_run_of_bandit`: what a run has found out.
-/

namespace DurativePlanning

variable {K : Type} [Field K] [LinearOrder K] [IsStrictOrderedRing K] [FloorSemiring K]
  [Elementary K] {σ : Type}

/-- The environment is a **bandit** in the state with a key: it offers `k` actions, of which each
pays its reward and ends all. -/
structure Environment.IsBandit (env : Environment σ K) (key k : ℕ) (r : ℕ → K) : Prop where
  offers : ∀ s, (env.actionCount key s).1 = k
  pays : ∀ a < k, ∀ s, (env.step key a s).1.reward = r a
  ends : ∀ a < k, ∀ s, (env.step key a s).1.terminal = true

/-! ### One return again and again -/

namespace EdgeStats

/-- One return, recorded `m` times. -/
noncomputable def repeated (x : K) (m : ℕ) : EdgeStats K := (List.replicate m x).foldl record empty

theorem repeated_succ (x : K) (m : ℕ) : repeated x (m + 1) = (repeated x m).record x := by
  rw [repeated, List.replicate_succ', List.foldl_append]
  rfl

theorem visits_repeated (x : K) (m : ℕ) : (repeated x m).visits = m := by
  rw [repeated, visits_foldl_record, List.length_replicate]
  exact Nat.zero_add m

/-- The mean of equal returns, and the greatest of them, is the return. -/
theorem value_repeated (x : K) {m : ℕ} (hm : m ≠ 0) (selection : Selection) :
    (repeated x m).value selection = x := by
  have hne : List.replicate m x ≠ [] := by simpa using hm
  cases selection with
  | avg =>
      change (repeated x m).q = x
      rw [repeated, q_foldl_record, if_neg hne, List.sum_replicate, List.length_replicate,
        nsmul_eq_mul, mul_div_cancel_left₀ _ (Nat.cast_ne_zero.mpr hm)]
  | max =>
      change (repeated x m).best = x
      rw [repeated, best_foldl_record, List.max?_replicate_of_pos (Nat.pos_of_ne_zero hm)]
      rfl

end EdgeStats

/-! ### Which action is taken how often -/

/-- The action that is taken after `j` iterations: each one first, then the best one. -/
def pulled (k best j : ℕ) : ℕ := if j < k then j else best

/-- How often an action was **taken** in `j` iterations. -/
def pulls (k best j a : ℕ) : ℕ := (if a < j then 1 else 0) + if a = best then j - k else 0

theorem pulls_zero (k best a : ℕ) : pulls k best 0 a = 0 := by
  rw [pulls, Nat.zero_sub, ite_self]
  rfl

/-- One iteration more takes one action once more. -/
theorem pulls_succ {k best j a : ℕ} (ha : a < k) :
    pulls k best (j + 1) a = pulls k best j a + if a = pulled k best j then 1 else 0 := by
  rw [pulls, pulls, pulled]
  split_ifs <;> omega

/-- After `j` iterations each of the first `j` actions was taken. -/
theorem pulls_pos {j a : ℕ} (ha : a < j) (k best : ℕ) : 0 < pulls k best j a := by
  rw [pulls, if_pos ha]
  omega

/-- Once every action was taken, all further iterations took the best one. -/
theorem pulls_of_le {k best j a : ℕ} (hj : k ≤ j) (ha : a < k) :
    pulls k best j a = if a = best then j - k + 1 else 1 := by
  rw [pulls]
  split_ifs <;> omega

variable {key k best j : ℕ} {r : ℕ → K}

/-- **The action that is taken** is the one that `select` gives. -/
theorem Node.select_pulled {n : Node K} (hbest : IsFirstGreatest ((List.range k).map r) best)
    (hstats : n.stats = (List.range k).map fun a => .repeated (r a) (pulls k best j a))
    (selection : Selection) : n.select 0 selection = some (pulled k best j) := by
  have hcounts : n.counts = (List.range k).map (pulls k best j) := by
    rw [counts, hstats, List.map_map]
    exact List.map_congr_left fun a _ => EdgeStats.visits_repeated _ _
  rw [pulled]
  split
  · next hlt =>
    refine select_of_untried ?_ ?_ 0 selection
    · have hzero : pulls k best j j = 0 := by
        rw [pulls]
        split_ifs <;> omega
      simp [hcounts, hlt, hzero]
    · rw [hcounts, ← List.map_take, List.take_range, Nat.min_eq_left hlt.le, List.forall_mem_map]
      exact fun a ha => pulls_pos (List.mem_range.mp ha) k best
  · next hge =>
    have htried : ∀ a ∈ List.range k, 0 < pulls k best j a := fun a ha =>
      pulls_pos ((List.mem_range.mp ha).trans_le (Nat.not_lt.mp hge)) k best
    have hbounds : n.stats.map (fun s => s.bound n.visits 0 selection) = (List.range k).map r := by
      rw [hstats, List.map_map]
      refine List.map_congr_left fun a ha => ?_
      rw [Function.comp_apply, EdgeStats.bound, EdgeStats.value_repeated _ (htried a ha).ne',
        zero_mul, add_zero]
    refine (select_of_tried ?_).mpr (hbounds ▸ hbest)
    rw [hcounts, List.forall_mem_map]
    exact htried

/-! ### One iteration -/

namespace Tree

/-- All nodes but the root are terminal. -/
def OnlyRootOpen {α : Type} (t : Tree α) : Prop :=
  ∀ ⦃i n⦄, t.node? i = some n → i ≠ root → n.terminal = true

namespace OnlyRootOpen

variable {α : Type} {t : Tree α} {n n' : Node α} {a : ℕ} {e : Edge α}

/-- The root may be replaced: all other nodes stay terminal. -/
theorem setNode_root (h : t.OnlyRootOpen) (hn : t.node? root = some n) :
    (t.setNode root n').OnlyRootOpen := by
  intro i m hm hi
  rw [node?_setNode hn, if_neg hi.symm] at hm
  exact h hm hi

/-- A terminal node may be added below the root. -/
theorem grow_root (h : t.OnlyRootOpen) (hn : t.node? root = some n) (a key : ℕ) (e : Edge α) :
    (t.grow root n a e key true).OnlyRootOpen := by
  intro i m hm hi
  rw [node?_grow hn, if_neg hi.symm] at hm
  split at hm
  · obtain rfl := Option.some.inj hm
    rfl
  · exact h hm hi

end OnlyRootOpen

variable {t : Tree K} {n : Node K} {a : ℕ} {e : Edge K} {env : Environment σ K} {c : K}
  {selection : Selection} {s : σ}

/-- **A descent from the only open node** takes one edge, if that ends all: the one that `select`
gives. -/
theorem exists_descend_of_onlyRootOpen (ht : t.WellFormed) (hopen : t.OnlyRootOpen)
    (hn : t.node? root = some n) (hterminal : n.terminal = false) (hexpanded : n.expanded = true)
    (hselect : n.select c selection = some a) (he : n.edges[a]? = some e)
    (hend : (env.step n.key a s).1.terminal = true) (levels : ℕ) :
    ∃ leaf isNew t' s', t.descend env c selection (levels + 1) s =
        (.ok ⟨[(root, a)], leaf, isNew, (env.step n.key a s).1.reward⟩, t', s') ∧
      t'.OnlyRootOpen ∧ ∃ m, t'.node? leaf = some m ∧ m.terminal = true := by
  rw [descend]
  cases hfound : e.outcome? (env.step n.key a s).1.next with
  | none =>
      rw [descendFrom_of_new hn hterminal hexpanded hselect he hfound, zero_add, hend]
      exact ⟨_, _, _, _, rfl, hopen.grow_root hn a _ e, _, node?_grow_size hn .., rfl⟩
  | some o =>
      obtain ⟨ho, -⟩ := Edge.mem_of_outcome? hfound
      have hat := (edge?_of_node? hn a).trans he
      obtain ⟨m, hm, -⟩ := ht.child hat o ho
      obtain ⟨m', hm', -⟩ := keeps_setEdge hn a (e.meet (env.step n.key a s).1.next) hm
      have hopen' : (t.setEdge root n a (e.meet (env.step n.key a s).1.next)).OnlyRootOpen :=
        hopen.setNode_root hn
      have hterminal' := hopen' hm' (ht.child_ne_root hat ho)
      rw [descendFrom_of_known hn hterminal hexpanded hselect he hfound,
        descendFrom_of_terminal hm' hterminal', zero_add]
      exact ⟨_, _, _, _, rfl, hopen', m', hm', hterminal'⟩

/-- **An iteration from the only open node**: the reward of the selected action is recorded. -/
theorem exists_iterate_of_onlyRootOpen {config : SearchConfig K} (ht : t.WellFormed)
    (hopen : t.OnlyRootOpen) (hn : t.node? root = some n) (hterminal : n.terminal = false)
    (hexpanded : n.expanded = true) (hselect : n.select config.c config.selection = some a)
    (he : n.edges[a]? = some e) (hend : (env.step n.key a s).1.terminal = true)
    (hdepth : config.maxDepth ≠ 0) :
    ∃ i t' s', t.iterate env config s = (.ok i, t', s') ∧ t'.OnlyRootOpen ∧
      ∃ n', t'.node? root = some n' ∧ n'.bare = n.bare ∧ n'.expanded = true ∧
        n'.stats = n.stats.set a (e.stats.record (env.step n.key a s).1.reward) := by
  obtain ⟨levels, hlevels⟩ := Nat.exists_eq_succ_of_ne_zero hdepth
  obtain ⟨leaf, isNew, t₁, s₁, hd, hopen₁, m, hm, hmterminal⟩ :=
    exists_descend_of_onlyRootOpen ht hopen hn hterminal hexpanded hselect he hend levels
  rw [← Nat.succ_eq_add_one, ← hlevels] at hd
  generalize (env.step n.key a s).1.reward = x at hd
  -- the descent leaves the root as it was, but for the successors of the edge
  obtain ⟨_, -, hwalk⟩ := ((descend_eq_ok_iff ht).mp hd).walk
  obtain ⟨n₁, hn₁, hexpanded₁, hstats⟩ := hwalk.keepsStats hn hexpanded
  obtain ⟨n₂, hn₂, hbare⟩ := hwalk.keeps hn
  obtain rfl := Option.some.inj (hn₁.symm.trans hn₂)
  obtain ⟨e₁, he₁, hrecorded⟩ :=
    Node.getElem?_stats_eq_some_iff.mp (hstats ▸ Node.getElem?_stats he)
  have hi : t.iterate env config s = (.ok ⟨leaf, 1, x, 0, x⟩,
      t₁.setEdge root n₁ a (e₁.record x), s₁) := by
    rw [iterate]
    simp only [hd, hm, estimate, hmterminal, if_true, backpropagate, hn₁, he₁, add_zero]
    rfl
  refine ⟨_, _, _, hi, hopen₁.setNode_root hn₁, _, node?_setNode_self hn₁ _, hbare, hexpanded₁, ?_⟩
  rw [Node.stats_setIfInBounds, hstats, Edge.record, hrecorded]

/-- **What the tree looks like** after `j` iterations in a bandit, once the root has its edges: the
reward of an action was recorded as often as the action was taken, and all other nodes are
terminal. -/
structure Played (key k : ℕ) (r : ℕ → K) (best j : ℕ) (t : Tree K) : Prop where
  wellFormed : t.WellFormed
  root : ∃ n, t.node? root = some n ∧ n.key = key ∧ n.terminal = false ∧ n.expanded = true ∧
    n.stats = (List.range k).map fun a => .repeated (r a) (pulls k best j a)
  onlyRootOpen : t.OnlyRootOpen

/-- What is recorded of the actions after one more of them was taken. -/
theorem set_repeated (k best j : ℕ) (r : ℕ → K) :
    ((List.range k).map fun a => EdgeStats.repeated (r a) (pulls k best j a)).set (pulled k best j)
        (.record (.repeated (r (pulled k best j)) (pulls k best j (pulled k best j)))
          (r (pulled k best j))) =
      (List.range k).map fun a => .repeated (r a) (pulls k best (j + 1) a) := by
  refine List.ext_getElem (by simp) fun a ha ha' => ?_
  have hlt : a < k := by simpa using ha'
  rw [List.getElem_set, List.getElem_map, List.getElem_map, List.getElem_range, pulls_succ hlt]
  by_cases h : pulled k best j = a
  · rw [if_pos h, h, if_pos rfl, EdgeStats.repeated_succ]
  · rw [if_neg h, if_neg (Ne.symm h), Nat.add_zero]

variable {config : SearchConfig K}

/-- **One iteration more**: it keeps `Played`, with one action more taken. -/
theorem Played.iterate (h : Played key k r best j t) (hbandit : env.IsBandit key k r)
    (hbest : IsFirstGreatest ((List.range k).map r) best) (hc : config.c = 0)
    (hdepth : config.maxDepth ≠ 0) (s : σ) :
    ∃ i t' s', t.iterate env config s = (.ok i, t', s') ∧ Played key k r best (j + 1) t' := by
  obtain ⟨n, hn, rfl, hterminal, hexpanded, hstats⟩ := h.root
  have hpulled : pulled k best j < k := by
    have hlt : best < k := (isFirstGreatest_map_range_iff.mp hbest).1
    rw [pulled]
    split <;> assumption
  have hselect := Node.select_pulled hbest hstats config.selection
  rw [← hc] at hselect
  have hat : n.stats[pulled k best j]? =
      some (.repeated (r (pulled k best j)) (pulls k best j (pulled k best j))) := by
    rw [hstats, List.getElem?_map, List.getElem?_range hpulled, Option.map_some]
  obtain ⟨e, he, hrecorded⟩ := Node.getElem?_stats_eq_some_iff.mp hat
  obtain ⟨i, t', s', hi, hopen, n', hn', hbare, hexpanded', hstats'⟩ :=
    exists_iterate_of_onlyRootOpen h.wellFormed h.onlyRootOpen hn hterminal hexpanded hselect he
      (hbandit.ends _ hpulled s) hdepth
  have hkept := h.wellFormed.iterate env config s
  rw [hi] at hkept
  rw [hstats, hrecorded, hbandit.pays _ hpulled, set_repeated] at hstats'
  exact ⟨i, t', s', hi, hkept, ⟨n', hn', Node.key_eq_of_bare_eq hbare,
    (Node.terminal_eq_of_bare_eq hbare).trans hterminal, hexpanded', hstats'⟩, hopen⟩

/-! ### Runs -/

/-- **The first iteration** begins as if the root had had its edges before. -/
theorem exists_played_zero (hbandit : env.IsBandit key k r) (hk : k ≠ 0)
    (hdepth : config.maxDepth ≠ 0) (best : ℕ) (s : σ) :
    ∃ t s', Played key k r best 0 t ∧
      (ofRoot key false).iterate env config s = t.iterate env config s' := by
  have hn : (ofRoot key false : Tree K).node? root = some (.leaf key 0 none false) := rfl
  refine ⟨(ofRoot key false).setNode root ((Node.leaf key 0 none false).expand k),
    (env.actionCount key s).2, ⟨(wellFormed_ofRoot key false).setNode_expand hn rfl hk,
    ⟨_, node?_setNode_self hn _, rfl, rfl, rfl, ?_⟩, ?_⟩, ?_⟩
  · simp [Node.stats, Node.expand, Node.leaf, Edge.ofAction, pulls_zero, EdgeStats.repeated,
      Function.comp_def]
  · refine OnlyRootOpen.setNode_root (fun i m hm hi => ?_) hn
    exact absurd (eq_of_node?_ofRoot hm).1 hi
  · obtain ⟨levels, hlevels⟩ := Nat.exists_eq_succ_of_ne_zero hdepth
    have hdescend : ∀ c selection, (ofRoot key false).descend env c selection config.maxDepth s =
        ((ofRoot key false).setNode root ((Node.leaf key 0 none false).expand k)).descend env c
          selection config.maxDepth (env.actionCount key s).2 := by
      intro c selection
      rw [hlevels, descend, descend, ← hbandit.offers s]
      exact descendFrom_of_unexpanded hn rfl rfl (hbandit.offers s ▸ hk)
    rw [iterate, iterate, hdescend]

/-- Every iteration in a bandit succeeds, the first one as well. -/
theorem exists_iterate_of_bandit (hbandit : env.IsBandit key k r) (hk : k ≠ 0)
    (hbest : IsFirstGreatest ((List.range k).map r) best) (hc : config.c = 0)
    (hdepth : config.maxDepth ≠ 0) (h : j = 0 ∧ t = ofRoot key false ∨ Played key k r best j t)
    (s : σ) :
    ∃ i t' s', t.iterate env config s = (.ok i, t', s') ∧ Played key k r best (j + 1) t' := by
  rcases h with ⟨rfl, rfl⟩ | h
  · obtain ⟨t, s', hzero, hi⟩ := exists_played_zero hbandit hk hdepth best s
    rw [hi]
    exact hzero.iterate hbandit hbest hc hdepth s'
  · exact h.iterate hbandit hbest hc hdepth s

section Run

variable {τ : Type} {clock : StateM τ ℕ} {began left total : ℕ} {metrics : RunMetrics K}
  {log : List (Iteration K)} {time : τ}

/-- **What the tree looks like after a run** in a bandit, which fails only by its time budget:
`Played`, as often as iterations were completed. -/
theorem run_played (hbandit : env.IsBandit key k r) (hk : k ≠ 0)
    (hbest : IsFirstGreatest ((List.range k).map r) best) (hc : config.c = 0)
    (hdepth : config.maxDepth ≠ 0) (clock : StateM τ ℕ) (s : σ) (time : τ) :
    Ends (fun metrics _ t _ =>
        metrics.completed = 0 ∧ t = ofRoot key false ∨ Played key k r best metrics.completed t)
      (fun _ _ => config.timeBudget ≠ none)
      (((ofRoot key false).run clock env config s).run time).1 := by
  rw [run, run_bind]
  refine runFrom_induction (fun _ _ _ _ h => h) ?_ ?_ ?_ (Or.inl ⟨rfl, rfl⟩)
  · intro _ _ _ _ seconds _ hbudget _
    simp [hbudget]
  · intro metrics log t s i t' s' h hi
    obtain ⟨_, _, _, hi', hplayed⟩ := exists_iterate_of_bandit hbandit hk hbest hc hdepth h s
    rw [hi] at hi'
    obtain ⟨-, hrest⟩ := Prod.mk.inj hi'
    obtain ⟨rfl, -⟩ := Prod.mk.inj hrest
    exact Or.inr hplayed
  · intro metrics log t s cause t' s' h hi
    obtain ⟨_, _, _, hi', -⟩ := exists_iterate_of_bandit hbandit hk hbest hc hdepth h s
    rw [hi] at hi'
    exact absurd (Prod.mk.inj hi').1 (by simp)

/-- Without a time budget `runFrom` does all its iterations, unless it fails. -/
theorem runFrom_completed (hbudget : config.timeBudget = none)
    (htotal : metrics.completed + left = total) :
    Ends (fun metrics _ _ _ => metrics.completed = total) (fun _ _ => True)
      ((runFrom clock began env config left metrics log t s).run time).1 := by
  induction left generalizing metrics log t s time with
  | zero => exact htotal
  | succ left ih =>
      rw [run_runFrom_succ, hbudget]
      simp only [outOfTime]
      rcases t.iterate env config s with ⟨_ | i, t', s'⟩
      · trivial
      · refine ih ?_
        change metrics.completed + 1 + left = total
        omega

end Run

/-! ### Reports -/

/-- **What is reported of the root** by `rootEdges` after every action was taken. -/
theorem Played.rootEdges_eq (h : Played key k r best j t) (hj : k ≤ j) :
    t.rootEdges = .ok ((List.range k).map fun a => ⟨a, pulls k best j a, r a, r a⟩) := by
  obtain ⟨n, hn, -, -, -, hstats⟩ := h.root
  have hsize : n.edges.size = k := by
    have hlength := congrArg List.length hstats
    simpa [Node.stats] using hlength
  have hzip : n.edges.toList.map
      (fun e => (⟨e.action, e.stats.visits, e.stats.q, e.stats.best⟩ : RootEdge K)) =
        List.zipWith (fun a s => ⟨a, s.visits, s.q, s.best⟩) (n.edges.toList.map (·.action))
          n.stats := by
    rw [Node.stats, List.zipWith_map, List.zipWith_self]
  rw [rootEdges, hn]
  simp only [hzip]
  rw [h.wellFormed.map_action_eq_range hn, hsize, hstats, List.zipWith_map_right,
    List.zipWith_self]
  refine congrArg Except.ok (List.map_congr_left fun a ha => ?_)
  have hne : pulls k best j a ≠ 0 :=
    (pulls_pos ((List.mem_range.mp ha).trans_le hj) k best).ne'
  have hq : (EdgeStats.repeated (r a) (pulls k best j a)).q = r a :=
    EdgeStats.value_repeated _ hne .avg
  have hgreatest : (EdgeStats.repeated (r a) (pulls k best j a)).best = r a :=
    EdgeStats.value_repeated _ hne .max
  rw [EdgeStats.visits_repeated, hq, hgreatest]

/-- Of edges that are listed by their actions, `pickBest` gives the first one with the greatest
value. -/
theorem pickBest_reports {value : RootEdge K → K} {edge : ℕ → RootEdge K}
    (haction : ∀ a, (edge a).action = a)
    (hbest : IsFirstGreatest ((List.range k).map fun a => value (edge a)) best) :
    (pickBest value none ((List.range k).map edge)).map Prod.fst = some best := by
  have hlt : best < k := (isFirstGreatest_map_range_iff.mp hbest).1
  rw [← Function.comp_def, ← List.map_map] at hbest
  rw [pickBest_eq_some hbest]
  simp [hlt, haction]

/-- **The best action is reported by value**: `bestByValue` gives it, whichever value it goes by. -/
theorem Played.bestByValue_eq (h : Played key k r best j t)
    (hbest : IsFirstGreatest ((List.range k).map r) best) (hj : k ≤ j) (selection : Selection) :
    t.bestByValue selection = .ok (some best) := by
  unfold bestByValue
  rw [h.rootEdges_eq hj]
  cases selection with
  | avg => exact congrArg Except.ok (pickBest_reports (fun _ => rfl) hbest)
  | max => exact congrArg Except.ok (pickBest_reports (fun _ => rfl) hbest)

/-- **The best action is reported by visits**: `bestByVisits` gives it as soon as it was taken
twice. -/
theorem Played.bestByVisits_eq (h : Played key k r best j t)
    (hbest : IsFirstGreatest ((List.range k).map r) best) (hj : k < j) :
    t.bestByVisits = .ok (some best) := by
  rw [bestByVisits, h.rootEdges_eq hj.le]
  refine congrArg Except.ok (pickBest_reports (fun _ => rfl) ?_)
  have hlt : best < k := (isFirstGreatest_map_range_iff.mp hbest).1
  have hvisits : ∀ a < k, a ≠ best → pulls k best j a < pulls k best j best := by
    intro a ha hne
    rw [pulls_of_le hj.le ha, pulls_of_le hj.le hlt, if_neg hne, if_pos rfl]
    omega
  refine isFirstGreatest_map_range_iff.mpr ⟨hlt, fun a ha => ?_, fun a ha => ?_⟩
  · rcases eq_or_ne a best with rfl | hne
    · exact le_rfl
    · exact Nat.cast_le.mpr (hvisits a ha hne).le
  · exact Nat.cast_lt.mpr (hvisits a (ha.trans hlt) ha.ne)

/-- **A search that explores nothing solves every bandit.** Let an environment offer `k` actions at
the root, each of which pays its reward and ends all. There is one first action with the greatest
reward. A run without a time budget does all its iterations; and after any run of at least `k`
iterations this action was taken in all of them but the first ones of the others, every other action
was taken once, the mean and the greatest return of every action are its reward, and the first best
action is reported by value, whichever value it goes by. With more than `k` iterations it is also
reported by visits. -/
theorem greedy_run_of_bandit (hk : 1 ≤ k) (hbandit : env.IsBandit key k r) (hc : config.c = 0)
    (hdepth : config.maxDepth ≠ 0) :
    ∃ best < k, (∀ a < k, r a ≤ r best) ∧ (∀ a < best, r a < r best) ∧
      ∀ {τ : Type} (clock : StateM τ ℕ) (s : σ) (time : τ),
        (config.timeBudget = none → ∃ metrics its t' s',
          (((ofRoot key false).run clock env config s).run time).1 = (.ok (metrics, its), t', s') ∧
            metrics.completed = config.iterations) ∧
        ∀ metrics its t' s',
          (((ofRoot key false).run clock env config s).run time).1 = (.ok (metrics, its), t', s') →
            k ≤ metrics.completed →
              t'.rootEdges = .ok ((List.range k).map fun a =>
                ⟨a, if a = best then metrics.completed - k + 1 else 1, r a, r a⟩) ∧
              (∀ selection, t'.bestByValue selection = .ok (some best)) ∧
              (k < metrics.completed → t'.bestByVisits = .ok (some best)) := by
  obtain ⟨best, hbest⟩ := exists_isFirstGreatest
    (show (List.range k).map r ≠ [] by simpa using Nat.ne_of_gt hk)
  obtain ⟨hlt, hle, hfirst⟩ := isFirstGreatest_map_range_iff.mp hbest
  refine ⟨best, hlt, hle, hfirst, fun {τ} clock s time => ?_⟩
  have hends := run_played hbandit (Nat.ne_of_gt hk) hbest hc hdepth clock s time
  constructor
  · intro hbudget
    have hcompleted : Ends (fun metrics _ _ _ => metrics.completed = config.iterations)
        (fun _ _ => True) (((ofRoot key false).run clock env config s).run time).1 := by
      rw [run, run_bind]
      exact runFrom_completed hbudget (Nat.zero_add _)
    rcases hrun : (((ofRoot key false).run clock env config s).run time).1 with
      ⟨cause | ⟨metrics, its⟩, t', s'⟩
    · rw [hrun] at hends
      exact absurd hbudget hends
    · rw [hrun] at hcompleted
      exact ⟨metrics, its, t', s', rfl, hcompleted⟩
  · intro metrics its t' s' hrun hcompleted
    rw [hrun] at hends
    obtain h | h := hends
    · omega
    · refine ⟨(h.rootEdges_eq hcompleted).trans ?_, h.bestByValue_eq hbest hcompleted,
        h.bestByVisits_eq hbest⟩
      refine congrArg Except.ok (List.map_congr_left fun a ha => ?_)
      rw [pulls_of_le hcompleted (List.mem_range.mp ha)]

attribute [local instance] Elementary.standIn

/-- A machine with three levers, of which the last two pay the same and the first one costs. -/
def levers : Environment Unit ℚ where
  actionCount _ _ := (3, ())
  step _ action _ := (⟨action + 1, if action = 0 then -1 else 2, true⟩, ())
  choose _ _ _ := (0, ())

/-- The machine is a bandit with these returns. -/
theorem isBandit_levers : levers.IsBandit 0 3 fun a => if a = 0 then -1 else 2 :=
  ⟨fun _ => rfl, fun _ _ _ => rfl, fun _ _ _ => rfl⟩

/-- Five iterations that explore nothing, and one step each. -/
def fiveGreedy : SearchConfig ℚ := ⟨5, none, 0, 1, 1, .discounted, 1, .max⟩

/-- Five pulls at the levers: one each, and two more at the first of the best ones. -/
theorem greedy_run_of_bandit_levers : ∃ metrics its t' s',
    (((ofRoot 0 false).run (pure 0 : StateM Unit ℕ) levers fiveGreedy ()).run ()).1 =
        (.ok (metrics, its), t', s') ∧ metrics.completed = 5 ∧
      t'.rootEdges = .ok [⟨0, 1, -1, -1⟩, ⟨1, 3, 2, 2⟩, ⟨2, 1, 2, 2⟩] ∧
      t'.bestByVisits = .ok (some 1) := by
  obtain ⟨best, hlt, hle, hfirst, hrun⟩ :=
    greedy_run_of_bandit (by decide) isBandit_levers (show fiveGreedy.c = 0 from rfl) (by decide)
  obtain rfl : best = 1 := by
    obtain rfl | rfl | rfl : best = 0 ∨ best = 1 ∨ best = 2 := by omega
    · exact absurd (hle 1 (by decide)) (by norm_num)
    · rfl
    · exact absurd (hfirst 1 (by decide)) (by norm_num)
  obtain ⟨hends, hreports⟩ := hrun (pure 0 : StateM Unit ℕ) () ()
  obtain ⟨metrics, its, t', s', heq, hcompleted⟩ := hends rfl
  have hcompleted : metrics.completed = 5 := hcompleted
  obtain ⟨hedges, -, hvisits⟩ := hreports metrics its t' s' heq (by omega)
  rw [hcompleted] at hedges
  refine ⟨metrics, its, t', s', heq, hcompleted, hedges, hvisits (by omega)⟩

end Tree

end DurativePlanning
