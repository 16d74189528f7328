import DurativePlanning.Proofs.Checks
import DurativePlanning.Proofs.Search.Count
import DurativePlanning.Search.Iteration

/-!
# Trees That Grow

A tree is grown by descents, iterations and runs, in any order, with any settings, and in
environments that may answer as they like. However it is grown, its nodes and edges agree with each
other, so that nothing a search looks up in its tree is ever missing: the only error left is an
environment that chooses an action which it does not offer.

* `Tree.Grown`: the trees that are grown from a root.
* `Tree.iterate_cases`: what one iteration does, once for all later modules.
* `Tree.iterate_induction`: what one iteration keeps, from what walks and records keep.
* `Tree.runFrom_induction`: what holds at the end of a run, from what its iterations keep.
* `Tree.Grown.keeps`: what holds of every grown tree, from what descents and iterations keep.
* `Tree.shape_of_grown`: all of it, with the errors that remain.
-/

namespace DurativePlanning

variable {σ α : Type} [SearchArithmetic α]

/-! ### Rollouts -/

/-- **A rollout fails only by the choice of its environment**: an action is chosen that the state
does not offer. -/
theorem walk_error {env : Environment σ α} {decay : α} {steps state : ℕ} {total weight : α} {s : σ}
    {cause : TreeError} (h : (walk env decay steps state total weight s).1 = .error cause) :
    ∃ state available s', available ≠ 0 ∧ available ≤ (env.choose state available s').1 ∧
      cause = .invalidRolloutAction state (env.choose state available s').1 available := by
  induction steps generalizing state total weight s with
  | zero => exact absurd h (by simp [walk])
  | succ steps ih =>
      by_cases hcount : (env.actionCount state s).1 = 0
      · simp [walk, hcount] at h
      · by_cases hchoice : (env.choose state (env.actionCount state s).1
          (env.actionCount state s).2).1 < (env.actionCount state s).1
        · simp only [walk, hcount, hchoice, if_true, if_false] at h
          split at h
          · exact absurd h (by simp)
          · exact ih h
        · simp only [walk, hcount, hchoice, if_false] at h
          exact ⟨state, _, _, hcount, Nat.le_of_not_lt hchoice, (Except.error.inj h).symm⟩

namespace Tree

variable {t t' : Tree α}

/-! ### Backing up a return -/

/-- What recording a return at one edge keeps, `backpropagate` keeps, also when it fails. -/
theorem backpropagate_induction {P : Tree α → Prop} {x : α}
    (hrecord : ∀ t i a n e, P t → t.node? i = some n → n.edges[a]? = some e →
      P (t.setEdge i n a (e.record x))) (path : List (ℕ × ℕ)) (h : P t) :
    P (t.backpropagate x path).2 := by
  induction path generalizing t with
  | nil => exact h
  | cons step rest ih =>
      obtain ⟨i, a⟩ := step
      rw [Tree.backpropagate]
      split
      · exact h
      · next n hn =>
        split
        · exact h
        · next e he => exact ih (hrecord t i a n e h hn he)

/-- `backpropagate` keeps the shape of the tree, also when it fails. -/
theorem WellFormed.backpropagate (ht : t.WellFormed) (x : α) (path : List (ℕ × ℕ)) :
    (t.backpropagate x path).2.WellFormed :=
  backpropagate_induction (fun _ _ _ _ e ht hn he =>
    ht.setEdge hn he rfl rfl (ht.counted (e := e) ((edge?_of_node? hn _).trans he))) path ht

/-- `backpropagate` keeps the count of the nodes, also when it fails. -/
theorem Counted.backpropagate (hcount : t.Counted) (x : α) (path : List (ℕ × ℕ)) :
    (t.backpropagate x path).2.Counted :=
  backpropagate_induction (P := Counted) (fun _ _ _ _ _ hcount hn he => hcount.setEdge hn he rfl)
    path hcount

/-- `backpropagate` along edges of the tree succeeds. -/
theorem exists_backpropagate {path : List (ℕ × ℕ)}
    (hpath : ∀ y ∈ path, ∃ e, t.edge? y.1 y.2 = some e) (x : α) :
    ∃ t', t.backpropagate x path = (.ok (), t') := by
  induction path generalizing t with
  | nil => exact ⟨t, rfl⟩
  | cons step rest ih =>
      obtain ⟨i, a⟩ := step
      rw [List.forall_mem_cons] at hpath
      obtain ⟨⟨e, he⟩, hrest⟩ := hpath
      obtain ⟨n, hn, he⟩ := edge?_eq_some_iff.mp he
      rw [Tree.backpropagate]
      simp only [hn, he]
      refine ih fun y hy => ?_
      obtain ⟨e', he'⟩ := hrest y hy
      have hkept : KeepsLinks t (t.setEdge i n a (e.record x)) :=
        keepsLinks_setEdge hn he (List.Subset.refl _)
      obtain ⟨e'', he'', -⟩ := hkept he'
      exact ⟨e'', he''⟩

/-- Backing up a return keeps the nodes and the edges of the tree, and where they lead. -/
theorem keeps_backpropagate (x : α) (path : List (ℕ × ℕ)) :
    Keeps t (t.backpropagate x path).2 ∧ KeepsLinks t (t.backpropagate x path).2 :=
  backpropagate_induction (P := fun t' => Keeps t t' ∧ KeepsLinks t t')
    (fun _ _ a _ _ h hn he => ⟨h.1.trans (keeps_setEdge hn a _),
      h.2.trans (keepsLinks_setEdge hn he (List.Subset.refl _))⟩)
    path ⟨.refl t, .refl t⟩

/-! ### Iterations -/

/-- **What one iteration does.** Its descent succeeds, and is a walk from the root. Then either the
rollout fails by the choice of its environment and the tree stays as the descent left it, or the
whole return is backed up along the path of the descent. -/
theorem iterate_cases (ht : t.WellFormed) (env : Environment σ α) (config : SearchConfig α)
    (s : σ) :
    ∃ d t₁ s₁, t.descend env config.c config.selection config.maxDepth s = (.ok d, t₁, s₁) ∧
      Walk t root d.path d.leaf t₁ ∧
      ((∃ state available s' s₂, available ≠ 0 ∧ available ≤ (env.choose state available s').1 ∧
          t.iterate env config s = (.error (.invalidRolloutAction state
            (env.choose state available s').1 available), t₁, s₂)) ∨
        ∃ r t₂ s₂, t₁.backpropagate (d.reward + r) d.path = (.ok (), t₂) ∧
          t.iterate env config s =
            (.ok ⟨d.leaf, d.path.length, d.reward, r, d.reward + r⟩, t₂, s₂)) := by
  obtain ⟨d, t₁, s₁, hd, hwalk, -⟩ :=
    descend_walk ht env config.c config.selection config.maxDepth s
  obtain ⟨n, hn, -⟩ := ht.root
  obtain ⟨m, hm, -⟩ := hwalk.exists_leaf ht hn
  refine ⟨d, t₁, s₁, hd, hwalk, ?_⟩
  rcases hestimate : estimate env config m s₁ with ⟨estimated, s₂⟩
  cases estimated with
  | error cause =>
      have herror : (estimate env config m s₁).1 = .error cause := by rw [hestimate]
      rw [estimate] at herror
      split at herror
      · exact absurd herror (by simp)
      · obtain ⟨state, available, s', hcount, hchoice, rfl⟩ := walk_error herror
        refine Or.inl ⟨state, available, s', s₂, hcount, hchoice, ?_⟩
        rw [iterate]
        simp only [hd, hm, hestimate]
  | ok r =>
      obtain ⟨t₂, ht₂⟩ := exists_backpropagate (hwalk.exists_edge? ht) (d.reward + r)
      refine Or.inr ⟨r, t₂, s₂, ht₂, ?_⟩
      rw [iterate]
      simp only [hd, hm, hestimate, ht₂]

/-- **What walks and records keep** `iterate` keeps, also when it fails. -/
theorem iterate_induction {P : Tree α → Prop} (ht : t.WellFormed) (env : Environment σ α)
    (config : SearchConfig α) (s : σ)
    (hwalk : ∀ d t₁ s₁, t.descend env config.c config.selection config.maxDepth s =
      (.ok d, t₁, s₁) → Walk t root d.path d.leaf t₁ → P t₁)
    (hback : ∀ t₁ x path, P t₁ → P (t₁.backpropagate x path).2) :
    P (t.iterate env config s).2.1 := by
  obtain ⟨d, t₁, s₁, hd, hfollowed, ⟨_, _, _, s₂, -, -, h⟩ | ⟨r, t₂, s₂, ht₂, h⟩⟩ :=
    iterate_cases ht env config s
  · rw [h]
    exact hwalk d t₁ s₁ hd hfollowed
  · have hkept := hback t₁ (d.reward + r) d.path (hwalk d t₁ s₁ hd hfollowed)
    rw [ht₂] at hkept
    rw [h]
    exact hkept

/-- `iterate` keeps the shape of the tree, also when it fails. -/
theorem WellFormed.iterate (ht : t.WellFormed) (env : Environment σ α) (config : SearchConfig α)
    (s : σ) : (t.iterate env config s).2.1.WellFormed :=
  iterate_induction ht env config s (fun _ _ _ _ hwalk => hwalk.wellFormed ht)
    fun _ x path h => h.backpropagate x path

/-- `iterate` keeps the count of the nodes, also when it fails. -/
theorem Counted.iterate (hcount : t.Counted) (ht : t.WellFormed) (env : Environment σ α)
    (config : SearchConfig α) (s : σ) : (t.iterate env config s).2.1.Counted :=
  iterate_induction (P := Counted) ht env config s (fun _ _ _ _ hwalk => hcount.walk hwalk ht)
    fun _ x path h => h.backpropagate x path

/-- An iteration keeps the nodes and the edges of the tree, and where they lead, and the edges of
its path are among them afterwards. -/
theorem WellFormed.keeps_iterate (ht : t.WellFormed) (env : Environment σ α)
    (config : SearchConfig α) (s : σ) :
    Keeps t (t.iterate env config s).2.1 ∧ KeepsLinks t (t.iterate env config s).2.1 ∧
      ∀ d, (t.descend env config.c config.selection config.maxDepth s).1 = .ok d → ∀ x ∈ d.path,
        ∃ e, (t.iterate env config s).2.1.edge? x.1 x.2 = some e := by
  refine iterate_induction (P := fun t' => Keeps t t' ∧ KeepsLinks t t' ∧ ∀ d, (t.descend env
      config.c config.selection config.maxDepth s).1 = .ok d → ∀ x ∈ d.path,
        ∃ e, t'.edge? x.1 x.2 = some e) ht env config s ?_ ?_
  · intro d t₁ s₁ hd hwalk
    refine ⟨hwalk.keeps, hwalk.keepsLinks ht, fun d' hd' => ?_⟩
    rw [hd] at hd'
    obtain rfl := Except.ok.inj hd'
    exact hwalk.exists_edge? ht
  · intro t₁ r path ⟨hkeeps, hlinks, hpath⟩
    obtain ⟨hkeeps', hlinks'⟩ := keeps_backpropagate (t := t₁) r path
    refine ⟨hkeeps.trans hkeeps', hlinks.trans hlinks', fun d hd x hx => ?_⟩
    obtain ⟨e, he⟩ := hpath d hd x hx
    obtain ⟨e', he', -⟩ := hlinks' he
    exact ⟨e', he'⟩

/-- `iterate` fails only by the choice of its environment. -/
theorem WellFormed.iterate_error (ht : t.WellFormed) {env : Environment σ α}
    {config : SearchConfig α} {s : σ} {cause : TreeError}
    (h : (t.iterate env config s).1 = .error cause) :
    ∃ state available s', available ≠ 0 ∧ available ≤ (env.choose state available s').1 ∧
      cause = .invalidRolloutAction state (env.choose state available s').1 available := by
  obtain ⟨d, t₁, s₁, -, -, ⟨state, available, s', s₂, hcount, hchoice, he⟩ | ⟨_, _, _, -, he⟩⟩ :=
    iterate_cases ht env config s
  · rw [he] at h
    exact ⟨state, available, s', hcount, hchoice, (Except.error.inj h).symm⟩
  · rw [he] at h
    exact absurd h (by simp)

/-! ### Runs -/

section Run

variable {τ : Type} {clock : StateM τ ℕ} {env : Environment σ α} {config : SearchConfig α}
  {began left : ℕ} {metrics : RunMetrics α} {log : List (Iteration α)} {s : σ} {time : τ}

/-- `outOfTime` fails only for a budget for which `nanosecondsOf?` gives nothing. -/
theorem outOfTime_error {budget : Option Float} {elapsed : ℕ} {cause : SearchError}
    (h : outOfTime budget elapsed = .error cause) :
    ∃ seconds, budget = some seconds ∧ nanosecondsOf? seconds = none ∧
      cause = .unusableTime seconds := by
  cases budget with
  | none => exact absurd h (by simp [outOfTime])
  | some seconds =>
      simp only [outOfTime] at h
      split at h
      · next hnone => exact ⟨seconds, rfl, hnone, (Except.error.inj h).symm⟩
      · exact absurd h (by simp)

/-- A run reads its clock and then stops, fails, or goes on with one iteration less. -/
theorem run_runFrom_succ :
    (runFrom clock began env config (left + 1) metrics log t s).run time =
      match outOfTime config.timeBudget ((clock.run time).1 - began) with
      | .error cause => ((.error cause, t, s), (clock.run time).2)
      | .ok true =>
        ((.ok ({ metrics with stoppedByTime := true }, log.reverse), t, s), (clock.run time).2)
      | .ok false =>
        match t.iterate env config s with
        | (.error cause, t, s) => ((.error (.tree cause), t, s), (clock.run time).2)
        | (.ok i, t, s) =>
          (runFrom clock began env config left (metrics.record i) (i :: log) t s).run
            (clock.run time).2 := by
  rw [runFrom, run_bind]
  rcases outOfTime config.timeBudget ((clock.run time).1 - began) with cause | (_ | _)
  · rfl
  · rcases t.iterate env config s with ⟨_ | _, _, _⟩ <;> rfl
  · rfl

/-- What holds at the end of a run: `P` of its totals, its log, the last iteration first, the tree
and the hidden state, or `Q` of its fault and the tree. -/
def Ends (P : RunMetrics α → List (Iteration α) → Tree α → σ → Prop)
    (Q : SearchError → Tree α → Prop) :
    Except SearchError (RunMetrics α × List (Iteration α)) × Tree α × σ → Prop
  | (.ok (metrics, log), t, s) => P metrics log.reverse t s
  | (.error cause, t, _) => Q cause t

/-- **What every iteration keeps** holds at the end of a run: `P` of what the run carries along
while it goes on, and `Q` of a tree at which it fails. -/
theorem runFrom_induction {P : RunMetrics α → List (Iteration α) → Tree α → σ → Prop}
    {Q : SearchError → Tree α → Prop}
    (htime : ∀ metrics log t s, P metrics log t s →
      P { metrics with stoppedByTime := true } log t s)
    (hclock : ∀ metrics log t s seconds, P metrics log t s → config.timeBudget = some seconds →
      nanosecondsOf? seconds = none → Q (.unusableTime seconds) t)
    (hstep : ∀ metrics log t s i t' s', P metrics log t s →
      t.iterate env config s = (.ok i, t', s') → P (metrics.record i) (i :: log) t' s')
    (hfail : ∀ metrics log t s cause t' s', P metrics log t s →
      t.iterate env config s = (.error cause, t', s') → Q (.tree cause) t')
    (h : P metrics log t s) :
    Ends P Q ((runFrom clock began env config left metrics log t s).run time).1 := by
  induction left generalizing t metrics log s time with
  | zero =>
      change P metrics log.reverse.reverse t s
      rwa [List.reverse_reverse]
  | succ left ih =>
      rw [run_runFrom_succ]
      cases hover : outOfTime config.timeBudget ((clock.run time).1 - began) with
      | error cause =>
          obtain ⟨seconds, hbudget, hnone, rfl⟩ := outOfTime_error hover
          exact hclock metrics log t s seconds h hbudget hnone
      | ok late =>
          cases late with
          | true =>
              change P { metrics with stoppedByTime := true } log.reverse.reverse t s
              rw [List.reverse_reverse]
              exact htime metrics log t s h
          | false =>
              rcases hi : t.iterate env config s with ⟨cause | i, t', s'⟩
              · exact hfail metrics log t s cause t' s' h hi
              · exact ih (hstep metrics log t s i t' s' h hi)

end Run

/-! ### Trees that are grown -/

/-- **The trees that a search can grow**: from a root, by descents, iterations and runs in any
order, each with settings, an environment, a hidden state and a clock of its own. Descents,
iterations and runs that fail count as well. -/
inductive Grown : Tree α → Prop
  | fresh (key : ℕ) (terminal : Bool) : Grown (.ofRoot key terminal)
  | descend {σ : Type} {t : Tree α} (env : Environment σ α) (c : α) (selection : Selection)
      (maxDepth : ℕ) (s : σ) : Grown t → Grown (t.descend env c selection maxDepth s).2.1
  | iterate {σ : Type} {t : Tree α} (env : Environment σ α) (config : SearchConfig α) (s : σ) :
      Grown t → Grown (t.iterate env config s).2.1
  | run {σ τ : Type} {t : Tree α} (clock : StateM τ ℕ) (env : Environment σ α)
      (config : SearchConfig α) (s : σ) (time : τ) :
      Grown t → Grown ((t.run clock env config s).run time).1.2.1

/-- What holds at the end of a run that began with a tree of the right shape. -/
theorem run_shape (ht : t.WellFormed) (hcount : t.Counted) {τ : Type} (clock : StateM τ ℕ)
    (env : Environment σ α) (config : SearchConfig α) (s : σ) (time : τ) :
    Ends (fun _ _ t _ => t.WellFormed ∧ t.Counted)
      (fun cause t => (t.WellFormed ∧ t.Counted) ∧ ∀ fault, cause = .tree fault →
        ∃ state action available, fault = .invalidRolloutAction state action available)
      ((t.run clock env config s).run time).1 := by
  rw [run, run_bind]
  refine runFrom_induction (fun _ _ _ _ h => h)
    (fun _ _ _ _ _ h _ _ => ⟨h, fun _ h => absurd h (by simp)⟩) ?_ ?_ ⟨ht, hcount⟩
  · intro metrics log t s i t' s' h hi
    have hkeep := And.intro (h.1.iterate env config s) (h.2.iterate h.1 env config s)
    rwa [hi] at hkeep
  · intro metrics log t s cause t' s' h hi
    have hkeep := And.intro (h.1.iterate env config s) (h.2.iterate h.1 env config s)
    rw [hi] at hkeep
    refine ⟨hkeep, fun fault hfault => ?_⟩
    obtain rfl := SearchError.tree.inj hfault
    obtain ⟨state, available, s', -, -, h⟩ := h.1.iterate_error (congrArg Prod.fst hi)
    exact ⟨state, _, available, h⟩

/-- **A run ends with a tree whose nodes can be read** when `choose` gives only what is offered,
unless the time budget has no form in nanoseconds. -/
theorem run_ends (ht : t.WellFormed) {τ : Type} (clock : StateM τ ℕ) {env : Environment σ α}
    (config : SearchConfig α)
    (hchoice : ∀ state available s, available ≠ 0 → (env.choose state available s).1 < available)
    (s : σ) (time : τ) :
    Ends (fun _ _ t _ => t.WellFormed)
      (fun cause _ => ∃ seconds, config.timeBudget = some seconds ∧
        nanosecondsOf? seconds = none ∧ cause = .unusableTime seconds)
      ((t.run clock env config s).run time).1 := by
  rw [run, run_bind]
  refine runFrom_induction (fun _ _ _ _ h => h)
    (fun _ _ _ _ seconds _ hbudget hnone => ⟨seconds, hbudget, hnone, rfl⟩) ?_ ?_ ht
  · intro metrics log t s i t' s' ht hi
    have hkeep := ht.iterate env config s
    rwa [hi] at hkeep
  · intro metrics log t s cause t' s' ht hi
    obtain ⟨state, available, s', havailable, hle, -⟩ := ht.iterate_error (congrArg Prod.fst hi)
    exact absurd (hchoice state available s' havailable) (Nat.not_lt.mpr hle)

/-- A run whose time budget has no form in nanoseconds fails with `unusableTime` before its first
iteration. -/
theorem run_of_unusable {τ : Type} (clock : StateM τ ℕ) (env : Environment σ α)
    {config : SearchConfig α} (hiterations : config.iterations ≠ 0) {seconds : Float}
    (hbudget : config.timeBudget = some seconds) (hnone : nanosecondsOf? seconds = none) (s : σ)
    (time : τ) :
    ((t.run clock env config s).run time).1 = (.error (.unusableTime seconds), t, s) := by
  obtain ⟨left, hleft⟩ := Nat.exists_eq_succ_of_ne_zero hiterations
  have hover : ∀ elapsed, outOfTime config.timeBudget elapsed = .error (.unusableTime seconds) := by
    intro elapsed
    rw [hbudget]
    simp only [outOfTime, hnone]
  rw [run, run_bind, hleft, run_runFrom_succ, hover]

/-- **What descents and iterations keep** holds of every grown tree, besides its shape. -/
theorem Grown.keeps {P : Tree α → Prop} (hfresh : ∀ key terminal, P (.ofRoot key terminal))
    (hdescend : ∀ {σ : Type} {t : Tree α} (env : Environment σ α) (c : α) (selection : Selection)
      (maxDepth : ℕ) (s : σ), t.WellFormed → P t → P (t.descend env c selection maxDepth s).2.1)
    (hiterate : ∀ {σ : Type} {t : Tree α} (env : Environment σ α) (config : SearchConfig α) (s : σ),
      t.WellFormed → P t → P (t.iterate env config s).2.1)
    (h : t.Grown) : t.WellFormed ∧ P t := by
  induction h with
  | fresh key terminal => exact ⟨wellFormed_ofRoot key terminal, hfresh key terminal⟩
  | descend env c selection maxDepth s _ ih =>
      have hkept := hdescend env c selection maxDepth s ih.1 ih.2
      obtain ⟨d, t', s', hd, hwalk, -⟩ := descend_walk ih.1 env c selection maxDepth s
      rw [hd] at hkept ⊢
      exact ⟨hwalk.wellFormed ih.1, hkept⟩
  | iterate env config s _ ih => exact ⟨ih.1.iterate env config s, hiterate env config s ih.1 ih.2⟩
  | @run σ τ t clock env config s time _ ih =>
      have hkeep : ∀ {t : Tree α} (s : σ), t.WellFormed ∧ P t →
          (t.iterate env config s).2.1.WellFormed ∧ P (t.iterate env config s).2.1 :=
        fun s h => ⟨h.1.iterate env config s, hiterate env config s h.1 h.2⟩
      have hends : Ends (fun _ _ t _ => t.WellFormed ∧ P t) (fun _ t => t.WellFormed ∧ P t)
          ((t.run clock env config s).run time).1 := by
        rw [Tree.run, run_bind]
        refine runFrom_induction (fun _ _ _ _ h => h) (fun _ _ _ _ _ h _ _ => h) ?_ ?_ ih
        · intro metrics log t s i t' s' h hi
          have hkept := hkeep s h
          rwa [hi] at hkept
        · intro metrics log t s cause t' s' h hi
          have hkept := hkeep s h
          rwa [hi] at hkept
      rcases hrun : (t.run clock env config s).run time with ⟨⟨_ | _, t', s'⟩, time'⟩
      · rwa [hrun] at hends
      · rwa [hrun] at hends

/-- **A grown tree has its shape**: it is `WellFormed`, and `Counted`. -/
theorem Grown.shape (h : t.Grown) : t.WellFormed ∧ t.Counted := by
  refine h.keeps (fun _ _ => rfl) ?_ fun env config s ht hcount => hcount.iterate ht env config s
  intro σ t env c selection maxDepth s ht hcount
  obtain ⟨d, t', s', hd, hwalk, -⟩ := descend_walk ht env c selection maxDepth s
  rw [hd]
  exact hcount.walk hwalk ht

/-- **The shape of a search tree**, however it is grown. The root, the parents and the successors
agree with each other; the edges of a node are numbered in order, and a node has some exactly when
it was expanded; and all nodes but the root can be counted at the edges. So no descent fails, and an
iteration fails only by an environment that chooses what it does not offer; a run may also fail by a
time limit that has no form in nanoseconds. -/
theorem shape_of_grown (h : t.Grown) :
    t.WellFormed ∧
    (∀ i n, t.node? i = some n → n.edges.toList.map (·.action) = List.range n.edges.size) ∧
    t.size = 1 + (t.nodes.toList.map fun n => (n.edges.toList.map (·.outcomes.length)).sum).sum ∧
    (∀ {σ : Type} (env : Environment σ α) (c : α) (selection : Selection) (maxDepth : ℕ) (s : σ),
      ∃ d, (t.descend env c selection maxDepth s).1 = .ok d) ∧
    (∀ {σ : Type} (env : Environment σ α) (config : SearchConfig α) (s : σ) (cause : TreeError),
      (t.iterate env config s).1 = .error cause →
        ∃ state action available, available ≠ 0 ∧ available ≤ action ∧
          cause = .invalidRolloutAction state action available) ∧
    ∀ {σ τ : Type} (clock : StateM τ ℕ) (env : Environment σ α) (config : SearchConfig α) (s : σ)
      (time : τ) (cause : TreeError),
      ((t.run clock env config s).run time).1.1 = .error (.tree cause) →
        ∃ state action available, cause = .invalidRolloutAction state action available := by
  obtain ⟨ht, hcount⟩ := h.shape
  refine ⟨ht, fun _ _ hn => ht.map_action_eq_range hn, hcount, ?_, ?_, ?_⟩
  · intro σ env c selection maxDepth s
    obtain ⟨d, t', s', hd, -⟩ := descend_walk ht env c selection maxDepth s
    exact ⟨d, congrArg Prod.fst hd⟩
  · intro σ env config s cause hcause
    obtain ⟨state, available, s', hcount, hchoice, rfl⟩ := ht.iterate_error hcause
    exact ⟨state, _, available, hcount, hchoice, rfl⟩
  · intro σ τ clock env config s time cause hcause
    have hends := run_shape ht hcount clock env config s time
    rcases hrun : (t.run clock env config s).run time with ⟨⟨_ | _, t', s'⟩, time'⟩
    · rw [hrun] at hends hcause
      exact hends.2 cause (Except.error.inj hcause)
    · rw [hrun] at hcause
      exact absurd hcause (by simp)

/-- An environment that answers by how often it was asked: it offers one action or two, leads to a
state that was not seen before, and chooses an action that it does not offer. -/
def contrary : Environment ℕ Float where
  actionCount _ asked := (asked % 2 + 1, asked + 1)
  step _ _ asked := (⟨asked, 1, false⟩, asked + 1)
  choose _ available asked := (available + 7, asked + 1)

/-- The tree after two iterations, to different depths, that both fail. -/
def contraryTree : Tree Float :=
  (((ofRoot 0 false).iterate contrary .standard 1).2.1.iterate contrary
    { (.standard : SearchConfig Float) with maxDepth := 3 } 1).2.1

/-- The contrary tree has three nodes, and a descent in it succeeds although both iterations
failed. -/
theorem shape_of_grown_contrary :
    contraryTree.Grown ∧ contraryTree.size = 3 ∧ contraryTree.WellFormed ∧
      ∃ d, (contraryTree.descend contrary 1.4 .max 5 2).1 = .ok d := by
  have hgrown : contraryTree.Grown := .iterate _ _ _ (.iterate _ _ _ (.fresh 0 false))
  exact ⟨hgrown, rfl, (shape_of_grown hgrown).1,
    (shape_of_grown hgrown).2.2.2.1 contrary 1.4 .max 5 2⟩

end Tree

end DurativePlanning
