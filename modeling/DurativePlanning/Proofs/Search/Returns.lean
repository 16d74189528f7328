import DurativePlanning.Proofs.Search.Budget
import DurativePlanning.Proofs.Search.Statistics
import Mathlib.Algebra.Order.BigOperators.Group.List

/-!
# The Size of Returns

When every reward lies between zero and one, and later rewards do not count more than earlier ones,
no return is negative, and none is greater than the number of steps behind it. The steps of an
iteration are bounded by its depth budget. So the returns that a search records, their mean and the
greatest of them never leave the range from zero to the greatest depth.

* `Environment.PaysUnit`: rewards between zero and one.
* `walk_bounds`, `Tree.Descends.reward_bounds`: what a rollout and a descent can earn.
* `Tree.iterate_bounds`: the return of an iteration.
* `EdgeStats.foldl_record_bounds`: mean and greatest of some returns.
* `Tree.Within`, `Tree.run_within`: the returns that a run leaves in the tree.
-/

namespace DurativePlanning

variable {σ : Type} {K : Type} [Field K] [LinearOrder K] [IsStrictOrderedRing K] [FloorSemiring K]

/-- An environment that **pays between zero and one** for each step. -/
def Environment.PaysUnit (env : Environment σ K) : Prop :=
  ∀ state action s,
    0 ≤ (env.step state action s).1.reward ∧ (env.step state action s).1.reward ≤ 1

variable {env : Environment σ K} {config : SearchConfig K}

/-! ### Rollouts -/

/-- **A rollout earns at most one with each step**, and never loses anything: the sum of `walk` goes
up by between zero and one for each step that is left. -/
theorem walk_bounds (henv : env.PaysUnit) {decay : K} (hdecay : 0 ≤ decay) (hdecay' : decay ≤ 1)
    {steps state : ℕ} {total weight x : K} {s : σ} (hweight : 0 ≤ weight) (hweight' : weight ≤ 1)
    (h : (walk env decay steps state total weight s).1 = .ok x) :
    total ≤ x ∧ x ≤ total + steps := by
  induction steps generalizing state total weight s with
  | zero =>
      obtain rfl : total = x := Except.ok.inj h
      simp
  | succ steps ih =>
      have hsteps : (0 : K) ≤ steps := Nat.cast_nonneg steps
      rw [Nat.cast_succ]
      by_cases hcount : (env.actionCount state s).1 = 0
      · rw [walk_of_no_action hcount] at h
        obtain rfl : total = x := Except.ok.inj h
        exact ⟨le_rfl, by linarith⟩
      · obtain ⟨chosen, hchosen⟩ : ∃ chosen, env.choose state (env.actionCount state s).1
            (env.actionCount state s).2 = chosen := ⟨_, rfl⟩
        by_cases hlt : chosen.1 < (env.actionCount state s).1
        · rw [walk_of_taken rfl hcount hchosen hlt rfl] at h
          obtain ⟨hreward, hreward'⟩ := henv state chosen.1 chosen.2
          have hearned := mul_nonneg hweight hreward
          have hearned' := mul_le_one₀ hweight' hreward hreward'
          split at h
          · obtain rfl := Except.ok.inj h
            exact ⟨by linarith, by linarith⟩
          · obtain ⟨hx, hx'⟩ := ih (mul_nonneg hweight hdecay)
              (mul_le_one₀ hweight' hdecay hdecay') h
            exact ⟨by linarith, by linarith⟩
        · rw [walk_of_refused rfl hcount hchosen hlt] at h
          exact absurd h (by simp)

/-- `decay` lies between zero and one when the discount `gamma` does. -/
theorem SearchConfig.decay_bounds (hgamma : 0 ≤ config.gamma) (hgamma' : config.gamma ≤ 1)
    (depth : ℕ) :
    0 ≤ (config.rolloutParams depth).decay ∧ (config.rolloutParams depth).decay ≤ 1 := by
  rw [RolloutParams.decay, rolloutParams]
  cases config.returnType with
  | discounted => exact ⟨hgamma, hgamma'⟩
  | episodicUndiscounted => exact ⟨zero_le_one, le_rfl⟩
  | fixedHorizon => exact ⟨zero_le_one, le_rfl⟩

variable [Elementary K]

namespace Tree

variable {t t' : Tree K} {s s' : σ}

/-- **The estimate of a leaf** is at most `maxDepth - leaf.depth`. -/
theorem estimate_bounds (henv : env.PaysUnit) (hgamma : 0 ≤ config.gamma)
    (hgamma' : config.gamma ≤ 1) {leaf : Node K} {x : K}
    (h : (estimate env config leaf s).1 = .ok x) :
    0 ≤ x ∧ x ≤ (config.maxDepth - leaf.depth : ℕ) := by
  rw [estimate] at h
  split at h
  · obtain rfl : 0 = x := Except.ok.inj h
    exact ⟨le_rfl, Nat.cast_nonneg _⟩
  · obtain ⟨hdecay, hdecay'⟩ := config.decay_bounds hgamma hgamma' leaf.depth
    obtain ⟨hx, hx'⟩ := walk_bounds henv hdecay hdecay' zero_le_one le_rfl h
    rw [zero_add] at hx'
    exact ⟨hx, hx'.trans (Nat.cast_le.mpr (config.stepLimit_le leaf.depth).1)⟩

/-! ### Iterations -/

/-- **A descent earns at most one with each edge**, by induction on `Descends`. -/
theorem Descends.reward_bounds (henv : env.PaysUnit) {c : K} {selection : Selection}
    {maxDepth i : ℕ} {path : List (ℕ × ℕ)} {reward : K} {d : Descent K}
    (h : Descends env c selection maxDepth i path reward t s d t' s') :
    ∃ steps : ℕ, d.path.length = path.length + steps ∧ reward ≤ d.reward ∧
      d.reward ≤ reward + steps := by
  induction h with
  | stop => exact ⟨0, rfl, le_rfl, by simp⟩
  | barren => exact ⟨0, rfl, le_rfl, by simp⟩
  | expand _ _ _ _ _ _ ih => exact ih
  | @meet _ _ _ _ _ s _ n a _ _ _ _ _ _ _ _ _ _ _ ih =>
      obtain ⟨steps, hlength, hle, hle'⟩ := ih
      obtain ⟨hreward, hreward'⟩ := henv n.key a s
      refine ⟨steps + 1, ?_, by linarith, ?_⟩
      · rw [hlength, List.length_append, List.length_singleton]
        omega
      · rw [Nat.cast_succ]
        linarith
  | @enter _ _ _ _ s n a _ _ _ _ _ _ _ _ =>
      obtain ⟨hreward, hreward'⟩ := henv n.key a s
      exact ⟨1, by simp, by linarith, by rw [Nat.cast_one]; linarith⟩

/-- **The return of an iteration** lies between zero and `maxDepth`: its descent earns at most its
length, and the estimate at most the rest. -/
theorem iterate_bounds (henv : env.PaysUnit) (hgamma : 0 ≤ config.gamma)
    (hgamma' : config.gamma ≤ 1) (ht : t.WellFormed) {i : Iteration K}
    (hi : (t.iterate env config s).1 = .ok i) :
    0 ≤ i.totalReturn ∧ i.totalReturn ≤ config.maxDepth := by
  obtain ⟨n, hn, hdepth, -⟩ := ht.root
  obtain ⟨d, t₁, s₁, hloop⟩ :=
    exists_descends env config.c config.selection config.maxDepth [] 0 s ht hn
  obtain ⟨path, hpath, hwalk⟩ := hloop.walk
  obtain ⟨leaf, hleaf, hlength⟩ := hwalk.exists_leaf ht hn
  obtain ⟨leaf', hleaf', hle⟩ := hloop.depth_le ht hn (hdepth ▸ Nat.zero_le config.maxDepth)
  obtain rfl := Option.some.inj (hleaf.symm.trans hleaf')
  obtain ⟨steps, hsteps, hreward, hreward'⟩ := hloop.reward_bounds henv
  -- the leaf is as deep as the path is long
  have hdeep : steps = leaf.depth := by
    rw [hpath, List.nil_append, List.length_nil] at hsteps
    omega
  rw [iterate] at hi
  simp only [(descend_eq_ok_iff ht).mpr hloop, hleaf] at hi
  rcases hestimate : estimate env config leaf s₁ with ⟨_ | estimated, s₂⟩
  · simp [hestimate] at hi
  · obtain ⟨hx, hx'⟩ := estimate_bounds henv hgamma hgamma' (congrArg Prod.fst hestimate)
    rw [Nat.cast_sub hle, ← hdeep] at hx'
    simp only [hestimate] at hi
    rcases hback : t₁.backpropagate (d.reward + estimated) d.path with ⟨_ | _, t₂⟩
    · simp [hback] at hi
    · simp only [hback] at hi
      obtain rfl := Except.ok.inj hi
      exact ⟨by linarith, by linarith⟩

end Tree

/-! ### Statistics -/

/-- **Mean and greatest of some returns** lie where the returns lie, `q` at most `best`. -/
theorem EdgeStats.foldl_record_bounds {xs : List K} {bound : K} (hne : xs ≠ [])
    (hxs : ∀ x ∈ xs, 0 ≤ x ∧ x ≤ bound) :
    let stats := xs.foldl EdgeStats.record (.empty : EdgeStats K)
    0 ≤ stats.q ∧ stats.q ≤ stats.best ∧ stats.best ≤ bound := by
  obtain ⟨greatest, hgreatest⟩ := Option.isSome_iff_exists.mp (List.isSome_max?_iff.mpr hne)
  obtain ⟨hmem, hle⟩ := List.max?_eq_some_iff.mp hgreatest
  have hlength : (0 : K) < xs.length := Nat.cast_pos.mpr (List.length_pos_of_ne_nil hne)
  have hsum : xs.sum ≤ xs.length • greatest := List.sum_le_card_nsmul xs greatest hle
  intro stats
  have hq : stats.q = xs.sum / xs.length := (q_foldl_record xs).trans (if_neg hne)
  have hbest : stats.best = greatest := by
    rw [best_foldl_record, hgreatest, Option.getD_some]
  rw [hq, hbest]
  refine ⟨div_nonneg (List.sum_nonneg fun x hx => (hxs x hx).1) hlength.le, ?_,
    (hxs greatest hmem).2⟩
  rwa [div_le_iff₀ hlength, mul_comm, ← nsmul_eq_mul]

namespace Tree

/-! ### Runs -/

/-- A tree **within a bound**: the returns that some iterations have recorded lie between zero and
the bound. -/
def Within (t : Tree K) (bound : K) : Prop :=
  ∃ log, Logged t log ∧ ∀ v ∈ log, ∀ x ∈ v.return?, 0 ≤ x ∧ x ≤ bound

variable {t : Tree K} {bound : K} {s : σ}

/-- `q` and `best` of every edge that was visited are within the bound. -/
theorem Within.edge (h : t.Within bound) {p a : ℕ} {e : Edge K} (he : t.edge? p a = some e)
    (hvisits : e.stats.visits ≠ 0) :
    0 ≤ e.stats.q ∧ e.stats.q ≤ e.stats.best ∧ e.stats.best ≤ bound := by
  obtain ⟨log, hlogged, hlog⟩ := h
  have hstats : e.stats = (returnsAt log p a).foldl EdgeStats.record .empty :=
    (statsAt_of_edge? he).symm.trans (hlogged.statsAt_eq p a)
  have hne : returnsAt log p a ≠ [] := by
    intro hnil
    rw [hstats, hnil] at hvisits
    exact hvisits rfl
  rw [hstats]
  refine EdgeStats.foldl_record_bounds hne fun x hx => ?_
  obtain ⟨v, hv, hreturn⟩ := List.mem_filterMap.mp hx
  exact hlog v (List.mem_of_mem_filter hv) x hreturn

/-- **An iteration keeps a tree within the greatest depth**, also when it fails. -/
theorem Within.iterate (h : t.Within config.maxDepth) (henv : env.PaysUnit)
    (hgamma : 0 ≤ config.gamma) (hgamma' : config.gamma ≤ 1) (s : σ) :
    (t.iterate env config s).2.1.Within config.maxDepth := by
  obtain ⟨log, hlogged, hlog⟩ := h
  refine ⟨_, hlogged.iterate env config s, ?_⟩
  rw [List.forall_mem_append, List.forall_mem_singleton]
  refine ⟨hlog, fun x hx => ?_⟩
  rw [Visit.return?, visit] at hx
  cases hi : (t.iterate env config s).1 with
  | error cause => simp [hi] at hx
  | ok i =>
      simp only [hi, Option.mem_def, Option.some.injEq] at hx
      exact hx ▸ iterate_bounds henv hgamma hgamma' hlogged.wellFormed hi

/-- **A run stays within the greatest depth**: the returns of its iterations, and what it leaves in
the tree, however it ends. -/
theorem run_within {τ : Type} (henv : env.PaysUnit) (hgamma : 0 ≤ config.gamma)
    (hgamma' : config.gamma ≤ 1) (clock : StateM τ ℕ) (key : ℕ) (terminal : Bool) (s : σ)
    (time : τ) :
    Ends (fun _ its (t : Tree K) _ => t.Within config.maxDepth ∧
        ∀ i ∈ its, 0 ≤ i.totalReturn ∧ i.totalReturn ≤ config.maxDepth)
      (fun _ t => t.Within config.maxDepth)
      (((ofRoot key terminal).run clock env config s).run time).1 := by
  have hfresh : (ofRoot key terminal : Tree K).Within config.maxDepth :=
    ⟨[], .fresh key terminal, fun v hv => absurd hv List.not_mem_nil⟩
  rw [run, run_bind]
  refine runFrom_induction (fun _ _ _ _ h => h) (fun _ _ _ _ _ h _ _ => h.1) ?_ ?_
    ⟨hfresh, fun i hi => absurd hi List.not_mem_nil⟩
  · rintro metrics its t s i t' s' ⟨ht, hits⟩ hi
    have hkept := ht.iterate henv hgamma hgamma' s
    obtain ⟨log, hlogged, -⟩ := ht
    rw [hi] at hkept
    refine ⟨hkept, List.forall_mem_cons.mpr ⟨?_, hits⟩⟩
    exact iterate_bounds henv hgamma hgamma' hlogged.wellFormed (congrArg Prod.fst hi)
  · rintro metrics its t s cause t' s' ⟨ht, -⟩ hi
    have hkept := ht.iterate henv hgamma hgamma' s
    rwa [hi] at hkept

end Tree

end DurativePlanning
