import DurativePlanning.Proofs.Search.Loop
import DurativePlanning.Proofs.Search.Recorded
import Mathlib.Logic.Relation

/-!
# The Depth Budget

The greatest depth of a search is a budget of steps. A descent takes one step for each edge of its
path, and spends as much of the budget as its leaf is deep; the rollout gets what is left. So an
iteration takes no more steps than the budget has, however deep the tree was grown before, and it
adds at most one node. The steps are read off the record of what the environment is asked.

* `stepsOf`, `Asks`: the steps that a record lists, and those that were asked for in between.
* `Tree.Descends.asks`: a descent asks for one step per edge of its path.
* `exists_asks_walk`, `Tree.exists_asks_estimate`: how many a rollout asks for.
* `Tree.exists_iterations`: a run is a sequence of iterations.
* `Tree.Call`: everything that may be done to a tree.
* `Tree.depth_budget`: all of it.
-/

namespace DurativePlanning

variable {σ α : Type}

/-! ### Steps on record -/

/-- The step that a question asks for, as the key of the state and the action. -/
def Question.step? : Question → Option (ℕ × ℕ)
  | .step state action => some (state, action)
  | .actionCount _ | .choose _ _ => none

/-- The steps that a record lists, the first one first. -/
def stepsOf (log : List (Question × σ)) : List (ℕ × ℕ) := log.reverse.filterMap fun q => q.1.step?

/-- Between two states of a record just the steps `steps` are asked for, in this order. -/
def Asks (s s' : σ × List (Question × σ)) (steps : List (ℕ × ℕ)) : Prop :=
  stepsOf s'.2 = stepsOf s.2 ++ steps

namespace Asks

variable {s s' s'' : σ × List (Question × σ)} {steps steps' : List (ℕ × ℕ)}

theorem refl (s : σ × List (Question × σ)) : Asks s s [] := (List.append_nil _).symm

theorem trans (h : Asks s s' steps) (h' : Asks s' s'' steps') : Asks s s'' (steps ++ steps') := by
  rw [Asks, h', h, List.append_assoc]

/-- One more question asks for a step or for none. -/
theorem ask (s : σ × List (Question × σ)) (q : Question) (hidden : σ) :
    Asks s (hidden, (q, s.1) :: s.2) q.step?.toList := by
  rw [Asks, stepsOf, List.reverse_cons, List.filterMap_append]
  cases hstep : q.step? <;> simp [stepsOf, hstep]

end Asks

section Questions

variable (env : Environment σ α) (state action available : ℕ) (s : σ × List (Question × σ))

/-- `actionCount` asks for no step. -/
theorem asks_actionCount : Asks s (env.recorded.actionCount state s).2 [] := .ask s _ _

/-- `choose` asks for no step. -/
theorem asks_choose : Asks s (env.recorded.choose state available s).2 [] := .ask s _ _

/-- `step` asks for one step. -/
theorem asks_step : Asks s (env.recorded.step state action s).2 [(state, action)] := .ask s _ _

end Questions

/-- **A rollout asks for no more steps than it may**: `walk` for at most `limit`, by induction on
the limit. -/
theorem exists_asks_walk [Arithmetic α] (env : Environment σ α) (decay : α) (limit state : ℕ)
    (total weight : α) (s : σ × List (Question × σ)) :
    ∃ steps, Asks s (walk env.recorded decay limit state total weight s).2 steps ∧
      steps.length ≤ limit := by
  induction limit generalizing state total weight s with
  | zero => exact ⟨[], .refl s, Nat.le_refl 0⟩
  | succ limit ih =>
      obtain ⟨offered, hoffered⟩ : ∃ offered, env.recorded.actionCount state s = offered := ⟨_, rfl⟩
      have hcounted : Asks s offered.2 [] := hoffered ▸ asks_actionCount env state s
      by_cases hcount : offered.1 = 0
      · rw [walk_of_no_action (hoffered ▸ hcount), hoffered]
        exact ⟨[], hcounted, Nat.zero_le _⟩
      · obtain ⟨chosen, hchosen⟩ :
            ∃ chosen, env.recorded.choose state offered.1 offered.2 = chosen := ⟨_, rfl⟩
        have hasked : Asks s chosen.2 [] :=
          hcounted.trans (hchosen ▸ asks_choose env state offered.1 offered.2)
        by_cases hlt : chosen.1 < offered.1
        · obtain ⟨taken, htaken⟩ :
              ∃ taken, env.recorded.step state chosen.1 chosen.2 = taken := ⟨_, rfl⟩
          have hstepped : Asks s taken.2 [(state, chosen.1)] :=
            hasked.trans (htaken ▸ asks_step env state chosen.1 chosen.2)
          rw [walk_of_taken hoffered hcount hchosen hlt htaken]
          split
          · exact ⟨_, hstepped, by simp⟩
          · obtain ⟨steps, hsteps, hlength⟩ := ih taken.1.next
              (total + weight * taken.1.reward) (weight * decay) taken.2
            exact ⟨_, hstepped.trans hsteps, by simpa using hlength⟩
        · rw [walk_of_refused hoffered hcount hchosen hlt]
          exact ⟨[], hasked, Nat.zero_le _⟩

/-- **What is left of the depth** bounds `stepLimit` of a rollout. -/
theorem SearchConfig.stepLimit_le (config : SearchConfig α) (depth : ℕ) :
    (config.rolloutParams depth).stepLimit ≤ config.maxDepth - depth ∧
      (config.returnType = .fixedHorizon → (config.rolloutParams depth).stepLimit =
        min config.fixedHorizonSteps (config.maxDepth - depth)) := by
  rw [RolloutParams.stepLimit, rolloutParams]
  split
  · exact ⟨Nat.min_le_right _ _, fun _ => rfl⟩
  · next hother => exact ⟨Nat.le_refl _, fun h => absurd h hother⟩

namespace Tree

variable [SearchArithmetic α] {env : Environment σ α} {t t' : Tree α}

/-- **The rollout of an iteration** asks for no more steps than it may from its leaf, and for none
when the leaf is terminal. -/
theorem exists_asks_estimate (env : Environment σ α) (config : SearchConfig α) (leaf : Node α)
    (s : σ × List (Question × σ)) :
    ∃ steps, Asks s (estimate env.recorded config leaf s).2 steps ∧
      steps.length ≤ (config.rolloutParams leaf.depth).stepLimit ∧
      (leaf.terminal = true → steps = []) := by
  rw [estimate]
  cases leaf.terminal with
  | true => exact ⟨[], .refl s, Nat.zero_le _, fun _ => rfl⟩
  | false =>
      obtain ⟨steps, hsteps, hlength⟩ := exists_asks_walk env
        (config.rolloutParams leaf.depth).decay (config.rolloutParams leaf.depth).stepLimit
        leaf.key 0 1 s
      exact ⟨steps, hsteps, hlength, fun h => absurd h (by simp)⟩

/-- A step is **taken along an edge** when it takes the action of the edge in the state of its node.
-/
def StepAlong (t : Tree α) (edge step : ℕ × ℕ) : Prop :=
  step.2 = edge.2 ∧ ∃ n, t.node? edge.1 = some n ∧ n.key = step.1

/-- **A descent asks for one step per edge of its path**: the steps are taken along its edges, in
the same order. -/
theorem Descends.asks {c : α} {selection : Selection} {maxDepth i : ℕ} {path : List (ℕ × ℕ)}
    {reward : α} {s s' : σ × List (Question × σ)} {d : Descent α}
    (h : Descends env.recorded c selection maxDepth i path reward t s d t' s') :
    ∃ edges steps, d.path = path ++ edges ∧ Asks s s' steps ∧
      List.Forall₂ t'.StepAlong edges steps := by
  induction h with
  | @stop _ _ _ _ s => exact ⟨[], [], (List.append_nil _).symm, .refl s, .nil⟩
  | @barren _ _ _ _ s n =>
      exact ⟨[], [], (List.append_nil _).symm, asks_actionCount env n.key s, .nil⟩
  | @expand _ _ _ _ _ s _ n _ _ _ _ _ _ _ ih =>
      obtain ⟨edges, steps, hpath, hasks, hedges⟩ := ih
      exact ⟨edges, steps, hpath, (asks_actionCount env n.key s).trans hasks, hedges⟩
  | @meet i _ _ _ t' s s' n a e _ _ hn _ _ _ _ _ _ hrest ih =>
      obtain ⟨edges, steps, hpath, hasks, hedges⟩ := ih
      obtain ⟨_, -, hwalk⟩ := hrest.walk
      obtain ⟨n', hn', hbare⟩ := ((keeps_setEdge hn a _).trans hwalk.keeps) hn
      refine ⟨(i, a) :: edges, (n.key, a) :: steps, ?_, (asks_step env n.key a s).trans hasks,
        .cons ⟨rfl, n', hn', Node.key_eq_of_bare_eq hbare⟩ hedges⟩
      rw [hpath, List.append_assoc]
      rfl
  | @enter i _ _ _ s n a e hn _ _ _ _ _ _ =>
      obtain ⟨n', hn', hbare⟩ := keeps_grow hn a e _ _ hn
      exact ⟨[(i, a)], [(n.key, a)], rfl, asks_step env n.key a s,
        .cons ⟨rfl, n', hn', Node.key_eq_of_bare_eq hbare⟩ .nil⟩

/-- **What a descent spends.** It comes to a leaf that is as deep as its path is long, and no deeper
than it may be, after one step per edge of the path; and it adds a node when the leaf is new. -/
theorem exists_descend_recorded (ht : t.WellFormed) (env : Environment σ α) (c : α)
    (selection : Selection) (maxDepth : ℕ) (s : σ) :
    ∃ d t' s' log leaf, t.descend env.recorded c selection maxDepth (s, []) = (.ok d, t', s', log) ∧
      t.descend env c selection maxDepth s = (.ok d, t', s') ∧
      t'.node? d.leaf = some leaf ∧ d.path.length = leaf.depth ∧ leaf.depth ≤ maxDepth ∧
      List.Forall₂ t'.StepAlong d.path (stepsOf log) ∧
      t'.size = t.size + if d.isNew then 1 else 0 := by
  obtain ⟨n, hn, hdepth, -⟩ := ht.root
  obtain ⟨d, t', ⟨s', log⟩, hloop⟩ :=
    exists_descends env.recorded c selection maxDepth [] 0 (s, []) ht hn
  have hd := (descend_eq_ok_iff ht).mpr hloop
  obtain ⟨steps, hpath, hwalk⟩ := hloop.walk
  obtain ⟨leaf, hleaf, hlength⟩ := hwalk.exists_leaf ht hn
  obtain ⟨leaf', hleaf', hle⟩ := hloop.depth_le ht hn (hdepth ▸ Nat.zero_le maxDepth)
  obtain rfl := Option.some.inj (hleaf.symm.trans hleaf')
  obtain ⟨edges, asked, hpath', hasked, halong⟩ := hloop.asks
  rw [List.nil_append] at hpath hpath'
  subst hpath hpath'
  have hsteps : stepsOf log = asked := hasked
  refine ⟨d, t', s', log, leaf, hd, ?_, hleaf, by rw [hlength, hdepth, Nat.zero_add], hle,
    hsteps ▸ halong, hloop.size_eq⟩
  have hforget : t.descend env c selection maxDepth s =
      forget (t.descend env.recorded c selection maxDepth (s, [])) :=
    descendFrom_recorded c selection maxDepth root [] 0 t (s, [])
  rw [hforget, hd]
  rfl

/-! ### Iterations -/

/-- `backpropagate` adds no node. -/
theorem size_backpropagate (t : Tree α) (x : α) (path : List (ℕ × ℕ)) :
    (t.backpropagate x path).2.size = t.size :=
  backpropagate_induction (P := fun t' => t'.size = t.size)
    (fun _ _ _ _ _ h _ _ => (size_setEdge ..).trans h) path rfl

/-- **An iteration adds at most one node**, also when it fails: that of its descent, as
`backpropagate` adds none. -/
theorem size_iterate_le (ht : t.WellFormed) (env : Environment σ α) (config : SearchConfig α)
    (s : σ) : (t.iterate env config s).2.1.size ≤ t.size + 1 := by
  refine iterate_induction (P := fun t' => t'.size ≤ t.size + 1) ht env config s ?_ ?_
  · intro d t₁ s₁ hd _
    rw [((descend_eq_ok_iff ht).mp hd).size_eq]
    split <;> simp
  · intro t₁ x path h
    rwa [size_backpropagate]

/-- What `iterate` does after its descent takes nothing away. -/
theorem keeps_iterate_of_descend (ht : t.WellFormed) {config : SearchConfig α} {s s₁ : σ}
    {d : Descent α} {t₁ : Tree α}
    (hd : t.descend env config.c config.selection config.maxDepth s = (.ok d, t₁, s₁)) :
    Keeps t₁ (t.iterate env config s).2.1 := by
  refine iterate_induction ht env config s (fun d' t' s' hd' _ => ?_)
    fun t' x path hkept => hkept.trans (keeps_backpropagate x path).1
  obtain rfl : t₁ = t' := congrArg (·.2.1) (hd.symm.trans hd')
  exact .refl t₁

/-- After its descent `iterate` asks for nothing but the `estimate` of the leaf. -/
theorem hidden_iterate {config : SearchConfig α} {s s₁ : σ} {d : Descent α} {t₁ : Tree α}
    {leaf : Node α}
    (hd : t.descend env config.c config.selection config.maxDepth s = (.ok d, t₁, s₁))
    (hleaf : t₁.node? d.leaf = some leaf) :
    (t.iterate env config s).2.2 = (estimate env config leaf s₁).2 := by
  rw [iterate]
  simp only [hd, hleaf]
  rcases estimate env config leaf s₁ with ⟨_ | r, s₂⟩
  · rfl
  · simp only
    rcases t₁.backpropagate (d.reward + r) d.path with ⟨_ | _, _⟩ <;> rfl

/-- Iterations end with one that fails. -/
theorem iterations_of_error {config : SearchConfig α} {s s' : σ} {cause : TreeError}
    (hi : t.iterate env config s = (.error cause, t', s')) (k : ℕ) :
    iterations env config (k + 1) t s = ([.error cause], t', s') := by
  rw [iterations, hi]

/-- Iterations go on after one that does not fail. -/
theorem iterations_of_ok {config : SearchConfig α} {s s' : σ} {i : Iteration α}
    (hi : t.iterate env config s = (.ok i, t', s')) (k : ℕ) :
    iterations env config (k + 1) t s = (.ok i :: (iterations env config k t' s').1,
      (iterations env config k t' s').2) := by
  rw [iterations, hi]

/-- **Iterations keep the shape of the tree, and add at most one node each**: by induction on their
number with `size_iterate_le`. -/
theorem WellFormed.iterations (ht : t.WellFormed) (env : Environment σ α) (config : SearchConfig α)
    (k : ℕ) (s : σ) :
    (Tree.iterations env config k t s).2.1.WellFormed ∧
      (Tree.iterations env config k t s).2.1.size ≤
        t.size + (Tree.iterations env config k t s).1.length := by
  induction k generalizing t s with
  | zero => exact ⟨ht, Nat.le_refl _⟩
  | succ k ih =>
      have hshape := ht.iterate env config s
      have hsize := size_iterate_le ht env config s
      rcases hi : t.iterate env config s with ⟨cause | i, t', s'⟩
      · rw [hi] at hshape hsize
        rw [iterations_of_error hi]
        exact ⟨hshape, hsize⟩
      · rw [hi] at hshape hsize
        have hfirst : t'.size ≤ t.size + 1 := hsize
        obtain ⟨hrest, hgrown⟩ := ih (t := t') hshape s'
        rw [iterations_of_ok hi, List.length_cons]
        refine ⟨hrest, Nat.le_trans hgrown ?_⟩
        omega

/-! ### Runs -/

/-- **A run that did** `k` **iterations**, after those that are listed before: the tree and the
hidden state are what these leave, they are all counted and listed when the run ends well, and only
the last one fails when it fails with an error of the tree. -/
structure Did (env : Environment σ α) (config : SearchConfig α) (t : Tree α) (s : σ) (k before : ℕ)
    (listed : List (Iteration α))
    (result : Except SearchError (RunMetrics α × List (Iteration α)) × Tree α × σ) : Prop where
  length : (iterations env config k t s).1.length = k
  leaves : result.2 = (iterations env config k t s).2
  ok : ∀ metrics log, result.1 = .ok (metrics, log) → metrics.completed = before + k ∧
    ∃ done : List (Iteration α),
      log = listed ++ done ∧ (iterations env config k t s).1 = done.map .ok
  failed : ∀ cause, result.1 = .error (.tree cause) →
    ∃ done : List (Iteration α),
      (iterations env config k t s).1 = done.map .ok ++ [.error cause]

section Run

variable {τ : Type} {config : SearchConfig α} {s : σ}

/-- A run that stops before its next iteration. -/
theorem Did.zero {metrics : RunMetrics α} {listed : List (Iteration α)}
    {outcome : Except SearchError (RunMetrics α × List (Iteration α))}
    (hok : ∀ metrics' log, outcome = .ok (metrics', log) →
      metrics'.completed = metrics.completed ∧ log = listed)
    (hfailed : ∀ cause, outcome ≠ .error (.tree cause)) :
    Did env config t s 0 metrics.completed listed (outcome, t, s) where
  length := rfl
  leaves := rfl
  ok metrics' log h := by
    obtain ⟨hcompleted, rfl⟩ := hok metrics' log h
    exact ⟨hcompleted, [], (List.append_nil _).symm, rfl⟩
  failed cause h := absurd h (hfailed cause)

/-- A run whose first iteration fails. -/
theorem Did.fail {s' : σ} {cause : TreeError} (hi : t.iterate env config s = (.error cause, t', s'))
    (before : ℕ) (listed : List (Iteration α)) :
    Did env config t s 1 before listed (.error (.tree cause), t', s') := by
  have hone := iterations_of_error hi 0
  refine ⟨by rw [hone]; rfl, by rw [hone], fun _ _ h => absurd h (by simp), fun cause' h => ?_⟩
  obtain rfl := SearchError.tree.inj (Except.error.inj h)
  exact ⟨[], congrArg Prod.fst hone⟩

/-- A run whose first iteration does not fail goes on with the other ones. -/
theorem Did.step {s' : σ} {i : Iteration α} {k before : ℕ} {listed : List (Iteration α)}
    {result : Except SearchError (RunMetrics α × List (Iteration α)) × Tree α × σ}
    (hi : t.iterate env config s = (.ok i, t', s'))
    (h : Did env config t' s' k (before + 1) (listed ++ [i]) result) :
    Did env config t s (k + 1) before listed result := by
  have hmore := iterations_of_ok hi k
  refine ⟨?_, ?_, fun metrics log hok => ?_, fun cause hfailed => ?_⟩
  · rw [hmore, List.length_cons, h.length]
  · rw [hmore]
    exact h.leaves
  · obtain ⟨hcompleted, done, rfl, hdone⟩ := h.ok metrics log hok
    exact ⟨by omega, i :: done, by simp, by rw [hmore, hdone, List.map_cons]⟩
  · obtain ⟨done, hdone⟩ := h.failed cause hfailed
    exact ⟨i :: done, by rw [hmore, hdone, List.map_cons, List.cons_append]⟩

/-- **A run is a sequence of iterations**, no more than it may do: `runFrom` `Did` some number of
them. -/
theorem exists_did (clock : StateM τ ℕ) (env : Environment σ α) (config : SearchConfig α)
    (began left : ℕ) (metrics : RunMetrics α) (log : List (Iteration α)) (t : Tree α) (s : σ)
    (time : τ) : ∃ k ≤ left, Did env config t s k metrics.completed log.reverse
      ((runFrom clock began env config left metrics log t s).run time).1 := by
  induction left generalizing metrics log t s time with
  | zero =>
      refine ⟨0, Nat.le_refl 0, .zero ?_ fun cause h => absurd h (by simp)⟩
      rintro _ _ ⟨⟩
      exact ⟨rfl, rfl⟩
  | succ left ih =>
      rw [run_runFrom_succ]
      cases hover : outOfTime config.timeBudget ((clock.run time).1 - began) with
      | error cause =>
          obtain ⟨seconds, -, -, rfl⟩ := outOfTime_error hover
          refine ⟨0, Nat.zero_le _, .zero (fun _ _ h => absurd h (by simp)) fun cause h => ?_⟩
          exact absurd (Except.error.inj h) (by simp)
      | ok late =>
          cases late with
          | true =>
              refine ⟨0, Nat.zero_le _, .zero ?_ fun cause h => absurd h (by simp)⟩
              rintro _ _ ⟨⟩
              exact ⟨rfl, rfl⟩
          | false =>
              rcases hi : t.iterate env config s with ⟨cause | i, t', s'⟩
              · exact ⟨1, Nat.succ_le_succ (Nat.zero_le _), .fail hi _ _⟩
              · obtain ⟨k, hk, hdid⟩ := ih (metrics.record i) (i :: log) t' s' (clock.run time).2
                rw [List.reverse_cons] at hdid
                exact ⟨k + 1, Nat.succ_le_succ hk, .step hi hdid⟩

end Run

/-! ### Everything that may be done to a tree -/

/-- **One call** that may change a tree: a descent, an iteration, a run or a return that is backed
up, each with settings and an environment of its own. Calls that fail count as well. -/
inductive Call : Tree α → Tree α → Prop
  | descend {σ : Type} {t : Tree α} (env : Environment σ α) (c : α) (selection : Selection)
      (maxDepth : ℕ) (s : σ) : Call t (t.descend env c selection maxDepth s).2.1
  | iterate {σ : Type} {t : Tree α} (env : Environment σ α) (config : SearchConfig α) (s : σ) :
      Call t (t.iterate env config s).2.1
  | backpropagate {t : Tree α} (x : α) (path : List (ℕ × ℕ)) : Call t (t.backpropagate x path).2
  | run {σ τ : Type} {t : Tree α} (clock : StateM τ ℕ) (env : Environment σ α)
      (config : SearchConfig α) (s : σ) (time : τ) :
      Call t ((t.run clock env config s).run time).1.2.1

/-- `run` is a sequence of iterations, no more than its settings allow. -/
theorem exists_did_run {τ : Type} (clock : StateM τ ℕ) (env : Environment σ α)
    (config : SearchConfig α) (t : Tree α) (s : σ) (time : τ) : ∃ k ≤ config.iterations,
      Did env config t s k 0 [] ((t.run clock env config s).run time).1 := by
  rw [run, run_bind]
  exact exists_did clock env config _ _ (.start config.iterations) [] t s _

/-- One call keeps a tree `WellFormed`. -/
theorem Call.wellFormed (h : Call t t') (ht : t.WellFormed) : t'.WellFormed := by
  cases h with
  | descend env c selection maxDepth s =>
      obtain ⟨d, t₁, s₁, hd, hwalk, -⟩ := descend_walk ht env c selection maxDepth s
      rw [hd]
      exact hwalk.wellFormed ht
  | iterate env config s => exact ht.iterate env config s
  | backpropagate x path => exact ht.backpropagate x path
  | run clock env config s time =>
      obtain ⟨k, -, hdid⟩ := exists_did_run clock env config t s time
      rw [hdid.leaves]
      exact (ht.iterations env config k s).1

/-- **Whatever was done to a tree, it has its shape**: any sequence of `Call`s keeps it
`WellFormed`. -/
theorem wellFormed_of_calls {key : ℕ} {terminal : Bool}
    (h : Relation.ReflTransGen Call (ofRoot key terminal) t) : t.WellFormed := by
  induction h with
  | refl => exact wellFormed_ofRoot key terminal
  | tail _ hcall ih => exact hcall.wellFormed ih

/-- **The depth budget.** Let anything have been done to a tree before, with any greatest depths.

* A descent ends, in any environment: it is the loop that looks at the depths of the nodes and
  counts nothing. It comes to a leaf that is as deep as its path is long, and no deeper than it may
  be; it asks for one step per edge of the path, in order; and it adds a node exactly when its leaf
  is new.
* An iteration asks for the steps of its descent and then for those of its rollout, together no more
  than the greatest depth. Those of the rollout are no more than the depth that its leaf leaves, no
  more than the fixed horizon when there is one, and none when the leaf is terminal. It adds at most
  one node. All of this also holds of an iteration that fails.
* A run is a sequence of iterations, as many as it counts when it ends well, and adds at most one
  node for each of them. -/
theorem depth_budget {key : ℕ} {terminal : Bool}
    (h : Relation.ReflTransGen Call (ofRoot key terminal) t) :
    (∀ {σ : Type} (env : Environment σ α) (c : α) (selection : Selection) (maxDepth : ℕ) (s : σ),
      ∃ d t' s' log leaf,
        t.descend env.recorded c selection maxDepth (s, []) = (.ok d, t', s', log) ∧
        t.descend env c selection maxDepth s = (.ok d, t', s') ∧
        Descends env c selection maxDepth root [] 0 t s d t' s' ∧
        t'.node? d.leaf = some leaf ∧ d.path.length = leaf.depth ∧ d.path.length ≤ maxDepth ∧
        List.Forall₂ t'.StepAlong d.path (stepsOf log) ∧
        t'.size = t.size + if d.isNew then 1 else 0) ∧
    (∀ {σ : Type} (env : Environment σ α) (config : SearchConfig α) (s : σ),
      ∃ d t₁ s₁ log₁ leaf r t₂ s₂ log₂ rolled,
        t.descend env.recorded config.c config.selection config.maxDepth (s, []) =
          (.ok d, t₁, s₁, log₁) ∧ t₁.node? d.leaf = some leaf ∧
        t.iterate env.recorded config (s, []) = (r, t₂, s₂, log₂) ∧
        t.iterate env config s = (r, t₂, s₂) ∧
        stepsOf log₂ = stepsOf log₁ ++ rolled ∧ (stepsOf log₂).length ≤ config.maxDepth ∧
        rolled.length ≤ config.maxDepth - leaf.depth ∧
        (config.returnType = .fixedHorizon →
          rolled.length ≤ min config.fixedHorizonSteps (config.maxDepth - leaf.depth)) ∧
        (leaf.terminal = true → rolled = []) ∧ t₂.size ≤ t.size + 1) ∧
    ∀ {σ τ : Type} (clock : StateM τ ℕ) (env : Environment σ α) (config : SearchConfig α) (s : σ)
      (time : τ), ∃ k ≤ config.iterations,
        Did env config t s k 0 [] ((t.run clock env config s).run time).1 ∧
        ((t.run clock env config s).run time).1.2.1.size ≤ t.size + k := by
  have ht := wellFormed_of_calls h
  refine ⟨fun env c selection maxDepth s => ?_, fun env config s => ?_,
    fun clock env config s time => ?_⟩
  · obtain ⟨d, t', s', log, leaf, hrecorded, hd, hleaf, hlength, hle, halong, hsize⟩ :=
      exists_descend_recorded ht env c selection maxDepth s
    exact ⟨d, t', s', log, leaf, hrecorded, hd, (descend_eq_ok_iff ht).mp hd, hleaf, hlength,
      hlength ▸ hle, halong, hsize⟩
  · obtain ⟨d, t₁, s₁, log₁, leaf, hrecorded, -, hleaf, hlength, hle, halong, -⟩ :=
      exists_descend_recorded ht env config.c config.selection config.maxDepth s
    obtain ⟨rolled, hrolled, hlimit, hterminal⟩ :=
      exists_asks_estimate env config leaf (s₁, log₁)
    obtain ⟨hleft, hhorizon⟩ := config.stepLimit_le leaf.depth
    have hhidden := hidden_iterate hrecorded hleaf
    have hforget : t.iterate env config s = forget (t.iterate env.recorded config (s, [])) :=
      iterate_recorded t config (s, [])
    have hgrown := size_iterate_le ht env.recorded config (s, [])
    rcases hi : t.iterate env.recorded config (s, []) with ⟨r, t₂, s₂, log₂⟩
    rw [hi] at hhidden hforget hgrown
    have hsteps : stepsOf log₂ = stepsOf log₁ ++ rolled := by
      rw [← hhidden] at hrolled
      exact hrolled
    have hdescent : (stepsOf log₁).length = leaf.depth := halong.length_eq.symm.trans hlength
    refine ⟨d, t₁, s₁, log₁, leaf, r, t₂, s₂, log₂, rolled, hrecorded, hleaf, rfl, hforget, hsteps,
      ?_, Nat.le_trans hlimit hleft, fun hfixed => hhorizon hfixed ▸ hlimit, hterminal, hgrown⟩
    rw [hsteps, List.length_append, hdescent]
    omega
  · obtain ⟨k, hk, hdid⟩ := exists_did_run clock env config t s time
    obtain ⟨-, hsize⟩ := ht.iterations env config k s
    rw [hdid.length] at hsize
    exact ⟨k, hk, hdid, by rw [hdid.leaves]; exact hsize⟩

/-- The contrary tree after a third iteration, which goes to depth two. -/
def deepTree : Tree Float := (contraryTree.iterate contrary .standard 1).2.1

/-- In a tree that was grown to depth two, a descent that may go to depth one takes one step, and an
iteration whose budget is one step takes no more. -/
theorem depth_budget_deepTree :
    Relation.ReflTransGen Call (ofRoot 0 false) deepTree ∧
    (deepTree.node? 3).map (·.depth) = some 2 ∧
    (∃ d, (deepTree.descend contrary.recorded 1.4 .max 1 (1, [])).1 = .ok d ∧
      d.path.length ≤ 1 ∧ (stepsOf (deepTree.descend contrary.recorded 1.4 .max 1
        (1, [])).2.2.2).length = d.path.length) ∧
    (stepsOf (deepTree.iterate contrary.recorded
      { (.standard : SearchConfig Float) with maxDepth := 1 } (1, [])).2.2.2).length ≤ 1 := by
  have hcalls : Relation.ReflTransGen Call (ofRoot 0 false) deepTree :=
    .tail (.tail (.single (.iterate contrary .standard 1)) (.iterate contrary _ 1))
      (.iterate contrary .standard 1)
  obtain ⟨hdescents, hiterations, -⟩ := depth_budget hcalls
  refine ⟨hcalls, rfl, ?_, ?_⟩
  · obtain ⟨d, t', s', log, leaf, hd, -, -, -, -, hle, halong, -⟩ :=
      hdescents contrary 1.4 .max 1 1
    rw [hd]
    exact ⟨d, rfl, hle, halong.length_eq.symm⟩
  · obtain ⟨d, t₁, s₁, log₁, leaf, r, t₂, s₂, log₂, rolled, -, -, hi, -, -, hle, -⟩ :=
      hiterations contrary { (.standard : SearchConfig Float) with maxDepth := 1 } 1
    rw [hi]
    exact hle

end Tree

end DurativePlanning
