import DurativePlanning.Proofs.Search.Budget
import DurativePlanning.Proofs.Exact
import Mathlib.Algebra.BigOperators.Group.List.Basic
import Mathlib.Algebra.BigOperators.Ring.List
import Mathlib.Data.Rat.Floor

/-!
# The Trajectory of a Rollout

A rollout keeps a running total and a running weight, and nothing of the way it went. This module
lists its steps, by a relation between the state in which a rollout begins and the steps that it
takes, which counts the steps and knows nothing of numbers. The return of the rollout is then the
sum of the rewards of these steps, each weighted by a power of the discount.

* `Leg`, `Trajectory`: the steps of a rollout, and how it ends.
* `exists_trajectory`: every rollout has a trajectory, in any environment.
* `returnOf`: the weighted sum of rewards.
* `Trajectory.walk_eq`: a rollout adds up what its trajectory earns, and asks for its steps only.
* `rollout_return`: all of it.
-/

namespace DurativePlanning

variable {σ α : Type}

/-! ### Trajectories -/

/-- One step of a rollout: the state, how many actions it offers, the action taken, and what came of
it. -/
structure Leg (α : Type) where
  state : ℕ
  available : ℕ
  action : ℕ
  outcome : Transition α

/-- How a trajectory ends: nothing more is done, or an action was chosen that is not offered. -/
inductive Ending where
  | ended
  | refused (state action available : ℕ)
  deriving DecidableEq, Repr

/-- **The trajectory of a rollout** that may take `limit` steps: what follows after `taken` steps
have led to a state. A step is taken while fewer than `limit` were taken, the state offers an
action, and no step was terminal; and only when the action that is chosen is offered. -/
inductive Trajectory (env : Environment σ α) (limit : ℕ) :
    (taken state : ℕ) → σ → List (Leg α) → Ending → σ → Prop
  /-- All steps were taken. -/
  | spent {taken state : ℕ} {s : σ} : limit ≤ taken → Trajectory env limit taken state s [] .ended s
  /-- The state offers no action. -/
  | barren {taken state : ℕ} {s s₁ : σ} :
      taken < limit → env.actionCount state s = (0, s₁) →
        Trajectory env limit taken state s [] .ended s₁
  /-- The action that is chosen is not offered. -/
  | refused {taken state available action : ℕ} {s s₁ s₂ : σ} :
      taken < limit → env.actionCount state s = (available, s₁) → available ≠ 0 →
        env.choose state available s₁ = (action, s₂) → available ≤ action →
          Trajectory env limit taken state s [] (.refused state action available) s₂
  /-- A terminal step is the last one. -/
  | last {taken state available action : ℕ} {s s₁ s₂ s₃ : σ} {next : Transition α} :
      taken < limit → env.actionCount state s = (available, s₁) →
        env.choose state available s₁ = (action, s₂) → action < available →
          env.step state action s₂ = (next, s₃) → next.terminal = true →
            Trajectory env limit taken state s [⟨state, available, action, next⟩] .ended s₃
  /-- Any other step is followed by more. -/
  | onward {taken state available action : ℕ} {s s₁ s₂ s₃ s' : σ} {next : Transition α}
      {legs : List (Leg α)} {ending : Ending} :
      taken < limit → env.actionCount state s = (available, s₁) →
        env.choose state available s₁ = (action, s₂) → action < available →
          env.step state action s₂ = (next, s₃) → next.terminal = false →
            Trajectory env limit (taken + 1) next.next s₃ legs ending s' →
              Trajectory env limit taken state s (⟨state, available, action, next⟩ :: legs)
                ending s'

/-- **Every rollout has a trajectory**, in any environment: `Trajectory` is total in its inputs, by
induction on the limit. -/
theorem exists_trajectory (env : Environment σ α) (limit taken state : ℕ) (s : σ) :
    ∃ legs ending s', Trajectory env limit taken state s legs ending s' := by
  -- the induction is on the steps that are left
  induction hleft : limit - taken generalizing taken state s with
  | zero => exact ⟨[], .ended, s, .spent (Nat.sub_eq_zero_iff_le.mp hleft)⟩
  | succ left ih =>
      have hlt : taken < limit := by omega
      rcases hoffered : env.actionCount state s with ⟨available, s₁⟩
      rcases hchosen : env.choose state available s₁ with ⟨action, s₂⟩
      rcases Nat.eq_zero_or_pos available with rfl | havailable
      · exact ⟨[], .ended, s₁, .barren hlt hoffered⟩
      · rcases Nat.lt_or_ge action available with haction | haction
        · rcases hstep : env.step state action s₂ with ⟨next, s₃⟩
          cases hterminal : next.terminal with
          | true => exact ⟨_, _, _, .last hlt hoffered hchosen haction hstep hterminal⟩
          | false =>
              obtain ⟨legs, ending, s', hrest⟩ := ih (taken + 1) next.next s₃ (by omega)
              exact ⟨_, _, _, .onward hlt hoffered hchosen haction hstep hterminal hrest⟩
        · exact ⟨_, _, _, .refused hlt hoffered havailable.ne' hchosen haction⟩

namespace Leg

/-- The question for a step, as the key of the state and the action. -/
def step (leg : Leg α) : ℕ × ℕ := (leg.state, leg.action)

end Leg

/-- What a rollout reports that ends in some way and has earned `x`. -/
def Ending.result (x : α) : Ending → Except TreeError α
  | ended => .ok x
  | refused state action available => .error (.invalidRolloutAction state action available)

/-! ### What is asked for a step -/

section Recorded

variable {env : Environment σ α} {state available action : ℕ} {s s' : σ}

/-- A count of actions comes last on the record. -/
theorem recorded_actionCount (h : env.actionCount state s = (available, s'))
    (log : List (Question × σ)) : env.recorded.actionCount state (s, log) =
      (available, s', (.actionCount state, s) :: log) := by
  rw [Environment.actionCount_recorded, h]

theorem recorded_choose (h : env.choose state available s = (action, s'))
    (log : List (Question × σ)) : env.recorded.choose state available (s, log) =
      (action, s', (.choose state available, s) :: log) := by
  rw [Environment.choose_recorded, h]

theorem recorded_step {next : Transition α} (h : env.step state action s = (next, s'))
    (log : List (Question × σ)) : env.recorded.step state action (s, log) =
      (next, s', (.step state action, s) :: log) := by
  rw [Environment.step_recorded, h]

/-- **One step of a rollout**: `walk` asks three questions, one of them for the step. -/
theorem exists_walk_leg [Arithmetic α] {s₁ s₂ s₃ : σ} {next : Transition α}
    (hoffered : env.actionCount state s = (available, s₁))
    (hchosen : env.choose state available s₁ = (action, s₂)) (haction : action < available)
    (hstep : env.step state action s₂ = (next, s₃)) (decay total weight : α) (steps : ℕ)
    (log : List (Question × σ)) :
    ∃ log', walk env.recorded decay (steps + 1) state total weight (s, log) =
        (if next.terminal then (.ok (total + weight * next.reward), s₃, log')
        else walk env.recorded decay steps next.next (total + weight * next.reward)
          (weight * decay) (s₃, log')) ∧
      Asks (s, log) (s₃, log') [(state, action)] := by
  refine ⟨(.step state action, s₂) :: (.choose state available, s₁) :: (.actionCount state, s) ::
    log, ?_, ?_⟩
  · rw [walk_of_taken (recorded_actionCount hoffered log) (Nat.ne_zero_of_lt haction)
      (recorded_choose hchosen _) haction (recorded_step hstep _)]
  · exact ((Asks.ask (s, log) (.actionCount state) s₁).trans
      (.ask (s₁, _) (.choose state available) s₂)).trans (.ask (s₂, _) (.step state action) s₃)

end Recorded

/-! ### Returns -/

section Exact

variable {K : Type} [Field K]

/-- The **return** of some steps: the sum of their rewards, each weighted by a power of `w`. -/
def returnOf (w : K) (legs : List (Leg K)) : K :=
  (legs.mapIdx fun t leg => w ^ t * leg.outcome.reward).sum

@[simp] theorem returnOf_nil (w : K) : returnOf w [] = 0 := rfl

/-- The first reward counts in full, and all later ones once more by the weight. -/
theorem returnOf_cons (w : K) (leg : Leg K) (legs : List (Leg K)) :
    returnOf w (leg :: legs) = leg.outcome.reward + w * returnOf w legs := by
  have hlater : (legs.mapIdx fun t leg => w ^ (t + 1) * leg.outcome.reward) =
      (legs.mapIdx fun t leg => w ^ t * leg.outcome.reward).map (w * ·) := by
    refine List.ext_getElem (by simp) fun t _ _ => ?_
    simp only [List.getElem_map, List.getElem_mapIdx, pow_succ', mul_assoc]
  rw [returnOf, returnOf, List.mapIdx_cons, List.sum_cons, hlater, List.sum_map_mul_left,
    List.map_id', pow_zero, one_mul]

variable [LinearOrder K] [IsStrictOrderedRing K] [FloorSemiring K]

/-- **A rollout adds up what its trajectory earns**: `walk` gives `returnOf` its legs on top of what
was earned before, and asks for the steps of the trajectory and for no other. -/
theorem Trajectory.walk_eq {env : Environment σ K} {limit taken state : ℕ} {s s' : σ}
    {legs : List (Leg K)} {ending : Ending}
    (h : Trajectory env limit taken state s legs ending s') (decay total weight : K)
    (log : List (Question × σ)) :
    ∃ log', walk env.recorded decay (limit - taken) state total weight (s, log) =
        (ending.result (total + weight * returnOf decay legs), s', log') ∧
      Asks (s, log) (s', log') (legs.map Leg.step) := by
  have hsteps : ∀ {taken : ℕ}, taken < limit → limit - taken = limit - (taken + 1) + 1 := by omega
  induction h generalizing total weight log with
  | spent hle =>
      rw [Nat.sub_eq_zero_of_le hle]
      exact ⟨log, by simp [walk, Ending.result], .refl _⟩
  | @barren taken state s s₁ hlt hoffered =>
      have hcount := recorded_actionCount hoffered log
      rw [hsteps hlt, walk_of_no_action (by rw [hcount]), hcount]
      refine ⟨_, ?_, .ask (s, log) (.actionCount state) s₁⟩
      rw [returnOf_nil, mul_zero, add_zero]
      rfl
  | refused hlt hoffered havailable hchosen haction =>
      rw [hsteps hlt, walk_of_refused (recorded_actionCount hoffered log) havailable
        (recorded_choose hchosen _) (Nat.not_lt.mpr haction)]
      exact ⟨_, rfl, (Asks.ask _ _ _).trans (.ask (_, _) _ _)⟩
  | last hlt hoffered hchosen haction hstep hterminal =>
      obtain ⟨log', hwalk, hasks⟩ :=
        exists_walk_leg hoffered hchosen haction hstep decay total weight _ log
      rw [hterminal, if_pos rfl] at hwalk
      refine ⟨log', ?_, hasks⟩
      rw [hsteps hlt, hwalk, returnOf_cons, returnOf_nil, mul_zero, add_zero]
      rfl
  | onward hlt hoffered hchosen haction hstep hterminal _ ih =>
      obtain ⟨log₁, hwalk, hasks⟩ :=
        exists_walk_leg hoffered hchosen haction hstep decay total weight _ log
      obtain ⟨log', hrest, hasks'⟩ := ih (total + weight * _) (weight * decay) log₁
      rw [hterminal, if_neg Bool.false_ne_true] at hwalk
      refine ⟨log', ?_, hasks.trans hasks'⟩
      rw [hsteps hlt, hwalk, hrest, returnOf_cons, mul_add, mul_assoc, add_assoc]

/-- **A rollout returns what its trajectory earns.** In any environment, let a rollout begin in a
state with any settings; `limit` is the number of steps that it may take, the fixed horizon being
one more bound when the settings say so, and `w` is the discount when they say so, and otherwise
one. There is a trajectory, and for every trajectory: if no chosen action is refused, the rollout
returns the sum of the rewards of its steps, a terminal one included, the reward after `t` steps
being weighted by `w ^ t`; otherwise it fails and names the state, the action and how many are
offered, at the first refusal. Either way it asks for the steps of the trajectory and for no other.
With discount one and a horizon that does not cut anything off, it does not matter how the rewards
are said to count. -/
theorem rollout_return (env : Environment σ K) (params : RolloutParams K) (start : ℕ) (s : σ)
    (limit : ℕ) (w : K)
    (hlimit : limit = if params.returnType = .fixedHorizon
      then min params.fixedHorizonSteps params.maxSteps else params.maxSteps)
    (hw : w = if params.returnType = .discounted then params.gamma else 1) :
    (∃ legs ending s', Trajectory env limit 0 start s legs ending s') ∧
    (∀ legs ending s', Trajectory env limit 0 start s legs ending s' →
      (ending = .ended → rollout env params start s =
        (.ok (legs.mapIdx fun t leg => w ^ t * leg.outcome.reward).sum, s')) ∧
      (∀ state action available, ending = .refused state action available →
        rollout env params start s =
          (.error (.invalidRolloutAction state action available), s')) ∧
      stepsOf (rollout env.recorded params start (s, [])).2.2 =
        legs.map fun leg => (leg.state, leg.action)) ∧
    (params.gamma = 1 → params.maxSteps ≤ params.fixedHorizonSteps →
      ∀ counts counts' : ReturnType,
        rollout env { params with returnType := counts } start s =
          rollout env { params with returnType := counts' } start s) := by
  have hdecay : params.decay = w := by
    rw [hw, RolloutParams.decay]
    cases params.returnType <;> rfl
  have hsteps : params.stepLimit = limit := hlimit.symm
  refine ⟨exists_trajectory env limit 0 start s, fun legs ending s' h => ?_, fun hgamma hhorizon =>
    ?_⟩
  · obtain ⟨log, hwalk, hasks⟩ := h.walk_eq w 0 1 []
    rw [zero_add, one_mul, Nat.sub_zero] at hwalk
    have hrecorded : rollout env.recorded params start (s, []) =
        (ending.result (returnOf w legs), s', log) := by
      rw [rollout, hdecay, hsteps]
      exact hwalk
    have hrollout : rollout env params start s = (ending.result (returnOf w legs), s') := by
      rw [rollout, walk_recorded env _ _ _ _ _ (s, [])]
      rw [rollout] at hrecorded
      rw [hrecorded]
    refine ⟨?_, ?_, by rw [hrecorded]; exact hasks⟩
    · rintro rfl
      exact hrollout
    · rintro state action available rfl
      exact hrollout
  · have hplain : ∀ counts : ReturnType, rollout env { params with returnType := counts } start s =
        walk env 1 params.maxSteps start 0 1 s := by
      intro counts
      cases counts with
      | episodicUndiscounted => rfl
      | discounted =>
          rw [rollout, RolloutParams.decay]
          simp only [hgamma]
          rfl
      | fixedHorizon =>
          rw [rollout, RolloutParams.stepLimit, if_pos rfl, Nat.min_eq_right hhorizon]
          rfl
    intro counts counts'
    rw [hplain counts, hplain counts']

end Exact

/-- An environment whose states offer two actions each, and in which a rollout chooses the actions 0,
1, 2 in turn. The steps earn 4 and go one or two states up, and state 3 is terminal. -/
def ladder : Environment ℕ ℚ where
  actionCount _ chosen := (2, chosen)
  step state action chosen := (⟨state + action + 1, 4, state + action + 1 = 3⟩, chosen)
  choose _ _ chosen := (chosen % 3, chosen + 1)

/-- Settings of a rollout on the ladder that halve each further reward. -/
def ladderParams (steps : ℕ) : RolloutParams ℚ := ⟨.discounted, 1 / 2, steps, 1⟩

/-- From the bottom, a rollout on the ladder gets to the top in two steps and stops there. One that
begins with the second choice fails at the next one, and does not ask for that step. -/
theorem rollout_return_ladder :
    rollout ladder (ladderParams 5) 0 0 = (.ok 6, 2) ∧
    rollout ladder (ladderParams 5) 0 1 = (.error (.invalidRolloutAction 2 2 2), 3) ∧
    stepsOf (rollout ladder.recorded (ladderParams 5) 0 (1, [])).2.2 = [(0, 1)] := by
  obtain ⟨-, hends, -⟩ := rollout_return ladder (ladderParams 5) 0 0 5 (1 / 2) rfl rfl
  obtain ⟨-, hfails, -⟩ := rollout_return ladder (ladderParams 5) 0 1 5 (1 / 2) rfl rfl
  have hclimb : Trajectory ladder 5 0 0 0 [⟨0, 2, 0, ⟨1, 4, false⟩⟩, ⟨1, 2, 1, ⟨3, 4, true⟩⟩]
      .ended 2 :=
    .onward (by decide) rfl rfl (by decide) rfl rfl
      (.last (by decide) rfl rfl (by decide) rfl rfl)
  have hslip : Trajectory ladder 5 0 0 1 [⟨0, 2, 1, ⟨2, 4, false⟩⟩] (.refused 2 2 2) 3 :=
    .onward (by decide) rfl rfl (by decide) rfl rfl
      (.refused (by decide) rfl (by decide) rfl (by decide))
  refine ⟨((hends _ _ _ hclimb).1 rfl).trans ?_, (hfails _ _ _ hslip).2.1 2 2 2 rfl,
    (hfails _ _ _ hslip).2.2⟩
  norm_num

end DurativePlanning
