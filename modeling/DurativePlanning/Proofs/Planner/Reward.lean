import DurativePlanning.Planner.Decision
import DurativePlanning.Proofs.Exact
import Mathlib.Algebra.BigOperators.Group.Finset.Basic
import Mathlib.Algebra.Order.BigOperators.Group.Finset
import Mathlib.Tactic.LinearCombination

/-!
# The Reward of a Step

A step is rewarded with the fraction of the goals that hold after it and did not hold before. What
it loses is not taken back. Over exact numbers the rewards along a path can be summed up: goals that
are gained and goals that are lost, counted together, are all that separates the goals satisfied at
the end from those satisfied at the beginning.

* `Mdp.gained`, `Mdp.lost`: the goals that a step gains, and those that it loses.
* `Mdp.progress_eq`: the reward as a fraction; it lies between zero and one.
* `Mdp.goalCount_mul_sum_progress`: the rewards of a path, summed up.
* `Mdp.sum_progress_eq_iff`: when they are just the goals that were gained in the end.
-/

namespace DurativePlanning

namespace Mdp

/-! ### Goals gained and lost -/

section Goals

variable {α : Type} (m : Mdp α) (s t : State)

/-- The goals that hold after a step and did not hold before it; a failure gains none. -/
def gained : ℕ :=
  if t.isFailed then 0 else m.core.goals.countP fun g => !s.satisfies g && t.satisfies g

/-- The goals that held before a step and do not hold after it. -/
def lost : ℕ := m.core.goals.countP fun g => s.satisfies g && !t.satisfies g

/-- A step gains no more than all goals. -/
theorem gained_le_goalCount : m.gained s t ≤ m.goalCount := by
  rw [gained]
  split
  · exact Nat.zero_le _
  · exact List.countP_le_length

/-- Nothing is lost exactly when every goal that held still holds. -/
theorem lost_eq_zero_iff :
    m.lost s t = 0 ↔ ∀ g ∈ m.core.goals, s.satisfies g = true → t.satisfies g = true := by
  simp [lost, List.countP_eq_zero]

variable {m s t}

/-- **What a step does to the goals**, when neither state has failed: `goalsSatisfied` goes up by
`gained` and down by `lost`. -/
theorem goalsSatisfied_add_lost (hs : s.isFailed = false) (ht : t.isFailed = false) :
    m.goalsSatisfied t + m.lost s t = m.goalsSatisfied s + m.gained s t := by
  simp only [goalsSatisfied, gained, lost, hs, ht, Bool.false_eq_true, if_false]
  induction m.core.goals with
  | nil => rfl
  | cons g rest ih =>
      simp only [List.countP_cons]
      cases s.satisfies g <;> cases t.satisfies g <;> simp <;> omega

end Goals

/-! ### Rewards -/

/-- **The reward of a step** is the fraction of the goals that it has `gained`. A failure is not
rewarded, nor is anything where there are no goals. -/
theorem progress_eq_ratio {α : Type} [Arithmetic α] (m : Mdp α) (s t : State) :
    m.progress s t = if m.goalCount = 0 ∨ t.isFailed = true then 0
      else Arithmetic.ratio (m.gained s t) m.goalCount := by
  rw [progress, gained]
  by_cases hgoals : m.goalCount = 0
  · simp [hgoals]
  · cases ht : t.isFailed with
    | true => simp
    | false =>
        simp only [hgoals, decide_false, Bool.or_false, Bool.false_eq_true, or_self, if_false]
        rfl

variable {K : Type} [Field K] [LinearOrder K] [IsStrictOrderedRing K] [FloorSemiring K] (m : Mdp K)
  (s t : State)

/-- Over exact numbers the reward is that fraction in every case. -/
theorem progress_eq : m.progress s t = (m.gained s t : K) / (m.goalCount : K) := by
  rw [progress_eq_ratio]
  split
  · next hnone =>
    rcases hnone with hgoals | ht
    · simp [hgoals]
    · simp [gained, ht]
  · rfl

theorem progress_nonneg : 0 ≤ m.progress s t := by
  rw [progress_eq]
  exact div_nonneg (Nat.cast_nonneg _) (Nat.cast_nonneg _)

theorem progress_le_one : m.progress s t ≤ 1 := by
  rw [progress_eq]
  exact div_le_one_of_le₀ (Nat.cast_le.mpr (m.gained_le_goalCount s t)) (Nat.cast_nonneg _)

/-- `progress` counted in goals is what the step has `gained`. -/
theorem goalCount_mul_progress : (m.goalCount : K) * m.progress s t = (m.gained s t : K) := by
  rw [progress_eq]
  by_cases hgoals : m.goalCount = 0
  · have hnone : m.gained s t = 0 := Nat.le_zero.mp (hgoals ▸ m.gained_le_goalCount s t)
    simp [hgoals, hnone]
  · exact mul_div_cancel₀ _ (Nat.cast_ne_zero.mpr hgoals)

/-! ### Rewards along a path -/

variable {m} {n : ℕ} {state : ℕ → State}

/-- **The rewards of a path**, in goals: what the path has gained in the end, and once more what it
has lost on the way. The sum telescopes by `goalsSatisfied_add_lost`. -/
theorem goalCount_mul_sum_progress (hlive : ∀ k ≤ n, (state k).isFailed = false) :
    (m.goalCount : K) * ∑ k ∈ Finset.range n, m.progress (state k) (state (k + 1)) =
      (m.goalsSatisfied (state n) : K) - (m.goalsSatisfied (state 0) : K) +
        ∑ k ∈ Finset.range n, (m.lost (state k) (state (k + 1)) : K) := by
  induction n with
  | zero => simp
  | succ n ih =>
      have hstep : (m.goalsSatisfied (state (n + 1)) : K) + m.lost (state n) (state (n + 1)) =
          m.goalsSatisfied (state n) + m.gained (state n) (state (n + 1)) := by
        exact_mod_cast goalsSatisfied_add_lost (hlive n n.le_succ) (hlive (n + 1) le_rfl)
      rw [Finset.sum_range_succ, Finset.sum_range_succ, mul_add, goalCount_mul_progress,
        ih fun k hk => hlive k (hk.trans n.le_succ)]
      linear_combination -hstep

/-- The rewards of a path are worth **at least what it has gained in the end**. -/
theorem sub_div_le_sum_progress (hlive : ∀ k ≤ n, (state k).isFailed = false) :
    ((m.goalsSatisfied (state n) : K) - (m.goalsSatisfied (state 0) : K)) / (m.goalCount : K) ≤
      ∑ k ∈ Finset.range n, m.progress (state k) (state (k + 1)) := by
  have hlost : (0 : K) ≤ ∑ k ∈ Finset.range n, (m.lost (state k) (state (k + 1)) : K) :=
    Finset.sum_nonneg fun _ _ => Nat.cast_nonneg _
  refine div_le_of_le_mul₀ (Nat.cast_nonneg _)
    (Finset.sum_nonneg fun k _ => m.progress_nonneg _ _) ?_
  rw [mul_comm, goalCount_mul_sum_progress hlive]
  exact le_add_of_nonneg_right hlost

/-- They are worth just that **exactly when no goal is ever `lost`** on the way. -/
theorem sum_progress_eq_iff (hlive : ∀ k ≤ n, (state k).isFailed = false) :
    ∑ k ∈ Finset.range n, m.progress (state k) (state (k + 1)) =
        ((m.goalsSatisfied (state n) : K) - (m.goalsSatisfied (state 0) : K)) / (m.goalCount : K) ↔
      ∀ k < n, ∀ g ∈ m.core.goals, (state k).satisfies g = true →
        (state (k + 1)).satisfies g = true := by
  have hsum := goalCount_mul_sum_progress (m := m) hlive
  have hlost : ∑ k ∈ Finset.range n, (m.lost (state k) (state (k + 1)) : K) = 0 ↔
      ∀ k < n, ∀ g ∈ m.core.goals, (state k).satisfies g = true →
        (state (k + 1)).satisfies g = true := by
    rw [Finset.sum_eq_zero_iff_of_nonneg fun _ _ => Nat.cast_nonneg _]
    simp only [Finset.mem_range, Nat.cast_eq_zero, lost_eq_zero_iff]
  by_cases hgoals : m.goalCount = 0
  · -- without goals there is nothing to gain, and nothing to lose
    have hnone : m.core.goals = [] := List.eq_nil_of_length_eq_zero hgoals
    simp [progress_eq, hgoals, hnone]
  · rw [← hlost, eq_div_iff (Nat.cast_ne_zero.mpr hgoals), mul_comm, hsum]
    exact add_eq_left

end Mdp

end DurativePlanning
